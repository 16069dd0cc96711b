import HydroxKernel.Arch.Interrupt
import HydroxKernel.Lib.BitFields
import HydroxKernel.Lib.Words

/-!
# The Registers of the Processor

The entry code of interrupts is written in assembly. These are the instructions it is made of, and
what each of them does to the registers and to the stack.

Memory is addressed by words of eight bytes. The instruction pointer moves along with the
instructions and is only changed where an interrupt or a return from one changes it. What a
processor does beyond that is a parameter: the base that it gives a segment register when it loads
a selector, the flags that an arithmetic instruction leaves, and the stacks for interrupts.

## Main results

* `Saves.trans`, `saves_pushes`: code that pushes words leaves the words below them.
* `onStack_pops`: code that pops words loads them.
-/

namespace HydroxKernel.Arch

/-- The segment registers other than those that an interrupt pushes. -/
inductive SegmentRegister
  | ds | es | fs | gs
  deriving DecidableEq

/-- The registers of the processor, and memory by words. -/
structure Cpu where
  gpr : GeneralRegister → BitVec 64
  seg : SegmentRegister → BitVec 16
  cs : BitVec 16
  ss : BitVec 16
  /-- The model specific registers. -/
  msr : BitVec 32 → BitVec 64
  rip : BitVec 64
  rflags : BitVec 64
  mem : BitVec 64 → BitVec 64

/-- The model specific register with the base of `fs`. -/
def fsBase : BitVec 32 := 0xc0000100

/-- The model specific register with the base of `gs`. -/
def gsBase : BitVec 32 := 0xc0000101

/-- The instructions. -/
inductive Instr
  | push (r : GeneralRegister)
  | pushImm (v : BitVec 64)
  | pop (r : GeneralRegister)
  | mov (dst src : GeneralRegister)
  | movImm64 (dst : GeneralRegister) (v : BitVec 64)
  | movImm32 (dst : GeneralRegister) (v : BitVec 32)
  | movImm16 (dst : GeneralRegister) (v : BitVec 16)
  | movFromSeg (dst : GeneralRegister) (src : SegmentRegister)
  | movToSeg (dst : SegmentRegister) (src : GeneralRegister)
  | addImm64 (dst : GeneralRegister) (v : BitVec 64)
  | addImm32 (dst : GeneralRegister) (v : BitVec 32)
  | subImm32 (dst : GeneralRegister) (v : BitVec 32)
  | shl (dst : GeneralRegister) (k : ℕ)
  | shr (dst : GeneralRegister) (k : ℕ)
  | or (dst src : GeneralRegister)
  | rdmsr
  | wrmsr
  | iretq

/-- What the code cannot know of a processor. -/
structure Processor where
  /-- The base of a segment register after a selector is loaded, from the base before. -/
  loadBase : BitVec 16 → BitVec 64 → BitVec 64
  /-- The flags after an arithmetic instruction. -/
  flags : Instr → Cpu → BitVec 64
  /-- The stack for interrupts that raise the privilege level. -/
  rsp0 : BitVec 64
  /-- The stacks of the interrupt stack table. -/
  ist : BitVec 3 → BitVec 64

namespace Cpu

/-- Writes a general register. -/
def set (s : Cpu) (r : GeneralRegister) (v : BitVec 64) : Cpu :=
  { s with gpr := Function.update s.gpr r v }

/-- Pushes a word. -/
def push (s : Cpu) (v : BitVec 64) : Cpu :=
  { s.set .rsp (s.gpr .rsp - 8) with mem := Function.update s.mem (s.gpr .rsp - 8) v }

/-- Pops a word into a register. -/
def pop (s : Cpu) (r : GeneralRegister) : Cpu :=
  (s.set .rsp (s.gpr .rsp + 8)).set r (s.mem (s.gpr .rsp))

/-- Loads a selector, which changes the base of `fs` and `gs`. -/
def loadSeg (p : Processor) (s : Cpu) (dst : SegmentRegister) (sel : BitVec 16) : Cpu :=
  let t := { s with seg := Function.update s.seg dst sel }
  match dst with
  | .ds => t
  | .es => t
  | .fs => { t with msr := Function.update s.msr fsBase (p.loadBase sel (s.msr fsBase)) }
  | .gs => { t with msr := Function.update s.msr gsBase (p.loadBase sel (s.msr gsBase)) }

/-- The carry, parity, auxiliary carry, zero, sign and overflow flags. -/
def statusFlags : BitVec 64 := 0x8d5

/-- The flags after an arithmetic instruction. -/
def setFlags (p : Processor) (i : Instr) (s t : Cpu) : Cpu :=
  { t with rflags := writeMasked s.rflags statusFlags (p.flags i s &&& statusFlags) }

/-- One instruction. The halves of a model specific register are in `edx` and `eax`. -/
def step (p : Processor) (s : Cpu) : Instr → Cpu
  | .push r => s.push (s.gpr r)
  | .pushImm v => s.push v
  | .pop r => s.pop r
  | .mov dst src => s.set dst (s.gpr src)
  | .movImm64 dst v => s.set dst v
  | .movImm32 dst v => s.set dst (v.setWidth 64)
  | .movImm16 dst v => s.set dst (writeMasked (s.gpr dst) 0xffff (v.setWidth 64))
  | .movFromSeg dst src => s.set dst ((s.seg src).setWidth 64)
  | .movToSeg dst src => s.loadSeg p dst ((s.gpr src).setWidth 16)
  | .addImm64 dst v => setFlags p (.addImm64 dst v) s (s.set dst (s.gpr dst + v))
  | .addImm32 dst v =>
      setFlags p (.addImm32 dst v) s (s.set dst (((s.gpr dst).setWidth 32 + v).setWidth 64))
  | .subImm32 dst v =>
      setFlags p (.subImm32 dst v) s (s.set dst (((s.gpr dst).setWidth 32 - v).setWidth 64))
  | .shl dst k => setFlags p (.shl dst k) s (s.set dst (s.gpr dst <<< k))
  | .shr dst k => setFlags p (.shr dst k) s (s.set dst (s.gpr dst >>> k))
  | .or dst src => setFlags p (.or dst src) s (s.set dst (s.gpr dst ||| s.gpr src))
  | .rdmsr =>
      let v := s.msr ((s.gpr .rcx).setWidth 32)
      (s.set .rax ((v.setWidth 32).setWidth 64)).set .rdx (((v >>> 32).setWidth 32).setWidth 64)
  | .wrmsr =>
      let v := (s.gpr .rdx).setWidth 32 ++ (s.gpr .rax).setWidth 32
      { s with msr := Function.update s.msr ((s.gpr .rcx).setWidth 32) v }
  | .iretq =>
      let sp := s.gpr .rsp
      { s.set .rsp (s.mem (sp + 24)) with
        rip := s.mem sp
        cs := (s.mem (sp + 8)).setWidth 16
        rflags := s.mem (sp + 16)
        ss := (s.mem (sp + 32)).setWidth 16 }

/-- A sequence of instructions. -/
def exec (p : Processor) (code : List Instr) (s : Cpu) : Cpu := code.foldl (step p) s

/-- The words on top of the stack. -/
def OnStack (s : Cpu) (ws : List (BitVec 64)) : Prop := WordsAt 8 s.mem (s.gpr .rsp) ws

variable {p : Processor} {s t u : Cpu}

/-- Code is executed from its first instruction. -/
theorem exec_cons (i : Instr) (code : List Instr) :
    exec p (i :: code) s = exec p code (step p s i) := rfl

/-- Code is executed part after part. -/
theorem exec_append (code code' : List Instr) :
    exec p (code ++ code') s = exec p code' (exec p code s) := List.foldl_append

/-! ### Pushing -/

/-- Between the states `s` and `t` the words `ws` are pushed, the first of them last, and nothing
that the code has still to save is changed. -/
structure Saves (s t : Cpu) (ws : List (BitVec 64)) : Prop where
  stack : ∀ rest : List (BitVec 64), ws.length + rest.length < 2 ^ 60 → s.OnStack rest →
    t.OnStack (ws ++ rest)
  seg : t.seg = s.seg
  msr : t.msr = s.msr
  interrupts : t.rflags.getLsbD 9 = s.rflags.getLsbD 9

/-- Code that pushes nothing. -/
theorem Saves.of_eq (hsp : t.gpr .rsp = s.gpr .rsp) (hmem : t.mem = s.mem)
    (hseg : t.seg = s.seg) (hmsr : t.msr = s.msr)
    (hflags : t.rflags.getLsbD 9 = s.rflags.getLsbD 9) : Saves s t [] := by
  refine ⟨fun rest _ h => ?_, hseg, hmsr, hflags⟩
  rw [OnStack, hsp, hmem]
  exact h

/-- **What is pushed later is on top.** -/
theorem Saves.trans {ws ws' : List (BitVec 64)} (h : Saves s t ws) (h' : Saves t u ws') :
    Saves s u (ws' ++ ws) := by
  refine ⟨fun rest hlen hrest => ?_, h'.seg.trans h.seg, h'.msr.trans h.msr,
    h'.interrupts.trans h.interrupts⟩
  rw [List.length_append] at hlen
  rw [List.append_assoc]
  refine h'.stack _ ?_ (h.stack rest (by omega) hrest)
  rw [List.length_append]
  omega

/-- One push. -/
theorem saves_push (v : BitVec 64) : Saves s (s.push v) [v] := by
  refine ⟨fun rest hlen h => ?_, rfl, rfl, rfl⟩
  have hsp : (s.push v).gpr .rsp = s.gpr .rsp - 8 := by simp [push, set]
  have hlen' : 8 * rest.length < 2 ^ 64 := by
    rw [List.length_singleton] at hlen
    omega
  rw [OnStack, hsp]
  exact wordsAt_push h (by decide) hlen' v

/-- A push changes no other register. -/
theorem push_gpr_of_ne {r : GeneralRegister} (hr : r ≠ .rsp) (v : BitVec 64) :
    (s.push v).gpr r = s.gpr r := Function.update_of_ne hr _ _

/-- **Pushes of registers.** -/
theorem saves_pushes {rs : List GeneralRegister} (hrs : .rsp ∉ rs) :
    Saves s (exec p (rs.map .push) s) (rs.map s.gpr).reverse := by
  induction rs generalizing s with
  | nil => exact .of_eq rfl rfl rfl rfl rfl
  | cons r rs ih =>
      have hrs' : .rsp ∉ rs := fun h => hrs (List.mem_cons_of_mem _ h)
      have hrest := ih hrs' (s := s.push (s.gpr r))
      have hgpr : rs.map (s.push (s.gpr r)).gpr = rs.map s.gpr :=
        List.map_congr_left fun r' hr' => push_gpr_of_ne (ne_of_mem_of_not_mem hr' hrs') _
      rw [hgpr] at hrest
      rw [List.map_cons, List.map_cons, List.reverse_cons]
      exact (saves_push _).trans hrest

/-- The code that pushes a segment register. -/
def pushSeg (g : SegmentRegister) : List Instr := [.movFromSeg .rax g, .push .rax]

/-- A segment register is pushed. -/
theorem saves_pushSeg (g : SegmentRegister) :
    Saves s (exec p (pushSeg g) s) [(s.seg g).setWidth 64] := by
  have hmov : Saves s (s.set .rax ((s.seg g).setWidth 64)) [] := .of_eq rfl rfl rfl rfl rfl
  exact hmov.trans (saves_push _)

/-- **Pushes of segment registers.** -/
theorem saves_pushSegs (gs : List SegmentRegister) :
    Saves s (exec p (gs.flatMap pushSeg) s)
      (gs.map fun g => (s.seg g).setWidth 64).reverse := by
  induction gs generalizing s with
  | nil => exact .of_eq rfl rfl rfl rfl rfl
  | cons g gs ih =>
      have hfirst := saves_pushSeg g (s := s) (p := p)
      have hrest := ih (s := exec p (pushSeg g) s)
      rw [hfirst.seg] at hrest
      rw [List.flatMap_cons, exec_append, List.map_cons, List.reverse_cons]
      exact hfirst.trans hrest

/-- The two halves of a word. -/
theorem or_halves (v : BitVec 64) :
    (v.setWidth 32).setWidth 64 ||| ((v >>> 32).setWidth 32).setWidth 64 <<< 32 = v := by
  refine BitVec.eq_of_getLsbD_eq fun i hi => ?_
  by_cases hlow : i < 32
  · simp [hi, hlow]
  · have hhigh : 32 + (i - 32) = i := by omega
    have hlt : i - 32 < 32 := by omega
    have hlt' : i - 32 < 64 := by omega
    simp [hi, hlow, hhigh, hlt, hlt']

/-- The code that pushes the model specific register whose number is in `ecx`. -/
def pushMsr : List Instr := [.rdmsr, .shl .rdx 32, .or .rax .rdx, .push .rax]

/-- Arithmetic leaves the interrupt flag alone. -/
theorem setFlags_interrupts (i : Instr) :
    (setFlags p i s t).rflags.getLsbD 9 = s.rflags.getLsbD 9 := by
  have hmask : statusFlags.getLsbD 9 = false := by decide
  rw [setFlags, getLsbD_writeMasked, BitVec.getLsbD_and, hmask]
  simp

/-- A model specific register is pushed. -/
theorem saves_pushMsr :
    Saves s (exec p pushMsr s) [s.msr ((s.gpr .rcx).setWidth 32)] := by
  have hread : Saves s (exec p [.rdmsr, .shl .rdx 32, .or .rax .rdx] s) [] := by
    refine .of_eq ?_ rfl rfl rfl ?_
    · simp [exec, step, setFlags, set]
    · simp only [exec, List.foldl_cons, List.foldl_nil, step, setFlags_interrupts, set]
  have hrax : (exec p [.rdmsr, .shl .rdx 32, .or .rax .rdx] s).gpr .rax =
      s.msr ((s.gpr .rcx).setWidth 32) := by
    have hor := or_halves (s.msr ((s.gpr .rcx).setWidth 32))
    simpa [exec, step, setFlags, set] using hor
  have hpush := hread.trans (saves_push ((exec p [.rdmsr, .shl .rdx 32, .or .rax .rdx] s).gpr .rax))
  rw [← hrax]
  exact hpush

/-- The number of the register stays where it is. -/
theorem pushMsr_rcx : (exec p pushMsr s).gpr .rcx = s.gpr .rcx := by
  simp [exec, pushMsr, step, setFlags, set, push]

/-! ### Popping -/

/-- A pop. -/
theorem step_pop (r : GeneralRegister) : step p s (.pop r) = s.pop r := rfl

/-- One pop. -/
theorem onStack_pop {r : GeneralRegister} {w : BitVec 64} {ws : List (BitVec 64)}
    (hr : r ≠ .rsp) (h : s.OnStack (w :: ws)) : (s.pop r).OnStack ws ∧ (s.pop r).gpr r = w := by
  constructor
  · have hsp : (s.pop r).gpr .rsp = s.gpr .rsp + 8 := by simp [pop, set, hr.symm]
    rw [OnStack, hsp]
    exact h.2
  · have hval : (s.pop r).gpr r = s.mem (s.gpr .rsp) := by simp [pop, set]
    exact hval.trans h.1

/-- A pop changes no other register. -/
theorem pop_gpr_of_ne {r r' : GeneralRegister} (hr : r' ≠ r) (hsp : r' ≠ .rsp) :
    (s.pop r).gpr r' = s.gpr r' := by
  simp [pop, set, hr, hsp]

/-- **Pops into registers.** -/
theorem onStack_pops {rs : List GeneralRegister} (hrs : .rsp ∉ rs)
    {f : GeneralRegister → BitVec 64} {ws : List (BitVec 64)} (h : s.OnStack (rs.map f ++ ws)) :
    (exec p (rs.map .pop) s).OnStack ws ∧
      (∀ r ∈ rs, (exec p (rs.map .pop) s).gpr r = f r) ∧
      (∀ r, r ∉ rs → r ≠ .rsp → (exec p (rs.map .pop) s).gpr r = s.gpr r) ∧
      (exec p (rs.map .pop) s).seg = s.seg ∧ (exec p (rs.map .pop) s).msr = s.msr := by
  induction rs generalizing s with
  | nil => exact ⟨h, fun r hr => absurd hr List.not_mem_nil, fun r _ _ => rfl, rfl, rfl⟩
  | cons r rs ih =>
      have hr : r ≠ .rsp := fun heq => hrs (heq ▸ List.mem_cons_self)
      obtain ⟨hstack, hpopped⟩ := onStack_pop hr h
      obtain ⟨hws, hmem, hother, hseg, hmsr⟩ :=
        ih (fun h' => hrs (List.mem_cons_of_mem _ h')) hstack
      refine ⟨hws, fun r' hr' => ?_, fun r' hr' hsp => ?_, hseg, hmsr⟩
      · by_cases hlater : r' ∈ rs
        · exact hmem r' hlater
        · obtain rfl := (List.mem_cons.mp hr').resolve_right hlater
          exact (hother r' hlater hr).trans hpopped
      · obtain ⟨hne, hlater⟩ := not_or.mp (mt List.mem_cons.mpr hr')
        exact (hother r' hlater hsp).trans (pop_gpr_of_ne hne hsp)

/-- A word from its two halves. -/
theorem append_halves (v : BitVec 64) : (v >>> 32).setWidth 32 ++ v.setWidth 32 = v := by
  refine BitVec.eq_of_getLsbD_eq fun i hi => ?_
  rw [BitVec.getLsbD_append]
  by_cases hlow : i < 32
  · simp [hlow]
  · have hhigh : 32 + (i - 32) = i := by omega
    have hlt : i - 32 < 32 := by omega
    simp [hlow, hhigh, hlt]

end Cpu

end HydroxKernel.Arch
