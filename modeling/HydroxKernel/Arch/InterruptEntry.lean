import HydroxKernel.Arch.InterruptGate
import HydroxKernel.Arch.Machine

/-!
# Entering and Leaving an Interrupt

`init_bsp` fills the interrupt table with the addresses of short pieces of entry code. The
processor pushes where it was interrupted, the entry code of the interrupt pushes its number, and
`begin_interrupt_common` pushes all other registers, calls `handle_interrupt` with the address of
what is then an `InterruptFrame`, and pops everything again.

Vectors 21 and 29 are left out of the result: for these the processor pushes an error code, which
their entry code does not expect. It raises them only with features that the kernel does not use.

## Main results

* `initBsp_spec`: every entry of the interrupt table that `init_bsp` builds.
* `saves_pushCode`, `loadedFrom_of_restoreCode`: what the code before and after the call does.
* `interrupt_entry_exit`: the frame has the registers of the interrupted code, and leaving the
  interrupt loads those of the frame.
-/

namespace HydroxKernel.Arch

/-- The entry code of an interrupt, for which the processor pushes an error code or not. -/
inductive Stub
  /-- `handler_with_code`. -/
  | withCode (n : ℕ)
  /-- `handler_without_code`. -/
  | withoutCode (n : ℕ)
  deriving DecidableEq

/-- The entry code before it jumps to `begin_interrupt_common`. -/
def Stub.code : Stub → List Instr
  | .withCode n => [.pushImm (BitVec.ofNat 64 n)]
  | .withoutCode n => [.pushImm 0, .pushImm (BitVec.ofNat 64 n)]

/-- `begin_isr0` to `begin_isr31`. -/
def beginIsr (n : ℕ) : Stub :=
  if n ∈ [8, 10, 11, 12, 13, 14, 17, 30] then .withCode n else .withoutCode n

/-- `begin_irq0` to `begin_irq15`. -/
def beginIrq (n : ℕ) : Stub := .withoutCode (32 + n)

/-- `begin_int30`. -/
def beginInt30 : Stub := .withoutCode 0x30

/-- `begin_int80`. -/
def beginInt80 : Stub := .withoutCode 0x80

/-- `begin_interrupt_common` up to the call of `handle_interrupt`, where `kernelDs` is the selector
`KERNEL_DS`. -/
def saveCode (kernelDs : BitVec 16) : List Instr :=
  [.push .rax, .push .rbx, .push .rcx, .push .rdx, .push .rbp, .push .rsi, .push .rdi,
    .push .r8, .push .r9, .push .r10, .push .r11, .push .r12, .push .r13, .push .r14, .push .r15,
    .movFromSeg .rax .ds, .push .rax,
    .movFromSeg .rax .es, .push .rax,
    .movFromSeg .rax .fs, .push .rax,
    .movFromSeg .rax .gs, .push .rax,
    .movImm32 .rcx 0xc0000100, .rdmsr, .shl .rdx 32, .or .rax .rdx, .push .rax,
    .addImm32 .rcx 1, .rdmsr, .shl .rdx 32, .or .rax .rdx, .push .rax,
    .movImm16 .rax kernelDs,
    .movToSeg .ds .rax, .movToSeg .es .rax, .movToSeg .fs .rax, .movToSeg .gs .rax,
    .movImm64 .rbp 0,
    .mov .rdi .rsp]

/-- `begin_interrupt_common` after the call of `handle_interrupt`. -/
def restoreCode : List Instr :=
  [.pop .rax,
    .pop .rbx,
    .pop .rdx, .movToSeg .gs .rdx,
    .pop .rdx, .movToSeg .fs .rdx,
    .mov .rdx .rax, .shr .rdx 32, .movImm32 .rcx 0xc0000101, .wrmsr,
    .mov .rdx .rbx, .mov .rax .rbx, .shr .rdx 32, .subImm32 .rcx 1, .wrmsr,
    .pop .rax, .movToSeg .es .rax,
    .pop .rax, .movToSeg .ds .rax,
    .pop .r15, .pop .r14, .pop .r13, .pop .r12, .pop .r11, .pop .r10, .pop .r9, .pop .r8,
    .pop .rdi, .pop .rsi, .pop .rbp, .pop .rdx, .pop .rcx, .pop .rbx, .pop .rax,
    .addImm64 .rsp 16,
    .iretq]

/-! ### The interrupt table -/

/-- `OPTION_TYPE_TRAP_GATE`. -/
def InterruptTableEntry.optionTypeTrapGate : BitVec 16 := 0x0f00

/-- The `handlers` of `init_bsp`. -/
def handlers : List Stub := (List.range 32).map beginIsr ++ (List.range 16).map beginIrq

/-- The loop of `init_bsp` over the handlers, where `addr` gives the address of a function. -/
def setHandlers (kernelCs : BitVec 16) (addr : Stub → BitVec 64) :
    ℕ → List Stub → List InterruptTableEntry → Except GatePanic (List InterruptTableEntry)
  | _, [], idt => .ok idt
  | i, f :: fs, idt => do
      let entry ← InterruptTableEntry.new kernelCs InterruptTableEntry.optionTypeInterruptGate
        .ring0 0 (some (addr f))
      setHandlers kernelCs addr (i + 1) fs (idt.set i entry)

/-- `init_bsp`, where `kernelCs` is the selector `KERNEL_CS`. -/
def initBsp (kernelCs : BitVec 16) (addr : Stub → BitVec 64) :
    Except GatePanic (List InterruptTableEntry) := do
  let idt ← setHandlers kernelCs addr 0 handlers (List.replicate 256 .empty)
  let entry30 ← InterruptTableEntry.new kernelCs InterruptTableEntry.optionTypeTrapGate
    .ring0 0 (some (addr beginInt30))
  let entry80 ← InterruptTableEntry.new kernelCs InterruptTableEntry.optionTypeTrapGate
    .ring3 0 (some (addr beginInt80))
  return (idt.set 0x30 entry30).set 0x80 entry80

/-- The entry code of the interrupt `v`. -/
def stubOf (v : ℕ) : Option Stub :=
  if v < 32 then some (beginIsr v)
  else if v < 48 then some (beginIrq (v - 32))
  else if v = 0x30 then some beginInt30
  else if v = 0x80 then some beginInt80
  else none

/-- A gate for entry code. -/
def gateTo (kernelCs ty : BitVec 16) (dpl : PrivilegeLevel) (f : BitVec 64) : Gate :=
  ⟨0, ty.extractLsb' 8 5, dpl.asU16.setWidth 2, true, kernelCs, f⟩

/-- The gate of the interrupt `v`. -/
def gateOf (kernelCs : BitVec 16) (v : ℕ) (f : BitVec 64) : Gate :=
  gateTo kernelCs (if v < 0x30 then InterruptTableEntry.optionTypeInterruptGate
    else InterruptTableEntry.optionTypeTrapGate) (if v = 0x80 then .ring3 else .ring0) f

variable {kernelCs kernelDs : BitVec 16} {addr : Stub → BitVec 64}

/-- The gates that `init_bsp` makes are the ones it means to make. -/
theorem new_gate {ty : BitVec 16} {dpl : PrivilegeLevel} (hty : ty = 0x0e00 ∨ ty = 0x0f00)
    (f : BitVec 64) : ∃ entry, InterruptTableEntry.new kernelCs ty dpl 0 (some f) = .ok entry ∧
      entry.readGate = gateTo kernelCs ty dpl f := by
  have hok : ∃ entry, InterruptTableEntry.new kernelCs ty dpl 0 (some f) = .ok entry := by
    rcases hty with rfl | rfl <;> exact ⟨_, rfl⟩
  obtain ⟨entry, hentry⟩ := hok
  refine ⟨entry, hentry, ?_⟩
  rw [InterruptTableEntry.readGate_new hentry]
  rfl

/-- The loop over the handlers. -/
theorem setHandlers_spec {fs : List Stub} {i : ℕ} {idt : List InterruptTableEntry}
    (hlen : i + fs.length ≤ idt.length) :
    ∃ idt', setHandlers kernelCs addr i fs idt = .ok idt' ∧ idt'.length = idt.length ∧
      (∀ k f, fs[k]? = some f → ∃ e, idt'[i + k]? = some e ∧
        e.readGate = gateTo kernelCs InterruptTableEntry.optionTypeInterruptGate .ring0 (addr f)) ∧
      ∀ v, v < i ∨ i + fs.length ≤ v → idt'[v]? = idt[v]? := by
  induction fs generalizing i idt with
  | nil => exact ⟨idt, rfl, rfl, fun k f hk => by simp at hk, fun v _ => rfl⟩
  | cons f fs ih =>
      obtain ⟨entry, hentry, hgate⟩ := @new_gate kernelCs _ .ring0 (Or.inl rfl) (addr f)
      rw [List.length_cons] at hlen
      have hlen' : i + 1 + fs.length ≤ (idt.set i entry).length := by
        rw [List.length_set]
        omega
      obtain ⟨idt', hidt', hlength, hset, hkept⟩ := ih hlen'
      rw [List.length_set] at hlength
      refine ⟨idt', ?_, hlength, fun k g hk => ?_, fun v hv => ?_⟩
      · rw [setHandlers]
        exact bind_eq_ok.mpr ⟨entry, hentry, hidt'⟩
      · cases k with
        | zero =>
            obtain rfl := Option.some.inj hk
            refine ⟨entry, ?_, hgate⟩
            rw [Nat.add_zero, hkept i (Or.inl (Nat.lt_succ_self i)), List.getElem?_set_self]
            omega
        | succ k =>
            obtain ⟨e, he, hegate⟩ := hset k g hk
            exact ⟨e, by rw [← he, Nat.add_right_comm, Nat.add_assoc], hegate⟩
      · rw [List.length_cons] at hv
        have hne : i ≠ v := by omega
        rw [hkept v (by omega), List.getElem?_set_ne hne]

/-- The handlers are those of the vectors below `0x30`. -/
theorem handlers_getElem? {v : ℕ} (hv : v < 48) : handlers[v]? = stubOf v := by
  rw [handlers, stubOf]
  by_cases hisr : v < 32
  · rw [List.getElem?_append_left (by simpa using hisr), if_pos hisr]
    simp [hisr]
  · have hlt : v - 32 < 16 := by omega
    rw [List.getElem?_append_right (by simpa using hisr), if_neg hisr, if_pos hv]
    simp [hlt]

/-- **The interrupt table.** `init_bsp` does not panic. There is a gate for every interrupt that
has entry code, with its address, and no other gate is present. -/
theorem initBsp_spec : ∃ idt, initBsp kernelCs addr = .ok idt ∧ idt.length = 256 ∧
    (∀ v f, stubOf v = some f → ∃ e, idt[v]? = some e ∧
      e.readGate = gateOf kernelCs v (addr f)) ∧
    ∀ v, v < 256 → stubOf v = none → idt[v]? = some .empty := by
  obtain ⟨entry30, hentry30, hgate30⟩ := @new_gate kernelCs _ .ring0 (Or.inr rfl) (addr beginInt30)
  obtain ⟨entry80, hentry80, hgate80⟩ := @new_gate kernelCs _ .ring3 (Or.inr rfl) (addr beginInt80)
  have hcount : handlers.length = 48 := rfl
  have hroom : 0 + handlers.length ≤ (List.replicate 256 InterruptTableEntry.empty).length := by
    rw [List.length_replicate, hcount]
    decide
  obtain ⟨idt, hidt, hlen, hset, hkept⟩ :=
    @setHandlers_spec kernelCs addr handlers 0 (List.replicate 256 .empty) hroom
  rw [List.length_replicate] at hlen
  have hinit : initBsp kernelCs addr = .ok ((idt.set 0x30 entry30).set 0x80 entry80) := by
    rw [initBsp]
    exact bind_eq_ok.mpr ⟨idt, hidt, bind_eq_ok.mpr ⟨entry30, hentry30,
      bind_eq_ok.mpr ⟨entry80, hentry80, rfl⟩⟩⟩
  refine ⟨_, hinit, by simp [hlen], fun v f hf => ?_, fun v hv hnone => ?_⟩
  · by_cases hlow : v < 48
    · obtain ⟨e, he, hgate⟩ := hset v f ((handlers_getElem? hlow).trans hf)
      refine ⟨e, ?_, ?_⟩
      · rw [Nat.zero_add] at he
        rw [List.getElem?_set_ne (by omega), List.getElem?_set_ne (by omega), he]
      · rw [hgate, gateOf, if_pos hlow, if_neg (by omega)]
    · rw [stubOf, if_neg (by omega), if_neg hlow] at hf
      split_ifs at hf with h30 h80
      · obtain rfl := Option.some.inj hf
        subst h30
        refine ⟨entry30, ?_, hgate30⟩
        rw [List.getElem?_set_ne (by decide), List.getElem?_set_self (by omega)]
      · obtain rfl := Option.some.inj hf
        subst h80
        refine ⟨entry80, ?_, hgate80⟩
        rw [List.getElem?_set_self (by rw [List.length_set]; omega)]
  · rw [stubOf] at hnone
    split_ifs at hnone with hisr hirq h30 h80
    rw [List.getElem?_set_ne (Ne.symm h80), List.getElem?_set_ne (Ne.symm h30),
      hkept v (by omega), List.getElem?_replicate, if_pos hv]

/-! ### Frames -/

/-- The words of a frame, in the order of its fields. -/
def InterruptFrame.words (f : InterruptFrame) : List (BitVec 64) :=
  [f.gsbase, f.fsbase, f.gs, f.fs, f.es, f.ds, f.r15, f.r14, f.r13, f.r12, f.r11, f.r10, f.r9,
    f.r8, f.rdi, f.rsi, f.rbp, f.rdx, f.rcx, f.rbx, f.rax, f.interruptNum, f.errorCode, f.rip,
    f.cs, f.rflags, f.rsp, f.ss]

/-- The number of words of a frame. -/
theorem InterruptFrame.words_length (f : InterruptFrame) : f.words.length = 28 := rfl

/-- The frame of an interrupt in the state `s`. -/
def interruptedFrame (v : ℕ) (code : Option (BitVec 64)) (s : Cpu) : InterruptFrame where
  gsbase := s.msr gsBase
  fsbase := s.msr fsBase
  gs := (s.seg .gs).setWidth 64
  fs := (s.seg .fs).setWidth 64
  es := (s.seg .es).setWidth 64
  ds := (s.seg .ds).setWidth 64
  r15 := s.gpr .r15
  r14 := s.gpr .r14
  r13 := s.gpr .r13
  r12 := s.gpr .r12
  r11 := s.gpr .r11
  r10 := s.gpr .r10
  r9 := s.gpr .r9
  r8 := s.gpr .r8
  rdi := s.gpr .rdi
  rsi := s.gpr .rsi
  rbp := s.gpr .rbp
  rdx := s.gpr .rdx
  rcx := s.gpr .rcx
  rbx := s.gpr .rbx
  rax := s.gpr .rax
  interruptNum := BitVec.ofNat 64 v
  errorCode := code.getD 0
  rip := s.rip
  cs := s.cs.setWidth 64
  rflags := s.rflags
  rsp := s.gpr .rsp
  ss := s.ss.setWidth 64

namespace Cpu

variable {p : Processor} {s t : Cpu} {out : InterruptFrame}

/-- The registers are those of a frame. -/
structure LoadedFrom (t : Cpu) (out : InterruptFrame) : Prop where
  gpr : ∀ r, t.gpr r = out.gpr r
  ds : t.seg .ds = out.ds.setWidth 16
  es : t.seg .es = out.es.setWidth 16
  fs : t.seg .fs = out.fs.setWidth 16
  gs : t.seg .gs = out.gs.setWidth 16
  cs : t.cs = out.cs.setWidth 16
  ss : t.ss = out.ss.setWidth 16
  fsbase : t.msr fsBase = out.fsbase
  gsbase : t.msr gsBase = out.gsbase
  rip : t.rip = out.rip
  rflags : t.rflags = out.rflags

/-- Two states agree in all registers that a frame has. -/
structure SameRegisters (t s : Cpu) : Prop where
  gpr : t.gpr = s.gpr
  seg : t.seg = s.seg
  cs : t.cs = s.cs
  ss : t.ss = s.ss
  fsbase : t.msr fsBase = s.msr fsBase
  gsbase : t.msr gsBase = s.msr gsBase
  rip : t.rip = s.rip
  rflags : t.rflags = s.rflags

/-- A selector fits into a word. -/
theorem setWidth_selector (x : BitVec 16) : (x.setWidth 64).setWidth 16 = x := by
  rw [BitVec.setWidth_setWidth_of_le x (by decide), BitVec.setWidth_eq]

/-- The frame of an interrupted state has its registers. -/
theorem LoadedFrom.same {v : ℕ} {code : Option (BitVec 64)}
    (h : t.LoadedFrom (interruptedFrame v code s)) : t.SameRegisters s where
  gpr := funext fun r => (h.gpr r).trans (by cases r <;> rfl)
  seg := by
    funext g
    cases g with
    | ds => exact h.ds.trans (setWidth_selector _)
    | es => exact h.es.trans (setWidth_selector _)
    | fs => exact h.fs.trans (setWidth_selector _)
    | gs => exact h.gs.trans (setWidth_selector _)
  cs := h.cs.trans (setWidth_selector _)
  ss := h.ss.trans (setWidth_selector _)
  fsbase := h.fsbase
  gsbase := h.gsbase
  rip := h.rip
  rflags := h.rflags

/-! ### Before the call -/

/-- The general registers in the order in which they are pushed. -/
def pushedGprs : List GeneralRegister :=
  [.rax, .rbx, .rcx, .rdx, .rbp, .rsi, .rdi, .r8, .r9, .r10, .r11, .r12, .r13, .r14, .r15]

/-- The code that pushes both bases. -/
def pushBases : List Instr :=
  .movImm32 .rcx 0xc0000100 :: pushMsr ++ (.addImm32 .rcx 1 :: pushMsr)

/-- The words that `pushBases` pushes. -/
theorem saves_pushBases :
    Saves s (exec p pushBases s) [s.msr gsBase, s.msr fsBase] := by
  have hmov : ∀ t : Cpu, Saves t (step p t (.movImm32 .rcx 0xc0000100)) [] ∧
      ((step p t (.movImm32 .rcx 0xc0000100)).gpr .rcx).setWidth 32 = fsBase := fun t =>
    ⟨.of_eq (by simp [step, set]) rfl rfl rfl rfl, by simp [step, set, fsBase]⟩
  have hadd : ∀ t : Cpu, Saves t (step p t (.addImm32 .rcx 1)) [] ∧
      ((step p t (.addImm32 .rcx 1)).gpr .rcx).setWidth 32 = (t.gpr .rcx).setWidth 32 + 1 :=
    fun t => ⟨.of_eq (by simp [step, set, setFlags]) rfl rfl rfl (setFlags_interrupts _),
      by simp [step, set, setFlags]⟩
  obtain ⟨hfirst, hrcx⟩ := hmov s
  obtain ⟨t, ht⟩ : ∃ t, step p s (.movImm32 .rcx 0xc0000100) = t := ⟨_, rfl⟩
  rw [ht] at hfirst hrcx
  have hfs := saves_pushMsr (p := p) (s := t)
  have hkept : (exec p pushMsr t).gpr .rcx = t.gpr .rcx := pushMsr_rcx
  obtain ⟨u, hu⟩ : ∃ u, exec p pushMsr t = u := ⟨_, rfl⟩
  rw [hu] at hfs hkept
  obtain ⟨hsecond, hrcx'⟩ := hadd u
  obtain ⟨w, hw⟩ : ∃ w, step p u (.addImm32 .rcx 1) = w := ⟨_, rfl⟩
  rw [hw] at hsecond hrcx'
  have hgs := saves_pushMsr (p := p) (s := w)
  have hnum : fsBase + 1 = gsBase := by decide
  have hend : exec p pushBases s = exec p pushMsr w := by
    rw [pushBases, exec_append, exec_cons, exec_cons, ht, hu, hw]
  rw [hrcx', hkept, hrcx, hnum, hsecond.msr, hfs.msr, hfirst.msr] at hgs
  rw [hrcx, hfirst.msr] at hfs
  rw [hend]
  exact ((hfirst.trans hfs).trans hsecond).trans hgs

/-- The part of `saveCode` that pushes. -/
def pushCode : List Instr :=
  pushedGprs.map .push ++ ([.ds, .es, .fs, .gs].flatMap pushSeg ++ pushBases)

/-- The part of `saveCode` that loads the kernel's selectors. -/
def loadCode (kernelDs : BitVec 16) : List Instr :=
  [.movImm16 .rax kernelDs, .movToSeg .ds .rax, .movToSeg .es .rax, .movToSeg .fs .rax,
    .movToSeg .gs .rax, .movImm64 .rbp 0, .mov .rdi .rsp]

/-- The entry code saves the registers, and then loads those of the kernel. -/
theorem saveCode_eq : saveCode kernelDs = pushCode ++ loadCode kernelDs := rfl

/-- The words that `pushCode` pushes. -/
theorem saves_pushCode : Saves s (exec p pushCode s)
    ([s.msr gsBase, s.msr fsBase, (s.seg .gs).setWidth 64, (s.seg .fs).setWidth 64,
      (s.seg .es).setWidth 64, (s.seg .ds).setWidth 64] ++ (pushedGprs.map s.gpr).reverse) := by
  have hgprs : Saves s (exec p (pushedGprs.map .push) s) (pushedGprs.map s.gpr).reverse :=
    saves_pushes (by decide)
  obtain ⟨t, ht⟩ : ∃ t, exec p (pushedGprs.map .push) s = t := ⟨_, rfl⟩
  rw [ht] at hgprs
  have hsegs := saves_pushSegs (p := p) (s := t) [.ds, .es, .fs, .gs]
  obtain ⟨u, hu⟩ : ∃ u, exec p ([.ds, .es, .fs, .gs].flatMap pushSeg) t = u := ⟨_, rfl⟩
  rw [hu] at hsegs
  have hbases := saves_pushBases (p := p) (s := u)
  have hall := (hgprs.trans hsegs).trans hbases
  have hend : exec p pushCode s = exec p pushBases u := by
    rw [pushCode, exec_append, exec_append, ht, hu]
  rw [hsegs.msr, hgprs.msr, hgprs.seg] at hall
  rw [hend]
  exact hall

/-- The flags that the processor clears when it delivers an interrupt: those for single steps,
nested tasks, resuming and virtual 8086 mode, and for an interrupt gate the interrupt flag. -/
def clearedFlags (g : Gate) : BitVec 64 := if g.type = 0x0e then 0x34300 else 0x34100

/-- The stack on which an interrupt begins. The handlers run with privilege level 0. -/
def interruptStack (p : Processor) (g : Gate) (s : Cpu) : BitVec 64 :=
  (if g.ist ≠ 0 then p.ist g.ist
    else if s.cs.setWidth 2 ≠ 0#2 then p.rsp0
    else s.gpr .rsp) &&& ~~~0xf

/-- What the processor pushes, with an error code if there is one. -/
def pushInterrupted (p : Processor) (g : Gate) (code : Option (BitVec 64)) (s : Cpu) : Cpu :=
  let t := ((((((s.set .rsp (interruptStack p g s)).push (s.ss.setWidth 64)).push
    (s.gpr .rsp)).push s.rflags).push (s.cs.setWidth 64)).push s.rip)
  code.elim t t.push

/-- The processor delivers an interrupt through a gate. -/
def deliver (p : Processor) (g : Gate) (code : Option (BitVec 64)) (s : Cpu) : Cpu :=
  { pushInterrupted p g code s with
    rip := g.handler
    cs := g.segment
    ss := if s.cs.setWidth 2 ≠ 0#2 then 0 else s.ss
    rflags := writeMasked s.rflags (clearedFlags g) 0 }

/-- What is on the stack when the entry code begins. -/
theorem onStack_deliver (g : Gate) (code : Option (BitVec 64)) :
    (deliver p g code s).OnStack (code.toList ++
      [s.rip, s.cs.setWidth 64, s.rflags, s.gpr .rsp, s.ss.setWidth 64]) := by
  have hframe := ((((saves_push (s := s.set .rsp (interruptStack p g s)) (s.ss.setWidth 64)).trans
    (saves_push (s.gpr .rsp))).trans (saves_push s.rflags)).trans
    (saves_push (s.cs.setWidth 64))).trans (saves_push s.rip)
  cases code with
  | none => exact hframe.stack [] (by simp) trivial
  | some w => exact (hframe.trans (saves_push w)).stack [] (by simp) trivial

/-- The other registers when the entry code begins. -/
theorem deliver_gpr (g : Gate) (code : Option (BitVec 64)) {r : GeneralRegister} (hr : r ≠ .rsp) :
    (deliver p g code s).gpr r = s.gpr r := by
  cases code <;> simp [deliver, pushInterrupted, push, set, hr]

/-- Delivering an interrupt loads no data segment. -/
theorem deliver_seg (g : Gate) (code : Option (BitVec 64)) :
    (deliver p g code s).seg = s.seg := by
  cases code <;> rfl

/-- Delivering an interrupt writes no model specific register. -/
theorem deliver_msr (g : Gate) (code : Option (BitVec 64)) :
    (deliver p g code s).msr = s.msr := by
  cases code <;> rfl

/-- The interrupts for which the processor pushes an error code. -/
def pushesErrorCode (v : ℕ) : Bool := v ∈ [8, 10, 11, 12, 13, 14, 17, 21, 29, 30]

/-- The entry code fits what the processor pushes. -/
theorem stubOf_eq {v : ℕ} {f : Stub} (h : stubOf v = some f) (hv : v ≠ 21 ∧ v ≠ 29) :
    f = if pushesErrorCode v then .withCode v else .withoutCode v := by
  have hsmall : pushesErrorCode v = true → v < 32 := by
    simp only [pushesErrorCode, List.mem_cons, List.not_mem_nil, or_false, decide_eq_true_eq]
    omega
  by_cases hisr : v < 32
  · rw [stubOf, if_pos hisr, Option.some.injEq] at h
    have hcode : pushesErrorCode v = decide (v ∈ [8, 10, 11, 12, 13, 14, 17, 30]) := by
      rw [pushesErrorCode, decide_eq_decide]
      simp only [List.mem_cons, List.not_mem_nil, or_false]
      omega
    rw [← h, beginIsr, hcode]
    simp only [decide_eq_true_eq]
  · rw [if_neg fun hcode => hisr (hsmall hcode)]
    rw [stubOf, if_neg hisr] at h
    split_ifs at h with hirq h30 h80
    · rw [← Option.some.inj h, beginIrq, Nat.add_sub_cancel' (Nat.not_lt.mp hisr)]
    · rw [← Option.some.inj h, beginInt30, h30]
    · rw [← Option.some.inj h, beginInt80, h80]

/-- The entry code of an interrupt pushes the number, and the error code if the processor did
not. -/
theorem onStack_stub {v : ℕ} {f : Stub} (h : stubOf v = some f) (hv : v ≠ 21 ∧ v ≠ 29)
    {code : Option (BitVec 64)} (hcode : code.isSome = pushesErrorCode v)
    {ws : List (BitVec 64)} (hlen : ws.length < 2 ^ 20) (hstack : s.OnStack (code.toList ++ ws)) :
    (exec p f.code s).OnStack (BitVec.ofNat 64 v :: code.getD 0 :: ws) := by
  rw [stubOf_eq h hv, ← hcode]
  cases code with
  | none =>
      refine ((saves_push 0).trans (saves_push (BitVec.ofNat 64 v))).stack _ ?_ hstack
      simp only [List.length_append, List.length_singleton]
      omega
  | some w =>
      refine (saves_push (BitVec.ofNat 64 v)).stack _ ?_ hstack
      simp only [List.length_nil, List.length_cons]
      omega

/-- The entry code of an interrupt leaves the other registers alone. -/
theorem stub_gpr {f : Stub} {r : GeneralRegister} (hr : r ≠ .rsp) :
    (exec p f.code s).gpr r = s.gpr r := by
  cases f with
  | withCode n => exact push_gpr_of_ne hr _
  | withoutCode n => exact (push_gpr_of_ne hr _).trans (push_gpr_of_ne hr _)

/-- A stub loads no segment. -/
theorem stub_seg {f : Stub} : (exec p f.code s).seg = s.seg := by cases f <;> rfl

/-- A stub writes no model specific register. -/
theorem stub_msr {f : Stub} : (exec p f.code s).msr = s.msr := by cases f <;> rfl

/-- A stub keeps the flags. -/
theorem stub_rflags {f : Stub} : (exec p f.code s).rflags = s.rflags := by cases f <;> rfl

/-- Loading the kernel's selectors leaves the stack alone, and its address is passed on. -/
theorem onStack_loadCode {ws : List (BitVec 64)} (h : s.OnStack ws) :
    (exec p (loadCode kernelDs) s).OnStack ws ∧
      (exec p (loadCode kernelDs) s).gpr .rdi = (exec p (loadCode kernelDs) s).gpr .rsp ∧
      (exec p (loadCode kernelDs) s).rflags = s.rflags := by
  have hsp : (exec p (loadCode kernelDs) s).gpr .rsp = s.gpr .rsp := by
    simp [loadCode, exec, step, set, loadSeg]
  refine ⟨?_, ?_, rfl⟩
  · rw [OnStack, hsp]
    exact h
  · simp [loadCode, exec, step, set, loadSeg]

/-! ### After the call -/

/-- The code that pops a segment register through a general one. -/
def popSeg (r : GeneralRegister) (g : SegmentRegister) : List Instr := [.pop r, .movToSeg g r]

/-- A pop of a segment register. -/
theorem onStack_popSeg {r : GeneralRegister} (hr : r ≠ .rsp) (g : SegmentRegister)
    {w : BitVec 64} {ws : List (BitVec 64)} (h : s.OnStack (w :: ws)) :
    (exec p (popSeg r g) s).OnStack ws ∧ (exec p (popSeg r g) s).seg g = w.setWidth 16 ∧
      (∀ g', g' ≠ g → (exec p (popSeg r g) s).seg g' = s.seg g') ∧
      (∀ r', r' ≠ r → r' ≠ .rsp → (exec p (popSeg r g) s).gpr r' = s.gpr r') ∧
      (g = .ds ∨ g = .es → (exec p (popSeg r g) s).msr = s.msr) := by
  obtain ⟨hstack, hw⟩ := onStack_pop hr h
  have hend : exec p (popSeg r g) s = (s.pop r).loadSeg p g (w.setWidth 16) := by
    rw [← hw]
    rfl
  rw [hend]
  refine ⟨?_, ?_, fun g' hg' => ?_, fun r' hr' hsp => ?_, fun hg => ?_⟩
  · cases g <;> exact hstack
  · cases g <;> simp [loadSeg]
  · cases g <;> simp [loadSeg, pop, set, hg']
  · cases g <;> exact pop_gpr_of_ne hr' hsp
  · rcases hg with rfl | rfl <;> rfl

/-- The code that writes both bases. -/
def writeBases : List Instr :=
  [.mov .rdx .rax, .shr .rdx 32, .movImm32 .rcx 0xc0000101, .wrmsr,
    .mov .rdx .rbx, .mov .rax .rbx, .shr .rdx 32, .subImm32 .rcx 1, .wrmsr]

/-- What `writeBases` writes. -/
theorem writeBases_spec {ws : List (BitVec 64)} (h : s.OnStack ws) :
    (exec p writeBases s).OnStack ws ∧ (exec p writeBases s).seg = s.seg ∧
      (exec p writeBases s).msr gsBase = s.gpr .rax ∧
      (exec p writeBases s).msr fsBase = s.gpr .rbx := by
  have hsp : (exec p writeBases s).gpr .rsp = s.gpr .rsp := by
    simp [writeBases, exec, step, set, setFlags]
  refine ⟨?_, rfl, ?_, ?_⟩
  · rw [OnStack, hsp]
    exact h
  · simp [writeBases, exec, step, set, setFlags, gsBase, append_halves]
  · simp [writeBases, exec, step, set, setFlags, fsBase, append_halves]

/-- The general registers in the order in which they are popped. -/
def poppedGprs : List GeneralRegister :=
  [.r15, .r14, .r13, .r12, .r11, .r10, .r9, .r8, .rdi, .rsi, .rbp, .rdx, .rcx, .rbx, .rax]

/-- Returning from the interrupt. -/
def returnCode : List Instr := [.addImm64 .rsp 16, .iretq]

/-- What returning loads. -/
theorem returnCode_spec
    (h : s.OnStack
      [out.interruptNum, out.errorCode, out.rip, out.cs, out.rflags, out.rsp, out.ss]) :
    (exec p returnCode s).gpr .rsp = out.rsp ∧
      (∀ r, r ≠ .rsp → (exec p returnCode s).gpr r = s.gpr r) ∧
      (exec p returnCode s).seg = s.seg ∧ (exec p returnCode s).msr = s.msr ∧
      (exec p returnCode s).rip = out.rip ∧ (exec p returnCode s).cs = out.cs.setWidth 16 ∧
      (exec p returnCode s).rflags = out.rflags ∧
      (exec p returnCode s).ss = out.ss.setWidth 16 := by
  obtain ⟨-, -, hrip, hcs, hrflags, hrsp, hss, -⟩ := h
  simp only [BitVec.add_assoc] at hrip hcs hrflags hrsp hss
  refine ⟨?_, fun r hr => ?_, rfl, rfl, ?_, ?_, ?_, ?_⟩
  · simpa [returnCode, exec, step, set, setFlags, BitVec.add_assoc] using hrsp
  · simp [returnCode, exec, step, set, setFlags, hr]
  · simpa [returnCode, exec, step, set, setFlags, BitVec.add_assoc] using hrip
  · simpa [returnCode, exec, step, set, setFlags, BitVec.add_assoc] using congrArg _ hcs
  · simpa [returnCode, exec, step, set, setFlags, BitVec.add_assoc] using hrflags
  · simpa [returnCode, exec, step, set, setFlags, BitVec.add_assoc] using congrArg _ hss

/-- The parts of the exit code. -/
theorem restoreCode_eq : restoreCode = .pop .rax :: .pop .rbx :: (popSeg .rdx .gs ++
    (popSeg .rdx .fs ++ (writeBases ++ (popSeg .rax .es ++ (popSeg .rax .ds ++
      (poppedGprs.map .pop ++ returnCode)))))) := rfl

/-- **After the call**, the registers are loaded from the frame that is on the stack. -/
theorem loadedFrom_of_restoreCode (h : t.OnStack out.words) :
    (exec p restoreCode t).LoadedFrom out := by
  -- The bases are popped first, but written after the selectors that change them.
  obtain ⟨h₁, hgsbase⟩ := onStack_pop (r := .rax) (by decide) h
  obtain ⟨s₁, hs₁⟩ : ∃ s₁, t.pop .rax = s₁ := ⟨_, rfl⟩
  rw [hs₁] at h₁ hgsbase
  obtain ⟨h₂, hfsbase⟩ := onStack_pop (r := .rbx) (by decide) h₁
  have hgsbase₂ : (s₁.pop .rbx).gpr .rax = s₁.gpr .rax :=
    pop_gpr_of_ne (by decide) (by decide)
  obtain ⟨s₂, hs₂⟩ : ∃ s₂, s₁.pop .rbx = s₂ := ⟨_, rfl⟩
  rw [hs₂] at h₂ hfsbase hgsbase₂
  obtain ⟨h₃, hgs, -, hkept₃, -⟩ := onStack_popSeg (p := p) (r := .rdx) (by decide) .gs h₂
  obtain ⟨s₃, hs₃⟩ : ∃ s₃, exec p (popSeg .rdx .gs) s₂ = s₃ := ⟨_, rfl⟩
  rw [hs₃] at h₃ hgs hkept₃
  obtain ⟨h₄, hfs, hseg₄, hkept₄, -⟩ := onStack_popSeg (p := p) (r := .rdx) (by decide) .fs h₃
  obtain ⟨s₄, hs₄⟩ : ∃ s₄, exec p (popSeg .rdx .fs) s₃ = s₄ := ⟨_, rfl⟩
  rw [hs₄] at h₄ hfs hseg₄ hkept₄
  obtain ⟨h₅, hseg₅, hgsw, hfsw⟩ := writeBases_spec (p := p) h₄
  obtain ⟨s₅, hs₅⟩ : ∃ s₅, exec p writeBases s₄ = s₅ := ⟨_, rfl⟩
  rw [hs₅] at h₅ hseg₅ hgsw hfsw
  obtain ⟨h₆, hes, hseg₆, -, hmsr₆⟩ := onStack_popSeg (p := p) (r := .rax) (by decide) .es h₅
  obtain ⟨s₆, hs₆⟩ : ∃ s₆, exec p (popSeg .rax .es) s₅ = s₆ := ⟨_, rfl⟩
  rw [hs₆] at h₆ hes hseg₆ hmsr₆
  obtain ⟨h₇, hds, hseg₇, -, hmsr₇⟩ := onStack_popSeg (p := p) (r := .rax) (by decide) .ds h₆
  obtain ⟨s₇, hs₇⟩ : ∃ s₇, exec p (popSeg .rax .ds) s₆ = s₇ := ⟨_, rfl⟩
  rw [hs₇] at h₇ hds hseg₇ hmsr₇
  obtain ⟨h₈, hgpr, -, hseg₈, hmsr₈⟩ :=
    @onStack_pops p s₇ poppedGprs (by decide) out.gpr _ h₇
  obtain ⟨s₈, hs₈⟩ : ∃ s₈, exec p (poppedGprs.map .pop) s₇ = s₈ := ⟨_, rfl⟩
  rw [hs₈] at h₈ hgpr hseg₈ hmsr₈
  obtain ⟨hrsp, hother, hseg₉, hmsr₉, hrip, hcs, hrflags, hss⟩ := returnCode_spec (p := p) h₈
  have hend : exec p restoreCode t = exec p returnCode s₈ := by
    rw [restoreCode_eq, exec_cons, step_pop, hs₁, exec_cons, step_pop, hs₂, exec_append, hs₃,
      exec_append, hs₄, exec_append, hs₅, exec_append, hs₆, exec_append, hs₇, exec_append, hs₈]
  have hmsr : (exec p returnCode s₈).msr = s₅.msr := by
    rw [hmsr₉, hmsr₈, hmsr₇ (Or.inl rfl), hmsr₆ (Or.inr rfl)]
  have hseg : (exec p returnCode s₈).seg = s₇.seg := hseg₉.trans hseg₈
  rw [hend]
  constructor
  case gpr =>
    intro r
    by_cases hr : r = .rsp
    · subst hr
      exact hrsp
    · have hmem : r ∈ poppedGprs := by
        cases r <;> first | exact absurd rfl hr | decide
      exact (hother r hr).trans (hgpr r hmem)
  case ds => rw [hseg, hds]
  case es => rw [hseg, hseg₇ _ (by decide), hes]
  case fs => rw [hseg, hseg₇ _ (by decide), hseg₆ _ (by decide), hseg₅, hfs]
  case gs => rw [hseg, hseg₇ _ (by decide), hseg₆ _ (by decide), hseg₅, hseg₄ _ (by decide), hgs]
  case cs => exact hcs
  case ss => exact hss
  case fsbase =>
    rw [hmsr, hfsw, hkept₄ _ (by decide) (by decide), hkept₃ _ (by decide) (by decide), hfsbase]
  case gsbase =>
    rw [hmsr, hgsw, hkept₄ _ (by decide) (by decide), hkept₃ _ (by decide) (by decide), hgsbase₂,
      hgsbase]
  case rip => exact hrip
  case rflags => exact hrflags

end Cpu

open Cpu

/-- The functions of the entry code in memory. -/
structure Image where
  addr : Stub → BitVec 64
  stubAt : BitVec 64 → Option Stub
  stubAt_addr : ∀ v f, stubOf v = some f → stubAt (addr f) = some f

/-- An interrupt up to the call of `handle_interrupt`, if its gate is present. -/
def enter (p : Processor) (img : Image) (kernelDs : BitVec 16) (idt : List InterruptTableEntry)
    (v : ℕ) (code : Option (BitVec 64)) (s : Cpu) : Option Cpu := do
  let entry ← idt[v]?
  if entry.readGate.present then
    let stub ← img.stubAt entry.readGate.handler
    return exec p (stub.code ++ saveCode kernelDs) (deliver p entry.readGate code s)
  else
    none

/-- What holds when `handle_interrupt` is called in the state `u`: its argument is the address of
the frame of the interrupted state `s`, and interrupts are disabled in a handler of an exception or
of a device. When it returns with the stack pointer it was called with, leaving the interrupt loads
the registers of whatever frame it left, so that a frame which is left alone continues the
interrupted code. -/
structure Enters (p : Processor) (v : ℕ) (code : Option (BitVec 64)) (s u : Cpu) : Prop where
  frame : WordsAt 8 u.mem (u.gpr .rdi) (interruptedFrame v code s).words
  disabled : v < 0x30 → u.rflags.getLsbD 9 = false
  leaves : ∀ t out, t.gpr .rsp = u.gpr .rsp → WordsAt 8 t.mem (u.gpr .rdi) out.words →
    (exec p restoreCode t).LoadedFrom out
  continues : ∀ t, t.gpr .rsp = u.gpr .rsp →
    WordsAt 8 t.mem (u.gpr .rdi) (interruptedFrame v code s).words →
    (exec p restoreCode t).SameRegisters s

variable {p : Processor} {s : Cpu} {v : ℕ} {f : Stub} {code : Option (BitVec 64)}

/-- Delivering an interrupt through an interrupt gate disables interrupts. -/
theorem deliver_interrupts {g : Gate} (hg : g.type = 0x0e) :
    (deliver p g code s).rflags.getLsbD 9 = false := by
  have hmask : (0x34300 : BitVec 64).getLsbD 9 = true := by decide
  rw [deliver, getLsbD_writeMasked, clearedFlags, if_pos hg, hmask]
  simp

/-- The code from the delivery of an interrupt to the call. -/
theorem enters_of_stub (hf : stubOf v = some f) (hv : v ≠ 21 ∧ v ≠ 29)
    (hcode : code.isSome = pushesErrorCode v) {g : Gate} (hg : v < 0x30 → g.type = 0x0e) :
    Enters p v code s (exec p (f.code ++ saveCode kernelDs) (deliver p g code s)) := by
  have hdeliver := onStack_stub (p := p) hf hv hcode (by simp)
    (onStack_deliver (p := p) (s := s) g code)
  have hgpr : ∀ r, r ≠ .rsp → (exec p f.code (deliver p g code s)).gpr r = s.gpr r :=
    fun r hr => (stub_gpr hr).trans (deliver_gpr g code hr)
  have hseg := (stub_seg (p := p) (f := f)).trans (deliver_seg (p := p) (s := s) g code)
  have hmsr := (stub_msr (p := p) (f := f)).trans (deliver_msr (p := p) (s := s) g code)
  have hrflags := stub_rflags (p := p) (f := f) (s := deliver p g code s)
  obtain ⟨t, ht⟩ : ∃ t, exec p f.code (deliver p g code s) = t := ⟨_, rfl⟩
  rw [ht] at hdeliver hgpr hseg hmsr hrflags
  have hpush := saves_pushCode (p := p) (s := t)
  have hregs : pushedGprs.map t.gpr = pushedGprs.map s.gpr :=
    List.map_congr_left fun r hr => hgpr r (ne_of_mem_of_not_mem hr (by decide))
  rw [hregs, hseg, hmsr] at hpush
  have hwords := hpush.stack _ (by simp [pushedGprs]) hdeliver
  obtain ⟨hframe, hrdi, hkept⟩ := @onStack_loadCode kernelDs p _ _ hwords
  have hend : exec p (f.code ++ saveCode kernelDs) (deliver p g code s) =
      exec p (loadCode kernelDs) (exec p pushCode t) := by
    rw [exec_append, saveCode_eq, exec_append, ht]
  obtain ⟨u, hu⟩ : ∃ u, exec p (loadCode kernelDs) (exec p pushCode t) = u := ⟨_, rfl⟩
  rw [hu] at hframe hrdi hkept hend
  rw [hend]
  constructor
  case frame =>
    rw [hrdi]
    exact hframe
  case disabled =>
    intro hv'
    rw [hkept, hpush.interrupts, hrflags]
    exact deliver_interrupts (hg hv')
  case leaves =>
    intro w out hsp hout
    rw [hrdi, ← hsp] at hout
    exact loadedFrom_of_restoreCode hout
  case continues =>
    intro w hsp hout
    rw [hrdi, ← hsp] at hout
    exact (loadedFrom_of_restoreCode hout).same

/-- An interrupt that has entry code calls `handle_interrupt`. -/
theorem enter_spec {img : Image} {idt : List InterruptTableEntry}
    (hidt : initBsp kernelCs img.addr = .ok idt) (hf : stubOf v = some f) (hv : v ≠ 21 ∧ v ≠ 29)
    (hcode : code.isSome = pushesErrorCode v) (s : Cpu) :
    ∃ u, enter p img kernelDs idt v code s = some u ∧ Enters p v code s u := by
  obtain ⟨idt', hidt', -, hgates, -⟩ := @initBsp_spec kernelCs img.addr
  obtain rfl := Except.ok.inj (hidt.symm.trans hidt')
  obtain ⟨e, he, hgate⟩ := hgates v f hf
  refine ⟨exec p (f.code ++ saveCode kernelDs) (deliver p e.readGate code s), ?_,
    enters_of_stub hf hv hcode fun hv' => ?_⟩
  · have hpresent : e.readGate.present = true := by rw [hgate]; rfl
    have hstub : img.stubAt e.readGate.handler = some f := by
      rw [hgate]
      exact img.stubAt_addr v f hf
    simp only [enter, he, Option.bind_eq_bind, Option.bind_some, hpresent, if_true, hstub]
    rfl
  · rw [hgate, gateOf, if_pos hv']
    rfl

/-- Any other interrupt has no gate. -/
theorem enter_eq_none {img : Image} {idt : List InterruptTableEntry}
    (hidt : initBsp kernelCs img.addr = .ok idt) (hf : stubOf v = none) (s : Cpu) :
    enter p img kernelDs idt v code s = none := by
  obtain ⟨idt', hidt', hlen, -, hempty⟩ := @initBsp_spec kernelCs img.addr
  obtain rfl := Except.ok.inj (hidt.symm.trans hidt')
  rcases Nat.lt_or_ge v 256 with hv | hv
  · have habsent : InterruptTableEntry.empty.readGate.present = false := rfl
    simp only [enter, hempty v hv hf, Option.bind_eq_bind, Option.bind_some, habsent]
    rfl
  · have hnone : idt[v]? = none := List.getElem?_eq_none (hlen ▸ hv)
    rw [enter, hnone]
    rfl

/-- **Interrupts save and load all registers.** `init_bsp` does not panic. Whatever the processor
does at an interrupt that has entry code, from whatever state, the entry code calls
`handle_interrupt` with the frame of the interrupted state, and afterwards the registers are those
of the frame that it leaves. Other interrupts have no gate. -/
theorem interrupt_entry_exit (p : Processor) (img : Image) (kernelCs kernelDs : BitVec 16) :
    ∃ idt, initBsp kernelCs img.addr = .ok idt ∧
      (∀ v f code s, stubOf v = some f → v ≠ 21 ∧ v ≠ 29 → code.isSome = pushesErrorCode v →
        ∃ u, enter p img kernelDs idt v code s = some u ∧ Enters p v code s u) ∧
      ∀ v code s, stubOf v = none → enter p img kernelDs idt v code s = none := by
  obtain ⟨idt, hidt, -⟩ := @initBsp_spec kernelCs img.addr
  exact ⟨idt, hidt, fun v f code s hf hv hcode => enter_spec hidt hf hv hcode s,
    fun v code s hf => enter_eq_none hidt hf s⟩

/-- Entry code at small addresses. -/
def smallImage : Image where
  addr
    | .withCode n => BitVec.ofNat 64 (2 * n)
    | .withoutCode n => BitVec.ofNat 64 (2 * n + 1)
  stubAt a := if a.toNat % 2 = 0 then some (.withCode (a.toNat / 2))
    else some (.withoutCode (a.toNat / 2))
  stubAt_addr := by
    intro v f hf
    have hnum : ∀ n, n < 2 ^ 32 → (2 * n) % 2 ^ 64 = 2 * n ∧ (2 * n + 1) % 2 ^ 64 = 2 * n + 1 ∧
        (2 * n + 1) % 2 = 1 ∧ (2 * n + 1) / 2 = n := by omega
    have hsmall : f = .withCode v ∨ f = .withoutCode v := by
      rw [stubOf] at hf
      split_ifs at hf with hisr hirq h30 h80
      · obtain rfl := Option.some.inj hf
        rw [beginIsr]
        split_ifs
        · exact Or.inl rfl
        · exact Or.inr rfl
      · obtain rfl := Option.some.inj hf
        rw [beginIrq, Nat.add_sub_cancel' (Nat.not_lt.mp hisr)]
        exact Or.inr rfl
      · exact Or.inr (h30 ▸ (Option.some.inj hf).symm)
      · exact Or.inr (h80 ▸ (Option.some.inj hf).symm)
    have hv : v < 2 ^ 32 := by
      rw [stubOf] at hf
      split_ifs at hf <;> omega
    obtain ⟨heven, hodd, hmod, hdiv⟩ := hnum v hv
    rcases hsmall with rfl | rfl
    · simp only [BitVec.toNat_ofNat, heven, Nat.mul_mod_right, if_true]
      rw [Nat.mul_div_cancel_left v (by decide)]
    · simp only [BitVec.toNat_ofNat, hodd, hmod, hdiv]
      rfl

/-- A processor that leaves flags and bases alone. -/
def plainProcessor : Processor := ⟨fun _ base => base, fun _ s => s.rflags, 4096, fun _ => 8192⟩

/-- User code with the stack pointer `0x5008`. -/
def userState : Cpu :=
  { gpr := fun r => if r = .rsp then 0x5008 else 7
    seg := fun _ => 0x23
    cs := 0x1b
    ss := 0x23
    msr := fun _ => 5
    rip := 0x400000
    rflags := 0x202
    mem := fun _ => 0 }

/-- A page fault of user code. -/
theorem interrupt_entry_exit_fault : ∃ idt u, initBsp 0x08 smallImage.addr = .ok idt ∧
    enter plainProcessor smallImage 0x10 idt 14 (some 6) userState = some u ∧
    Enters plainProcessor 14 (some 6) userState u := by
  obtain ⟨idt, hidt, hgates, -⟩ := interrupt_entry_exit plainProcessor smallImage 0x08 0x10
  obtain ⟨u, hu, henters⟩ := hgates 14 (.withCode 14) (some 6) userState rfl (by decide) rfl
  exact ⟨idt, u, hidt, hu, henters⟩

end HydroxKernel.Arch
