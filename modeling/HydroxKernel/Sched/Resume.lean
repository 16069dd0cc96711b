import HydroxKernel.Arch.InterruptEntry
import HydroxKernel.Sched.Switch

/-!
# Threads Resume With Their Registers

The scheduler works on frames. The entry code of an interrupt makes a frame of the registers, and
the exit code loads the registers from the frame that the scheduler leaves. Put together, a thread
that leaves the core with some registers gets them back when the core returns to it, whatever other
threads and interrupts do with the registers in between.

The registers are only recorded where a thread leaves the core and where the core returns from an
interrupt; the code that runs elsewhere changes them in any way.

## Main results

* `frame_of_enters`: the frames that reach the scheduler are those of the interrupted registers.
* `threads_resume`: every thread resumes with the registers with which it left.
-/

namespace HydroxKernel.Sched

open Arch Arch.Cpu

/-- The processor, the kernel's image in memory, and the interrupt table that `init_bsp` built. -/
structure Platform where
  processor : Processor
  image : Image
  kernelCs : BitVec 16
  kernelDs : BitVec 16
  config : Config
  idt : List InterruptTableEntry
  idt_eq : initBsp kernelCs image.addr = .ok idt

variable {pl : Platform}

/-- An interrupt in the state `m` calls `handle_interrupt` with a frame. -/
def Platform.Enters (pl : Platform) (v : ℕ) (code : Option (BitVec 64)) (m : Cpu)
    (frame : InterruptFrame) : Prop :=
  v ≠ 21 ∧ v ≠ 29 ∧ code.isSome = pushesErrorCode v ∧
    ∃ u, enter pl.processor pl.image pl.kernelDs pl.idt v code m = some u ∧
      WordsAt 8 u.mem (u.gpr .rdi) frame.words

/-- The frame of an operation comes from the registers `m`: those at the `int 0x30` of a thread that
suspends itself, and those that any other interrupt interrupts. -/
def Op.EntersFrom (pl : Platform) (m : Cpu) : Op → Prop
  | .wait _ _ i => pl.Enters 0x30 none m i.frame
  | .yieldCurrent _ i => pl.Enters 0x30 none m i.frame
  | .killCurrent _ i => pl.Enters 0x30 none m i.frame
  | .interrupt _ frame _ => ∃ v code, pl.Enters v code m frame
  | _ => True

/-- A step of the scheduler on a processor, with the registers at this step. -/
def CoreStep (pl : Platform) (s : State) (a : Op × Cpu) (s' : State) : Prop :=
  Step pl.config s a.1 s' ∧ a.1.EntersFrom pl a.2

/-- How a thread last left the core, and with which registers. -/
def lastRegisters (t : ℕ) (ops : List (Op × Cpu)) : Option (Departure × Cpu) :=
  (ops.filterMap fun a => (a.1.departure t).map fun d => (d, a.2)).getLast?

/-- A thread that suspended itself with the registers `m` continues with the registers `r`: they
are the same, but that interrupts are enabled if they were before the suspension disabled them, and
that kernel threads have the kernel's `fs`. -/
structure ResumesWith (c : Config) (i : Suspension) (process : ℕ) (m r : Cpu) : Prop where
  gpr : r.gpr = m.gpr
  seg : r.seg = m.seg
  cs : r.cs = m.cs
  ss : r.ss = m.ss
  rip : r.rip = m.rip
  gsbase : r.msr gsBase = m.msr gsBase
  fsbase : process = 0 → r.msr fsBase = c.kernelFsBase
  if_flag : r.rflags.getLsbD 9 = (m.rflags.getLsbD 9 || i.wasEnabled)
  other_flags : ∀ k, k ≠ 9 → r.rflags.getLsbD k = m.rflags.getLsbD k

/-- A thread that left the core with the registers `m` continues with the registers `r`, and with
the extended registers that it had. -/
def Departure.Resumes (c : Config) (process : ℕ) (m r : Cpu) (ext : List UInt8) :
    Departure → Prop
  | .suspended i => ResumesWith c i process m r ∧ ext = i.ext
  | .interrupted _ e => r.SameRegisters m ∧ ext = e

/-! ### Frames from registers -/

/-- The words in memory are those of one frame only. -/
theorem frame_of_wordsAt {mem : BitVec 64 → BitVec 64} {a : BitVec 64} {f g : InterruptFrame}
    (hf : WordsAt 8 mem a f.words) (hg : WordsAt 8 mem a g.words) : f = g := by
  simp only [InterruptFrame.words, wordsAt_cons] at hf hg
  cases f
  cases g
  simp_all only

/-- **Frames come from registers.** The frame with which an interrupt reaches the scheduler is that
of the registers it interrupted. -/
theorem frame_of_enters {v : ℕ} {code : Option (BitVec 64)} {m : Cpu} {frame : InterruptFrame}
    (h : pl.Enters v code m frame) : frame = interruptedFrame v code m := by
  obtain ⟨hv, hv', hcode, u, hu, hframe⟩ := h
  cases hf : stubOf v with
  | none => exact absurd (hu.symm.trans (enter_eq_none pl.idt_eq hf m)) (by simp)
  | some f =>
      have hspec : ∃ u', enter pl.processor pl.image pl.kernelDs pl.idt v code m = some u' ∧
          Arch.Enters pl.processor v code m u' := enter_spec pl.idt_eq hf ⟨hv, hv'⟩ hcode m
      obtain ⟨u', hu', henters⟩ := hspec
      obtain rfl := Option.some.inj (hu.symm.trans hu')
      exact frame_of_wordsAt hframe henters.frame

/-! ### Resuming -/

variable {c : Config} {s s' : State} {t : ℕ} {m r : Cpu} {ops : List (Op × Cpu)}

/-- A run on a processor is a run of the scheduler. -/
theorem runs_of_coreRuns {s₀ : State} (h : Runs (CoreStep pl) s₀ ops s) :
    Runs (Step pl.config) s₀ (ops.map Prod.fst) s := by
  induction h with
  | refl => exact .refl
  | snoc _ hlast ih =>
      rw [List.map_append]
      exact ih.snoc hlast.1

/-- A run of the scheduler is one on a processor, if the frames come from its registers. -/
theorem coreRuns_of_runs {s₀ : State} (henters : ∀ a ∈ ops, a.1.EntersFrom pl a.2)
    (h : Runs (Step pl.config) s₀ (ops.map Prod.fst) s) : Runs (CoreStep pl) s₀ ops s := by
  induction ops generalizing s₀ with
  | nil =>
      rw [Runs.nil_iff.mp h]
      exact .refl
  | cons a ops ih =>
      obtain ⟨s₁, hfirst, hrest⟩ := Runs.cons_iff.mp h
      obtain ⟨ha, hops⟩ := List.forall_mem_cons.mp henters
      exact .cons ⟨hfirst, ha⟩ (ih hops hrest)

/-- How a thread last left, without the registers. -/
theorem lastDeparture_of_lastRegisters {d : Departure}
    (h : lastRegisters t ops = some (d, m)) : lastDeparture t (ops.map Prod.fst) = some d := by
  have hlast : lastDeparture t (ops.map Prod.fst) = (lastRegisters t ops).map Prod.fst := by
    rw [lastDeparture, lastRegisters, ← List.getLast?_map, List.filterMap_map, List.map_filterMap]
    congr 2
    funext a
    rw [Option.map_map]
    exact Option.map_id'.symm
  rw [hlast, h]
  rfl

/-- The frame with which a thread left is that of its registers. -/
def Departure.From (m : Cpu) : Departure → Prop
  | .suspended i => i.frame = interruptedFrame 0x30 none m
  | .interrupted frame _ => ∃ v code, frame = interruptedFrame v code m

/-- Departures leave with the registers of the thread. -/
theorem from_of_departure {op : Op} {d : Departure} (hop : op.EntersFrom pl m)
    (hd : op.departure t = some d) : d.From m := by
  cases op with
  | wait x l i =>
      simp only [Op.departure] at hd
      split_ifs at hd
      obtain rfl := Option.some.inj hd
      exact frame_of_enters hop
  | yieldCurrent x i =>
      simp only [Op.departure] at hd
      split_ifs at hd
      obtain rfl := Option.some.inj hd
      exact frame_of_enters hop
  | killCurrent x i =>
      simp only [Op.departure] at hd
      split_ifs at hd
      obtain rfl := Option.some.inj hd
      exact frame_of_enters hop
  | interrupt x frame ext =>
      obtain ⟨v, code, henters⟩ := hop
      cases x with
      | none => cases hd
      | some x =>
          simp only [Op.departure] at hd
          split_ifs at hd
          obtain rfl := Option.some.inj hd
          exact ⟨v, code, frame_of_enters henters⟩
  | createKernelThread f arg stack ext join => cases hd
  | createUserThread p f arg ext join => cases hd
  | wake x => cases hd
  | wakeOne l => cases hd
  | wakeAll l => cases hd
  | endInterrupt => cases hd

/-- In a run, threads leave with their registers. -/
theorem from_of_lastRegisters {s₀ : State} (h : Runs (CoreStep pl) s₀ ops s) {d : Departure}
    (hd : lastRegisters t ops = some (d, m)) : d.From m := by
  have hmem := List.mem_of_getLast? hd
  rw [List.mem_filterMap] at hmem
  obtain ⟨a, ha, hdep⟩ := hmem
  obtain ⟨d', hd', heq⟩ := Option.map_eq_some_iff.mp hdep
  obtain ⟨rfl, rfl⟩ := Prod.mk.inj heq
  have henters : ∀ a ∈ ops, a.1.EntersFrom pl a.2 := by
    clear hd ha hdep hd' heq
    induction h with
    | refl => exact fun a ha => absurd ha List.not_mem_nil
    | snoc _ hlast ih =>
        intro b hb
        rcases List.mem_append.mp hb with hb | hb
        · exact ih b hb
        · obtain rfl := List.mem_singleton.mp hb
          exact hlast.2
  exact from_of_departure (henters a ha) hd'

/-- A general register of the frame of an interrupt. -/
theorem gpr_interruptedFrame (v : ℕ) (code : Option (BitVec 64)) (m : Cpu) (x : GeneralRegister) :
    (interruptedFrame v code m).gpr x = m.gpr x := by
  cases x <;> rfl

/-- Registers that are loaded from a frame that continues a suspension. -/
theorem resumesWith_of_continues {i : Suspension} {process : ℕ} {out : InterruptFrame}
    {ext : List UInt8} (h : Continues c i process out ext)
    (hi : i.frame = interruptedFrame 0x30 none m) (hr : r.LoadedFrom out) :
    ResumesWith c i process m r := by
  obtain ⟨hres, hif, hother, hfs, -⟩ := h
  rw [hi] at hres hif hother
  constructor
  case gpr =>
    funext x
    rw [hr.gpr x, hres.gpr x, gpr_interruptedFrame]
  case seg =>
    funext g
    cases g with
    | ds => exact (hr.ds.trans (congrArg _ hres.ds)).trans (setWidth_selector _)
    | es => exact (hr.es.trans (congrArg _ hres.es)).trans (setWidth_selector _)
    | fs => exact (hr.fs.trans (congrArg _ hres.fs)).trans (setWidth_selector _)
    | gs => exact (hr.gs.trans (congrArg _ hres.gs)).trans (setWidth_selector _)
  case cs => exact (hr.cs.trans (congrArg _ hres.cs)).trans (setWidth_selector _)
  case ss => exact (hr.ss.trans (congrArg _ hres.ss)).trans (setWidth_selector _)
  case rip => exact hr.rip.trans hres.rip
  case gsbase => exact hr.gsbase.trans hres.gsbase
  case fsbase => exact fun hp => hr.fsbase.trans (hfs hp)
  case if_flag =>
    rw [hr.rflags, hif]
    rfl
  case other_flags =>
    intro k hk
    rw [hr.rflags, hother k hk]
    rfl

/-- **Threads resume with their registers.** In every run on a processor, whenever the core leaves
an interrupt and returns to a thread that has left it before, the registers after the exit code are
those with which the thread left. -/
theorem threads_resume {s₀ : State} (hinit : Init s₀) (h : Runs (CoreStep pl) s₀ ops s)
    (hend : Step pl.config s .endInterrupt s') (hcur : s'.current = some t) {u : Cpu}
    (hu : u.OnStack s'.frame.words) {d : Departure} (hd : lastRegisters t ops = some (d, m)) :
    d.Resumes pl.config (s'.threads t).process m (Cpu.exec pl.processor restoreCode u)
      s'.ext := by
  have hruns := runs_of_coreRuns h
  have hinv := Runs.inv hruns hinit.inv
  have hhist := history_of_runs hinit hruns
  have hreturns : d.Returns pl.config (s'.threads t).process s'.frame s'.ext := by
    have hlast := lastDeparture_of_lastRegisters hd
    cases (hend.inv hinv).2 with
    | quiet hop _ => simp [Op.isCall] at hop
    | suspended hop => simp [Op.suspends] at hop
    | ended hin he => exact hhist.returns_of_ended hin hinv he hcur hlast
  have hfrom := from_of_lastRegisters h hd
  have hloaded := loadedFrom_of_restoreCode (p := pl.processor) hu
  cases d with
  | suspended i => exact ⟨resumesWith_of_continues hreturns hfrom hloaded, hreturns.ext_eq⟩
  | interrupted frame ext =>
      obtain ⟨v, code, hframe⟩ := hfrom
      obtain ⟨hout, hext⟩ := hreturns
      rw [hout, hframe] at hloaded
      exact ⟨hloaded.same, hext⟩

/-- A processor with the registers of a frame. -/
def cpuOf (f : InterruptFrame) : Cpu where
  gpr := f.gpr
  seg := fun
    | .ds => f.ds.setWidth 16
    | .es => f.es.setWidth 16
    | .fs => f.fs.setWidth 16
    | .gs => f.gs.setWidth 16
  cs := f.cs.setWidth 16
  ss := f.ss.setWidth 16
  msr := fun r => if r = fsBase then f.fsbase else if r = gsBase then f.gsbase else 0
  rip := f.rip
  rflags := f.rflags
  mem := fun _ => 0

/-- An `int 0x30` enters the kernel with the frame of its registers. -/
theorem enters_int30 {idt : List InterruptTableEntry} {cfg : Config}
    (hidt : initBsp 0x08 smallImage.addr = .ok idt) {f : InterruptFrame}
    (hf : interruptedFrame 0x30 none (cpuOf f) = f) :
    Platform.Enters ⟨plainProcessor, smallImage, 0x08, 0x10, cfg, idt, hidt⟩ 0x30 none (cpuOf f)
      f := by
  have hspec : ∃ w, enter plainProcessor smallImage 0x10 idt 0x30 none (cpuOf f) = some w ∧
      Arch.Enters plainProcessor 0x30 none (cpuOf f) w :=
    enter_spec (f := beginInt30) hidt rfl (by decide) rfl (cpuOf f)
  obtain ⟨w, hw, henters⟩ := hspec
  have hframe := henters.frame
  rw [hf] at hframe
  exact ⟨by decide, by decide, rfl, w, hw, hframe⟩

/-- The steps of the two threads, each with its registers. -/
def twoThreadsCpu : List (Op × Cpu) :=
  twoThreads.zip [cpuOf int30Frame, cpuOf int30Frame, cpuOf int30Frame, cpuOf int30Frame,
    cpuOf secondInt30.frame, cpuOf secondInt30.frame]

/-- The init thread resumes with the registers with which it waited, when the second thread has
yielded with others. -/
theorem threads_resume_twoThreads : ∃ (pl : Platform) (u : Cpu),
    Runs (CoreStep pl) booted twoThreadsCpu yielded ∧ u.OnStack returned.frame.words ∧
    (Departure.suspended int30).Resumes pl.config 0 (cpuOf int30Frame)
      (Cpu.exec pl.processor restoreCode u) [1, 2] := by
  obtain ⟨idt, hidt, -⟩ := @initBsp_spec 0x08 smallImage.addr
  let pl : Platform := ⟨plainProcessor, smallImage, 0x08, 0x10, ⟨7, 9⟩, idt, hidt⟩
  have hwait : (Op.wait 0 5 int30).EntersFrom pl (cpuOf int30Frame) :=
    enters_int30 hidt (by decide)
  have hyield : (Op.yieldCurrent 1 secondInt30).EntersFrom pl (cpuOf secondInt30.frame) :=
    enters_int30 hidt (by decide)
  have henters : ∀ a ∈ twoThreadsCpu, a.1.EntersFrom pl a.2 := by
    simp only [twoThreadsCpu, twoThreads, List.zip_cons_cons, List.zip_nil_left,
      List.forall_mem_cons]
    exact ⟨trivial, trivial, hwait, trivial, trivial, hyield, fun _ h => absurd h List.not_mem_nil⟩
  have hruns : Runs (CoreStep pl) booted twoThreadsCpu yielded :=
    coreRuns_of_runs henters runs_twoThreads
  obtain ⟨mem, hmem⟩ := @exists_wordsAt 64 8 (BitVec 64) _ (by decide) 0 returned.frame.words
    (by rw [InterruptFrame.words_length]; decide)
  have hstack : Cpu.OnStack { cpuOf int30Frame with gpr := fun _ => 0, mem := mem }
      returned.frame.words := hmem
  have hresumes := threads_resume init_booted hruns step_returned current_returned hstack
    (d := .suspended int30) (m := cpuOf int30Frame) rfl
  have hext : returned.ext = [1, 2] := by decide +kernel
  rw [process_returned, hext] at hresumes
  exact ⟨pl, _, hruns, hstack, hresumes⟩

end HydroxKernel.Sched
