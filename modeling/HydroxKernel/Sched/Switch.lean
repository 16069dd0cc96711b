import HydroxKernel.Sched.Consistency

/-!
# Context Switches Are Transparent

A thread leaves the core when it is suspended or when an interrupt interrupts it, and
whenever it is back on the core it returns through a frame that continues where it left:
through the frame of the interrupt that interrupted it, or, after a suspension, through a
frame restored from its saved registers. The history of a run records how each thread last
left the core.

## Main results

* `History.step`: what one step does to the saved registers and to the frame.
* `transparent_of_runs`: every thread resumes where it was suspended, and nothing else
  changes its saved registers in the meantime.
-/

namespace HydroxKernel.Sched

open Arch

variable {c : Config} {s s' : State} {t : ℕ} {ops : List Op} {i : Suspension}

/-- How a thread leaves the core. -/
inductive Departure
  | suspended (i : Suspension)
  | interrupted (frame : InterruptFrame) (ext : List UInt8)

/-- How a thread leaves the core in an operation, if it does. -/
def Op.departure (t : ℕ) : Op → Option Departure
  | .wait x _ i => if x = t then some (.suspended i) else none
  | .yieldCurrent x i => if x = t then some (.suspended i) else none
  | .killCurrent x i => if x = t then some (.suspended i) else none
  | .interrupt (some x) frame ext => if x = t then some (.interrupted frame ext) else none
  | _ => none

/-- How a thread last left the core in a run. -/
def lastDeparture (t : ℕ) (ops : List Op) : Option Departure :=
  (ops.filterMap (Op.departure t)).getLast?

/-- The history grows at its end. -/
theorem lastDeparture_snoc {op : Op} :
    lastDeparture t (ops ++ [op]) = (op.departure t).or (lastDeparture t ops) := by
  rw [lastDeparture, List.filterMap_append, List.getLast?_append]
  cases h : op.departure t <;> simp [h, lastDeparture]

/-- A suspension is a departure of the thread it suspends, and of no other one. -/
theorem departure_of_suspends {op : Op} {x : ℕ} (h : op.suspends = some (x, i)) (t : ℕ) :
    op.departure t = if x = t then some (.suspended i) else none := by
  cases op <;> simp only [Op.suspends, Option.some.injEq, Prod.mk.injEq, reduceCtorEq] at h
  all_goals
    obtain ⟨rfl, rfl⟩ := h
    rfl

/-- Calls are no departures. -/
theorem departure_of_isCall {op : Op} (hop : op.isCall = true) (t : ℕ) :
    op.departure t = none := by
  cases op <;> first | rfl | simp [Op.isCall] at hop

/-! ### Returning frames -/

/-- The frame `out` continues a thread of the given process that was suspended: it agrees with
the frame of the suspension in the instruction pointer, the general registers, the selectors
and `gsbase`; the interrupt flag is set if it was or if interrupts were enabled, and all other
flags are as they were; kernel threads get the kernel's `fsbase`; and the extended registers
are those of the suspension. -/
structure Continues (c : Config) (i : Suspension) (process : ℕ) (out : InterruptFrame)
    (ext : List UInt8) : Prop where
  resumes : out.Resumes i.frame
  if_flag : out.rflags.getLsbD 9 = (i.frame.rflags.getLsbD 9 || i.wasEnabled)
  other_flags : ∀ k, k ≠ 9 → out.rflags.getLsbD k = i.frame.rflags.getLsbD k
  fsbase : process = 0 → out.fsbase = c.kernelFsBase
  ext_eq : ext = i.ext

/-- The frame `out` continues a thread after a departure. -/
def Departure.Returns (c : Config) (process : ℕ) (out : InterruptFrame) (ext : List UInt8) :
    Departure → Prop
  | .suspended i => Continues c i process out ext
  | .interrupted frame e => out = frame ∧ ext = e

/-- The registers of a suspension are saved in a thread. -/
def SavedIn (i : Suspension) (th : Thread) : Prop :=
  ∀ r, th.regs = ⟨i.entryFrame.save r, i.ext⟩

/-- The handler of the interrupt `0x30` changes nothing but the flags of the frame. -/
theorem entryFrame_eq :
    i.entryFrame = { i.frame with
      rflags := if i.wasEnabled then i.frame.rflags ||| 1#64 <<< 9 else i.frame.rflags } := by
  cases hw : i.wasEnabled <;> simp [Suspension.entryFrame, hw]

/-- The bits of the flags that the handler of the interrupt `0x30` leaves in the frame. -/
theorem getLsbD_entryFrame_rflags (k : ℕ) :
    i.entryFrame.rflags.getLsbD k =
      (i.frame.rflags.getLsbD k || (i.wasEnabled && decide (k = 9))) := by
  rw [entryFrame_eq]
  cases hw : i.wasEnabled
  · simp
  · simp only [if_true, BitVec.getLsbD_or, Bool.true_and]
    congr 1
    rw [BitVec.getLsbD_shiftLeft, BitVec.getLsbD_one, Bool.eq_iff_iff]
    simp only [Bool.and_eq_true, decide_eq_true_eq, Bool.not_eq_true', decide_eq_false_iff_not]
    omega

/-- A frame that is restored from the registers saved at a suspension continues the thread. -/
theorem continues_resumed {th : Thread} {f : InterruptFrame} (hf : i.frame.SelectorsFit)
    (h : SavedIn i th) :
    Continues c i th.process (resumed c.kernelFsBase f th) th.regs.ext := by
  have hregs : th.regs = ⟨i.entryFrame.save .new, i.ext⟩ := h .new
  have hfit : i.entryFrame.SelectorsFit := by
    rw [entryFrame_eq]
    exact ⟨hf.cs, hf.ss, hf.ds, hf.es, hf.fs, hf.gs⟩
  have hres : (f.restore (i.entryFrame.save .new)).Resumes i.frame := by
    obtain ⟨hrip, hgpr, hcs, hss, hds, hes, hfs, hgs, hgsbase⟩ :=
      InterruptFrame.resumes_restore_save hfit f .new
    rw [entryFrame_eq] at hrip hgpr hcs hss hds hes hfs hgs hgsbase ⊢
    exact ⟨hrip, hgpr, hcs, hss, hds, hes, hfs, hgs, hgsbase⟩
  have hflags : (resumed c.kernelFsBase f th).rflags = i.entryFrame.rflags := by
    rw [resumed, hregs]
    split_ifs <;> rfl
  refine ⟨?_, ?_, fun k hk => ?_, fun hp => ?_, ?_⟩
  · rw [resumed, hregs]
    split_ifs
    · exact ⟨hres.rip, hres.gpr, hres.cs, hres.ss, hres.ds, hres.es, hres.fs, hres.gs, hres.gsbase⟩
    · exact hres
  · rw [hflags, getLsbD_entryFrame_rflags]
    simp
  · rw [hflags, getLsbD_entryFrame_rflags]
    simp [hk]
  · rw [resumed, if_pos hp]
    rfl
  · rw [hregs]

/-! ### History -/

/-- What the history of a run says about its last state: threads off the core hold the
registers of their last suspension, and a thread on the core is about to return through a
frame that continues it. -/
structure History (c : Config) (ops : List Op) (s : State) : Prop where
  saved : ∀ t, s.current ≠ some t → ∀ d, lastDeparture t ops = some d →
    ∃ i, d = .suspended i ∧ t < s.created ∧ i.frame.SelectorsFit ∧ SavedIn i (s.threads t)
  returns : s.inInterrupt = true → ∀ t, s.current = some t → ∀ d, lastDeparture t ops = some d →
    d.Returns c (s.threads t).process s.frame s.ext
  msr : s.inInterrupt = true → s.msr = c.kernelFsBase

/-- A thread that an interrupt switches to returns through a frame that continues it. -/
theorem returns_resumed {d : Departure} {th : Thread} {f : InterruptFrame}
    (h : ∃ i, d = .suspended i ∧ i.frame.SelectorsFit ∧ SavedIn i th) :
    d.Returns c th.process (resumed c.kernelFsBase f th) th.regs.ext := by
  obtain ⟨i, rfl, hf, hs⟩ := h
  exact continues_resumed hf hs

/-- An operation after which the same thread goes on. -/
theorem History.quiet {op : Op} (h : History c ops s) (hop : ∀ t, op.departure t = none)
    (hinv : Inv s s.current) (hq : Quiet s s') : History c (ops ++ [op]) s' := by
  obtain ⟨ready, threads, waiting, -, hc⟩ := hinv
  constructor
  · intro t hcur d hd
    rw [lastDeparture_snoc, hop, Option.none_or] at hd
    rw [hq.current] at hcur
    obtain ⟨i, hi, hlt, hf, hs⟩ := h.saved t hcur d hd
    exact ⟨i, hi, hlt.trans_le hq.created, hf, fun r => (hq.regs t hlt).trans (hs r)⟩
  · intro hin t hcur d hd
    rw [lastDeparture_snoc, hop, Option.none_or] at hd
    rw [hq.current] at hcur
    have hlt : t < s.created := hc.lt_created (by simp [(hc.running_iff t).mp hcur])
    rw [hq.process t hlt, hq.frame, hq.ext]
    exact h.returns (hq.inInterrupt ▸ hin) t hcur d hd
  · intro hin
    rw [hq.msr]
    exact h.msr (hq.inInterrupt ▸ hin)

/-- A thread is suspended. -/
theorem History.suspended {op : Op} (h : History c ops s) (hop : op.suspends = some (t, i))
    (hs : CanSuspend s t i) (hinv : Inv s s.current) (hsus : Suspended c s t i s') :
    History c (ops ++ [op]) s' := by
  obtain ⟨ready, threads, waiting, -, hc⟩ := hinv
  have hlt : t < s.created := hc.lt_created (by simp [(hc.running_iff t).mp hs.current])
  have hsaved : ∀ x d, lastDeparture x (ops ++ [op]) = some d →
      ∃ j, d = .suspended j ∧ x < s'.created ∧ j.frame.SelectorsFit ∧
        SavedIn j (s'.threads x) := by
    intro x d hd
    rw [lastDeparture_snoc, departure_of_suspends hop] at hd
    by_cases hx : t = x
    · subst hx
      rw [if_pos rfl, Option.some_or, Option.some.injEq] at hd
      exact ⟨i, hd.symm, hlt.trans_le hsus.created, hs.fits, hsus.saved⟩
    · rw [if_neg hx, Option.none_or] at hd
      obtain ⟨j, hj, hxlt, hf, hsj⟩ := h.saved x (by simpa [hs.current] using hx) d hd
      exact ⟨j, hj, hxlt.trans_le hsus.created, hf, fun r =>
        (hsus.regs x hxlt (Ne.symm hx)).trans (hsj r)⟩
  refine ⟨fun x _ d hd => hsaved x d hd, fun _ x hcur d hd => ?_, fun _ => hsus.msr⟩
  obtain ⟨j, hj, -, hf, hsj⟩ := hsaved x d hd
  rw [(hsus.resumes x hcur).1, (hsus.resumes x hcur).2]
  exact returns_resumed ⟨j, hj, hf, hsj⟩

/-- A thread is interrupted. -/
theorem History.interrupted {frame : InterruptFrame} {ext : List UInt8} (h : History c ops s) :
    History c (ops ++ [.interrupt s.current frame ext]) (beginInterrupt c s frame ext) := by
  constructor
  · intro t hcur d hd
    have hdep : Op.departure t (.interrupt s.current frame ext) = none := by
      cases hc : s.current with
      | none => rfl
      | some x =>
          have hx : x ≠ t := fun heq => hcur (hc.trans (congrArg some heq))
          simp [Op.departure, hx]
    rw [lastDeparture_snoc, hdep, Option.none_or] at hd
    exact h.saved t hcur d hd
  · intro _ t hcur d hd
    have hcur' : s.current = some t := hcur
    rw [lastDeparture_snoc, hcur', Op.departure, if_pos rfl, Option.some_or,
      Option.some.injEq] at hd
    subst hd
    exact ⟨rfl, rfl⟩
  · exact fun _ => rfl

/-- The frame through which the core leaves an interrupt continues the current thread. -/
theorem History.returns_of_ended (h : History c ops s) (hin : s.inInterrupt = true)
    (hinv : Inv s s.current) (he : Ended c s s') (hcur : s'.current = some t) {d : Departure}
    (hd : lastDeparture t ops = some d) :
    d.Returns c (s'.threads t).process s'.frame s'.ext := by
  obtain ⟨ready, threads, waiting, -, hc⟩ := hinv
  cases hold : s.current with
  | none =>
      obtain ⟨i, hi, hlt, hf, hs⟩ := h.saved t (by simp [hold]) d hd
      rw [(he.resumes t hold hcur).1, (he.resumes t hold hcur).2, h.msr hin]
      exact returns_resumed ⟨i, hi, hf, fun r => (he.regs t).trans (hs r)⟩
  | some x =>
      obtain ⟨hcur', hframe, hext⟩ := he.stays x hold
      obtain rfl : x = t := Option.some.inj (hcur'.symm.trans hcur)
      have hlt : x < s.created := hc.lt_created (by simp [(hc.running_iff x).mp hold])
      rw [he.process x hlt, hframe, hext]
      exact h.returns hin x hold d hd

/-- An interrupt ends. -/
theorem History.ended (h : History c ops s) (he : Ended c s s')
    (hcur : ∀ t, s'.current ≠ some t → s.current ≠ some t) :
    History c (ops ++ [.endInterrupt]) s' := by
  refine ⟨fun t ht d hd => ?_, fun hin => ?_, fun hin => ?_⟩
  · rw [lastDeparture_snoc, Op.departure.eq_def, Option.none_or] at hd
    obtain ⟨i, hi, hlt, hf, hs⟩ := h.saved t (hcur t ht) d hd
    exact ⟨i, hi, hlt.trans_le he.created, hf, fun r => (he.regs t).trans (hs r)⟩
  · simp [he.inInterrupt] at hin
  · simp [he.inInterrupt] at hin

/-- **One step** keeps what the history says about the saved registers and the frame. -/
theorem History.step {op : Op} (h : History c ops s) (hinv : Inv s s.current)
    (heff : Effect c s op s') : History c (ops ++ [op]) s' := by
  cases heff with
  | quiet hop hq => exact h.quiet (departure_of_isCall hop) hinv hq
  | suspended hop hs hsus => exact h.suspended hop hs hinv hsus
  | interrupted frame ext _ => exact h.interrupted
  | ended _ he => exact h.ended he fun t ht hcur => ht (he.stays t hcur).1

/-- A run keeps what its history says. -/
theorem history_of_runs {s₀ : State} (hinit : Init s₀) (h : Runs (Step c) s₀ ops s) :
    History c ops s := by
  induction h with
  | refl =>
      have hout := hinit.inInterrupt
      exact ⟨fun t _ d hd => by simp [lastDeparture] at hd, fun hin => by simp [hout] at hin,
        fun hin => by simp [hout] at hin⟩
  | snoc hruns hlast ih =>
      have hinv := Runs.inv hruns hinit.inv
      exact ih.step hinv (hlast.inv hinv).2

/-- **Registers are saved by the suspension of their own thread only.** -/
theorem Effect.regs {op : Op} (h : Effect c s op s') (ht : t < s.created)
    (hne : (s'.threads t).regs ≠ (s.threads t).regs) :
    s.current = some t ∧ ∃ i, op.suspends = some (t, i) := by
  cases h with
  | quiet _ hq => exact absurd (hq.regs t ht) hne
  | @suspended op x i _ hop hs hsus =>
      have hx : t = x := by
        by_contra htx
        exact hne (hsus.regs t ht htx)
      subst hx
      exact ⟨hs.current, i, hop⟩
  | interrupted _ _ _ => exact absurd rfl hne
  | ended _ he => exact absurd (he.regs t) hne

/-- **Context switches are transparent to threads.** In every run: the frame through which the
core leaves an interrupt continues the thread it returns to, after a suspension as well as
after an interrupt without a switch; the saved registers of a thread that is off the core are
those of its last suspension; and no step changes the saved registers of a thread but the
suspension of that thread while it is the current one. -/
theorem transparent_of_runs {s₀ : State} (hinit : Init s₀) (h : Runs (Step c) s₀ ops s) :
    (∀ s' t d, Step c s .endInterrupt s' → s'.current = some t →
        lastDeparture t ops = some d → d.Returns c (s'.threads t).process s'.frame s'.ext) ∧
      (∀ t i, s.current ≠ some t → lastDeparture t ops = some (.suspended i) →
        SavedIn i (s.threads t)) ∧
      (∀ op s' t, Step c s op s' → t < s.created →
        (s'.threads t).regs ≠ (s.threads t).regs →
        s.current = some t ∧ ∃ i, op.suspends = some (t, i)) := by
  have hinv := Runs.inv h hinit.inv
  have hhist := history_of_runs hinit h
  refine ⟨fun s' t d hstep hcur hd => ?_, fun t i hcur hd => ?_, fun op s' t hstep ht hne => ?_⟩
  · cases (hstep.inv hinv).2 with
    | quiet hop _ => simp [Op.isCall] at hop
    | suspended hop => simp [Op.suspends] at hop
    | ended hin he => exact hhist.returns_of_ended hin hinv he hcur hd
  · obtain ⟨j, hj, -, -, hs⟩ := hhist.saved t hcur _ hd
    obtain rfl : i = j := Departure.suspended.inj hj
    exact hs
  · exact (hstep.inv hinv).2.regs ht hne

/-- The state after the interrupt in which the second thread has yielded. -/
def returned : State := after ⟨7, 9⟩ yielded .endInterrupt

/-- In the example, the interrupt ends. -/
theorem step_returned : Step ⟨7, 9⟩ yielded .endInterrupt returned :=
  step_endInterrupt (by decide +kernel) (by decide +kernel)

/-- In the example, the first thread runs again. -/
theorem current_returned : returned.current = some 0 := by decide +kernel

/-- In the example, the first thread is in the first process. -/
theorem process_returned : (returned.threads 0).process = 0 := by decide +kernel

/-- The init thread, which was suspended with interrupts enabled, is resumed when the second
thread yields; the second thread keeps its registers meanwhile. -/
theorem transparent_of_runs_twoThreads :
    returned.current = some 0 ∧ Continues ⟨7, 9⟩ int30 0 returned.frame returned.ext ∧
      SavedIn secondInt30 (yielded.threads 1) := by
  obtain ⟨hreturns, hsaved, -⟩ := transparent_of_runs init_booted runs_twoThreads
  have hcontinues := hreturns _ 0 (.suspended int30) step_returned current_returned rfl
  rw [process_returned] at hcontinues
  have hcurrent : yielded.current ≠ some 1 := by decide +kernel
  exact ⟨current_returned, hcontinues, hsaved 1 secondInt30 hcurrent rfl⟩

end HydroxKernel.Sched
