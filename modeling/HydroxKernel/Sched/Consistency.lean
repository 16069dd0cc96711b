import HydroxKernel.Lib.Runs
import HydroxKernel.Sched.Operations

/-!
# Consistency of the Scheduler

What holds in every state that the scheduler reaches, from what its operations keep.

## Main results

* `consistent_of_runs`: the states of the threads match the current thread and the queues,
  no assertion on the queues fails, and dead threads stay dead.
-/

namespace HydroxKernel.Sched

open Arch Links

variable {c : Config} {s s' : State} {t : ℕ}

/-! ### Runs -/

/-- `init_kernel_process` leaves the scheduler in a consistent state. -/
theorem Init.inv (h : Init s) : Inv s s.current := by
  obtain ⟨frame, ext, msr, ext', join, hinit⟩ := h
  have hempty : Inv (.empty frame ext msr) none := by
    refine ⟨fun _ => [], fun _ => [], fun _ => [], ⟨queues_empty, queues_empty, queues_empty,
      fun _ _ => ⟨rfl, rfl⟩, fun _ => ?_⟩, ?_⟩
    · simp [State.empty, Thread.none, ThreadWaitState.new]
    · constructor <;> simp [State.empty, Thread.none]
  obtain ⟨s₁, hcreate, ⟨ready, threads, waiting, hl, hc⟩, hcr⟩ :=
    createInternal_spec hempty 0 ⟨.new, ext'⟩ join
  have ht : (s₁.threads 0).state = .suspended := by
    rw [hcr.state]
    rfl
  have hlive : (s₁.threads 0).state ≠ .dead := by simp [ht]
  rw [initKernelProcess, hcreate, ok_bind, Except.ok.injEq] at hinit
  have hcur : s.current = some 0 := by rw [← hinit]; rfl
  rw [hcur]
  have hinv : Inv (s₁.setState 0 .running) (some 0) := by
    refine ⟨_, _, _, hl.setState 0 .running, ?_⟩
    refine hc.change 0 .running (setState_state s₁ 0 .running) (setState_process s₁ 0 .running)
      (fun x _ => setState_joinWriter s₁ 0 .running x) (fun _ => ?_) rfl (hc.lt_created hlive)
      (fun _ _ _ => Iff.rfl) (fun j => ?_) (fun _ _ _ => Iff.rfl) (fun j => ?_)
      (fun _ _ _ => Iff.rfl) (fun j => ?_) (fun x hx => ?_) ?_
    · rw [setState_joinWriter]
      exact hc.join 0 hlive
    · simp [hc.ready_iff, ht]
    · simp [hc.threads_iff, ht]
    · simp [hc.waiting_iff, ht]
    · simpa using Ne.symm hx
    · simp
  rw [← hinit]
  exact hinv.of_threads rfl rfl rfl rfl

/-- The scheduler starts outside of an interrupt. -/
theorem Init.inInterrupt (h : Init s) : s.inInterrupt = false := by
  obtain ⟨frame, ext, msr, ext', join, hinit⟩ := h
  obtain rfl : _ = s := Except.ok.inj hinit
  rfl

/-- A step keeps the state consistent. -/
theorem Step.inv {op : Op} (h : Step c s op s') (hinv : Inv s s.current) :
    Inv s' s'.current ∧ Effect c s op s' := by
  rcases exec_spec (c := c) hinv h.1 with ⟨s₁, hexec, hinv', heff⟩ | ⟨_, _, _, -, herr, -⟩
  · obtain rfl : s₁ = s' := Except.ok.inj (hexec.symm.trans h.2)
    exact ⟨hinv', heff⟩
  · exact absurd (herr.symm.trans h.2) (by simp)

/-- A run keeps the state consistent. -/
theorem Runs.inv {ops : List Op} (h : Runs (Step c) s ops s') (hinv : Inv s s.current) :
    Inv s' s'.current :=
  h.invariant hinv fun _ _ _ hi hstep => (hstep.inv hi).1

/-- A run keeps dead threads dead. -/
theorem Runs.keeps {ops : List Op} (h : Runs (Step c) s ops s') (hinv : Inv s s.current) :
    Keeps s s' := by
  induction h with
  | refl => exact (Quiet.refl s).toKeeps
  | snoc hruns hlast ih => exact ih.trans (hlast.inv (Runs.inv hruns hinv)).2.keeps

/-- The states of the threads say where the threads are: `ready` and `waiting` are the lists
of threads on the ready queues and on the wait lists. -/
structure Consistent (s : State) (ready waiting : ℕ → List ℕ) : Prop where
  running : ∀ t, s.current = some t ↔ t < s.created ∧ (s.threads t).state = .running
  ready_count : ∀ t, t < s.created → ∀ p, (ready p).count t =
    if (s.threads t).state = .ready ∧ (s.threads t).process = p then 1 else 0
  waiting_count : ∀ t, t < s.created → ∀ l, (waiting l).count t =
    if (s.threads t).state = .waiting l then 1 else 0
  ready_links : ∀ p, DSeg (fun t => (s.threads t).prevReady) (fun t => (s.threads t).nextReady)
    none (ready p) none
  ready_ends : ∀ p, (s.processes p).readyHead = (ready p).head? ∧
    (s.processes p).readyTail = (ready p).getLast?
  ready_inverse : ∀ p, ∀ x ∈ ready p, ∀ y ∈ ready p,
    (s.threads x).nextReady = some y ↔ (s.threads y).prevReady = some x
  wait_links : ∀ l, DSeg (fun t => (s.threads t).waitState.prev)
    (fun t => (s.threads t).waitState.next) none (waiting l) none
  wait_ends : ∀ l, (s.waitLists l).head = (waiting l).head? ∧
    (s.waitLists l).tail = (waiting l).getLast?

/-- The number of times that a thread is on a queue without repetitions. -/
theorem count_eq_ite {q : List ℕ} (hnd : q.Nodup) {P : Prop} [Decidable P] (h : t ∈ q ↔ P) :
    q.count t = if P then 1 else 0 := by
  by_cases hP : P
  · rw [if_pos hP]
    exact List.count_eq_one_of_mem hnd (h.mpr hP)
  · rw [if_neg hP]
    exact List.count_eq_zero_of_not_mem fun hm => hP (h.mp hm)

/-- The invariant says that the scheduler is consistent. -/
theorem Inv.consistent (h : Inv s s.current) : ∃ ready waiting, Consistent s ready waiting := by
  obtain ⟨ready, threads, waiting, hl, hc⟩ := h
  refine ⟨ready, waiting, fun t => ?_, fun t _ p => ?_, fun t _ l => ?_, hl.readyQueues.dseg,
    fun p => ⟨hl.readyQueues.head_eq p, hl.readyQueues.tail_eq p⟩, fun p x hx y hy => ⟨?_, ?_⟩,
    hl.waitLists.dseg, fun l => ⟨hl.waitLists.head_eq l, hl.waitLists.tail_eq l⟩⟩
  · rw [hc.running_iff]
    exact ⟨fun hr => ⟨hc.lt_created (by simp [hr]), hr⟩, fun hr => hr.2⟩
  · exact count_eq_ite (hl.readyQueues.nodup p) (hc.ready_iff p t)
  · exact count_eq_ite (hl.waitLists.nodup l) (hc.waiting_iff l t)
  · exact (hl.readyQueues.dseg p).prev_of_next hx (by simp)
  · exact (hl.readyQueues.dseg p).next_of_prev hx hy (by simp)

/-- **The scheduler stays consistent.** In every state that it reaches, the states of the
threads match the current thread, the ready queues and the wait lists; every operation that can
be performed returns, except that a thread which may not be suspended panics; and dead threads
stay dead. -/
theorem consistent_of_runs {s₀ : State} {ops : List Op} (hinit : Init s₀)
    (h : Runs (Step c) s₀ ops s) :
    (∃ ready waiting, Consistent s ready waiting) ∧
      (∀ op, op.Enabled s → (∃ s', exec c s op = .ok s') ∨
        (∃ t i e, op.suspends = some (t, i) ∧ exec c s op = .error e ∧ ¬ i.Allowed ∧
          e.IsDenial)) ∧
      (∀ ops' s', Runs (Step c) s ops' s' → ∀ t, t < s.created →
        (s.threads t).state = .dead → (s'.threads t).state = .dead) := by
  have hinv := Runs.inv h hinit.inv
  refine ⟨hinv.consistent, fun op he => ?_, fun ops' s' hr t ht hd => ?_⟩
  · rcases exec_spec (c := c) hinv he with ⟨s', hexec, -, -⟩ | hdenied
    · exact Or.inl ⟨s', hexec⟩
    · exact Or.inr hdenied
  · exact (Runs.keeps hr hinv).dead t ht hd

/-! ### A run -/

/-- The frame of the `int 0x30` of a kernel thread. -/
def int30Frame : InterruptFrame :=
  ⟨0, 9, 0x10, 0x10, 0x10, 0x10, 15, 14, 13, 12, 11, 10, 9, 8, 7, 6, 5, 4, 3, 2, 1, 0x30, 0,
    0x100200, 0x08, 2, 0x7000, 0x10⟩

/-- A suspension with interrupts enabled. -/
def int30 : Suspension := ⟨int30Frame, [1, 2], 1, true, false⟩

/-- The suspension of a second thread, with other registers and with interrupts disabled. -/
def secondInt30 : Suspension :=
  ⟨{ int30Frame with rax := 101, rdi := 107, r15 := 115, rip := 0x100300, rsp := 0x8000 },
    [3, 4], 1, false, false⟩

/-- The scheduler after `init_kernel_process`. -/
def booted : State :=
  (initKernelProcess (.empty int30Frame [] 0) [] 0).toOption.getD (.empty int30Frame [] 0)

/-- The state after an operation that returns. -/
def after (c : Config) (s : State) (op : Op) : State := (exec c s op).toOption.getD s

/-- The state of the example is initial. -/
theorem init_booted : Init booted := ⟨int30Frame, [], 0, [], 0, rfl⟩

/-- The init thread makes a second thread and waits; the second thread wakes it and yields. -/
def twoThreads : List Op :=
  [.createKernelThread 0x100300 5 0x8000 [7] 6, .wake 1, .wait 0 5 int30, .endInterrupt,
    .wakeOne 5, .yieldCurrent 1 secondInt30]

/-- The state after these operations. -/
def yielded : State := twoThreads.foldl (after ⟨7, 9⟩) booted

/-- An operation that returns is a step. -/
theorem step_after {op : Op} (he : op.Enabled s) (hok : (exec c s op).isOk = true) :
    Step c s op (after c s op) :=
  ⟨he, eq_ok_of_isOk hok s⟩

/-- The end of an interrupt is a step. -/
theorem step_endInterrupt (hin : s.inInterrupt = true)
    (hok : (exec c s .endInterrupt).isOk = true) :
    Step c s .endInterrupt (after c s .endInterrupt) :=
  step_after hin hok

/-- The operations of the example are a run. -/
theorem runs_twoThreads : Runs (Step ⟨7, 9⟩) booted twoThreads (yielded) :=
  .cons (step_after ⟨.inl (by decide +kernel), by decide +kernel⟩ (by decide +kernel)) <|
    .cons (step_after ⟨.inl (by decide +kernel), by decide +kernel⟩ (by decide +kernel)) <|
    .cons (step_after ⟨by decide +kernel, by decide +kernel, rfl, by constructor <;> decide⟩
      (by decide +kernel)) <|
    .cons (step_endInterrupt (by decide +kernel) (by decide +kernel)) <|
    .cons (step_after (.inl (by decide +kernel)) (by decide +kernel)) <|
    .cons (step_after ⟨by decide +kernel, by decide +kernel, rfl, by constructor <;> decide⟩
      (by decide +kernel)) .refl

/-- The init thread is on the core again, and the second thread is ready. -/
theorem consistent_of_runs_twoThreads :
    yielded.current = some 0 ∧ (yielded.threads 1).state = .ready ∧
      ∃ ready waiting, Consistent yielded ready waiting :=
  ⟨by decide +kernel, by decide +kernel,
    (consistent_of_runs init_booted runs_twoThreads).1⟩

end HydroxKernel.Sched
