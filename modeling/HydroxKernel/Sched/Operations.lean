import HydroxKernel.Sched.ThreadQueues

/-!
# The Operations of the Scheduler

Between any two operations, the state of a thread says where the thread is: the running
thread is the current one, ready threads are on the ready queue of their process, waiting
threads on the wait list they wait on, and all others on no queue. The invariant has two
parts: `Linked`, for the links of the queues, and `Classified`, which matches the queues with
the states of the threads. Inside an operation the current thread may already be marked as
not running, so `Classified` names the running thread on its own.

For each operation there is a lemma that it returns and keeps the invariant, together with
what it does to everything else: `Quiet` for the operations that do not switch threads,
`Suspended` and `Ended` for the others.

## Main results

* `wake_spec`, `wakeOne_spec`, `wakeAll_spec`: waking threads.
* `yieldCurrent_spec`, `wait_spec`, `killCurrent_spec`: suspending the current thread.
* `exec_spec`: in a consistent state every operation that can be performed returns, unless
  it would suspend a thread that may not be suspended, and the new state is consistent.
-/

namespace HydroxKernel.Sched

open Arch Links

variable {c : Config} {s s' : State} {p t l : ℕ} {cur : Option ℕ}
variable {ready threads waiting : ℕ → List ℕ}

/-- The states of the threads match the queues, with `cur` the running thread. -/
structure Classified (s : State) (ready threads waiting : ℕ → List ℕ) (cur : Option ℕ) :
    Prop where
  ready_iff : ∀ p t, t ∈ ready p ↔ (s.threads t).state = .ready ∧ (s.threads t).process = p
  threads_iff : ∀ p t, t ∈ threads p ↔ (s.threads t).state ≠ .dead ∧ (s.threads t).process = p
  waiting_iff : ∀ l t, t ∈ waiting l ↔ (s.threads t).state = .waiting l
  running_iff : ∀ t, cur = some t ↔ (s.threads t).state = .running
  join : ∀ t, (s.threads t).state ≠ .dead → (s.threads t).joinWriter ≠ none
  fresh : ∀ t, s.created ≤ t → (s.threads t).state = .dead

/-- The invariant, with `cur` the running thread. -/
def Inv (s : State) (cur : Option ℕ) : Prop :=
  ∃ ready threads waiting, Linked s ready threads waiting ∧
    Classified s ready threads waiting cur

/-- What every operation keeps: threads stay in their process, and dead threads stay dead. -/
structure Keeps (s s' : State) : Prop where
  created : s.created ≤ s'.created
  process : ∀ x, x < s.created → (s'.threads x).process = (s.threads x).process
  dead : ∀ x, x < s.created → (s.threads x).state = .dead → (s'.threads x).state = .dead

/-- What the operations keep that do not switch to another thread. -/
structure Quiet (s s' : State) : Prop extends Keeps s s' where
  regs : ∀ x, x < s.created → (s'.threads x).regs = (s.threads x).regs
  current : s'.current = s.current
  inInterrupt : s'.inInterrupt = s.inInterrupt
  frame : s'.frame = s.frame
  ext : s'.ext = s.ext
  msr : s'.msr = s.msr

/-- What two changes keep. -/
theorem Keeps.trans {s₁ s₂ s₃ : State} (h : Keeps s₁ s₂) (h' : Keeps s₂ s₃) : Keeps s₁ s₃ where
  created := h.created.trans h'.created
  process x hx := (h'.process x (hx.trans_le h.created)).trans (h.process x hx)
  dead x hx hd := h'.dead x (hx.trans_le h.created) (h.dead x hx hd)

/-- An operation that does nothing. -/
theorem Quiet.refl (s : State) : Quiet s s :=
  ⟨⟨le_rfl, fun _ _ => rfl, fun _ _ h => h⟩, fun _ _ => rfl, rfl, rfl, rfl, rfl, rfl⟩

/-- Two changes that switch to no other thread. -/
theorem Quiet.trans {s₁ s₂ s₃ : State} (h : Quiet s₁ s₂) (h' : Quiet s₂ s₃) : Quiet s₁ s₃ where
  toKeeps := h.toKeeps.trans h'.toKeeps
  regs x hx := (h'.regs x (hx.trans_le h.created)).trans (h.regs x hx)
  current := h'.current.trans h.current
  inInterrupt := h'.inInterrupt.trans h.inInterrupt
  frame := h'.frame.trans h.frame
  ext := h'.ext.trans h.ext
  msr := h'.msr.trans h.msr

/-- A change of links switches to no other thread. -/
theorem SameCore.quiet (h : SameCore s s') : Quiet s s' :=
  ⟨⟨h.created.ge, fun x _ => h.process x, fun x _ hd => (h.state x).trans hd⟩,
    fun x _ => h.regs x, h.current, h.inInterrupt, h.frame, h.ext, h.msr⟩

/-- Writing the state of a thread that is not dead. -/
theorem quiet_setState {state : ThreadState} (h : (s.threads t).state ≠ .dead) :
    Quiet s (s.setState t state) := by
  refine ⟨⟨le_rfl, fun x _ => ?_, fun x _ hd => ?_⟩, fun x _ => ?_, rfl, rfl, rfl, rfl, rfl⟩
  · by_cases hx : x = t <;> simp [State.setState, State.modifyThread, hx]
  · have hx : x ≠ t := fun heq => h (heq ▸ hd)
    simpa [State.setState, State.modifyThread, hx] using hd
  · by_cases hx : x = t <;> simp [State.setState, State.modifyThread, hx]

/-- The states of the threads after one of them was written. -/
theorem setState_state (s : State) (t : ℕ) (state : ThreadState) (x : ℕ) :
    ((s.setState t state).threads x).state = if x = t then state else (s.threads x).state := by
  by_cases hx : x = t <;> simp [State.setState, State.modifyThread, hx]

/-- Writing the state of a thread leaves its process as it is. -/
theorem setState_process (s : State) (t : ℕ) (state : ThreadState) (x : ℕ) :
    ((s.setState t state).threads x).process = (s.threads x).process := by
  by_cases hx : x = t <;> simp [State.setState, State.modifyThread, hx]

/-- Writing the state of a thread leaves its join writer as it is. -/
theorem setState_joinWriter (s : State) (t : ℕ) (state : ThreadState) (x : ℕ) :
    ((s.setState t state).threads x).joinWriter = (s.threads x).joinWriter := by
  by_cases hx : x = t <;> simp [State.setState, State.modifyThread, hx]

/-- Writing the state of a thread leaves the links as they are. -/
theorem Linked.setState (h : Linked s ready threads waiting) (t : ℕ) (state : ThreadState) :
    Linked (s.setState t state) ready threads waiting :=
  h.modifyThread fun _ => rfl

/-! ### Changes of one thread -/

/-- The state of one thread changes, and the queues change for this thread only. -/
theorem Classified.change (hc : Classified s ready threads waiting cur)
    {ready' threads' waiting' : ℕ → List ℕ} {cur' : Option ℕ} (t : ℕ) (state : ThreadState)
    (hstate : ∀ x, (s'.threads x).state = if x = t then state else (s.threads x).state)
    (hprocess : ∀ x, (s'.threads x).process = (s.threads x).process)
    (hjoin : ∀ x, x ≠ t → (s'.threads x).joinWriter = (s.threads x).joinWriter)
    (hjoint : state ≠ .dead → (s'.threads t).joinWriter ≠ none)
    (hcreated : s'.created = s.created) (hlt : t < s.created)
    (hr : ∀ p x, x ≠ t → (x ∈ ready' p ↔ x ∈ ready p))
    (hrt : ∀ p, t ∈ ready' p ↔ state = .ready ∧ (s.threads t).process = p)
    (hth : ∀ p x, x ≠ t → (x ∈ threads' p ↔ x ∈ threads p))
    (htht : ∀ p, t ∈ threads' p ↔ state ≠ .dead ∧ (s.threads t).process = p)
    (hw : ∀ l x, x ≠ t → (x ∈ waiting' l ↔ x ∈ waiting l))
    (hwt : ∀ l, t ∈ waiting' l ↔ state = .waiting l)
    (hcur : ∀ x, x ≠ t → (cur' = some x ↔ cur = some x))
    (hcurt : cur' = some t ↔ state = .running) :
    Classified s' ready' threads' waiting' cur' := by
  constructor
  · intro p x
    rw [hstate, hprocess]
    by_cases hx : x = t
    · subst hx
      rw [if_pos rfl]
      exact hrt p
    · rw [if_neg hx, hr p x hx]
      exact hc.ready_iff p x
  · intro p x
    rw [hstate, hprocess]
    by_cases hx : x = t
    · subst hx
      rw [if_pos rfl]
      exact htht p
    · rw [if_neg hx, hth p x hx]
      exact hc.threads_iff p x
  · intro l x
    rw [hstate]
    by_cases hx : x = t
    · subst hx
      rw [if_pos rfl]
      exact hwt l
    · rw [if_neg hx, hw l x hx]
      exact hc.waiting_iff l x
  · intro x
    rw [hstate]
    by_cases hx : x = t
    · subst hx
      rw [if_pos rfl]
      exact hcurt
    · rw [if_neg hx, hcur x hx]
      exact hc.running_iff x
  · intro x
    rw [hstate]
    by_cases hx : x = t
    · subst hx
      rw [if_pos rfl]
      exact hjoint
    · rw [if_neg hx, hjoin x hx]
      exact hc.join x
  · intro x hx
    have hne : x ≠ t := by omega
    rw [hstate, if_neg hne]
    exact hc.fresh x (hcreated ▸ hx)

/-- A thread that is not dead has been created. -/
theorem Classified.lt_created (hc : Classified s ready threads waiting cur)
    (ht : (s.threads t).state ≠ .dead) : t < s.created := by
  by_contra hge
  exact ht (hc.fresh t (not_lt.mp hge))

/-- Only the threads matter. -/
theorem Classified.of_threads (hc : Classified s ready threads waiting cur)
    (hth : s'.threads = s.threads) (hcr : s'.created = s.created) :
    Classified s' ready threads waiting cur := by
  obtain ⟨hr, hth', hw, hrun, hj, hf⟩ := hc
  rw [← hth] at hr hth' hw hrun hj hf
  rw [← hcr] at hf
  exact ⟨hr, hth', hw, hrun, hj, hf⟩

/-- The invariant speaks about the threads and the queues only. -/
theorem Inv.of_threads (h : Inv s cur) (hth : s'.threads = s.threads)
    (hp : s'.processes = s.processes) (hw : s'.waitLists = s.waitLists)
    (hcr : s'.created = s.created) : Inv s' cur := by
  obtain ⟨ready, threads, waiting, hl, hc⟩ := h
  exact ⟨ready, threads, waiting, hl.congr hp hw fun x => by rw [hth], hc.of_threads hth hcr⟩

/-- Membership after a node was appended to one of several lists. -/
theorem mem_update_append {q : ℕ → List ℕ} {j k x y : ℕ} :
    x ∈ Function.update q k (q k ++ [y]) j ↔ x ∈ q j ∨ (x = y ∧ j = k) := by
  by_cases hj : j = k
  · subst hj
    simp
  · simp [hj]

/-! ### Waking threads -/

/-- `enqueueReadyThread` passes its assertions for a ready thread that is on no queue. -/
theorem enqueueReadyThread_spec (h : Linked s ready threads waiting)
    (hstate : (s.threads t).state = .ready) (ht : ∀ j, t ∉ ready j) :
    enqueueReadyThread s (s.threads t).process t = .ok (pushReady s (s.threads t).process t) := by
  have htail : (s.processes (s.threads t).process).readyTail ≠ some t := fun htail =>
    ht _ (h.readyQueues.mem_of_tail htail)
  simp only [enqueueReadyThread, ensure_pos, hstate, (h.unready t ht).2, htail, ne_eq,
    not_false_eq_true, ok_bind]

/-- `wake` moves a suspended thread to the ready queue of its process. -/
theorem wake_spec (h : Linked s ready threads waiting)
    (hc : Classified s ready threads waiting cur) (ht : (s.threads t).state = .suspended) :
    ∃ s' ready', wake s t = .ok s' ∧ Linked s' ready' threads waiting ∧
      Classified s' ready' threads waiting cur ∧ Quiet s s' := by
  have hlive : (s.threads t).state ≠ .dead := by simp [ht]
  have hr : ∀ j, t ∉ ready j := fun j hj => by simp [(hc.ready_iff j t).mp hj] at ht
  obtain ⟨hl, hcore⟩ := (h.setState t .ready).pushReady
    (p := (s.threads t).process) hr
  refine ⟨_, _, ?_, hl, ?_, (quiet_setState hlive).trans hcore.quiet⟩
  · have henq := enqueueReadyThread_spec (h.setState t .ready)
      (by simp [setState_state]) hr
    rw [setState_process] at henq
    simp only [wake, ensure_pos ht, ok_bind, henq]
  · refine hc.change t .ready (fun x => ?_) (fun x => ?_) (fun x _ => ?_) ?_
      ?_ (hc.lt_created hlive) (fun p x hx => ?_) (fun p => ?_) (fun _ _ _ => Iff.rfl)
      (fun p => ?_) (fun _ _ _ => Iff.rfl) (fun l => ?_) (fun _ _ => Iff.rfl) ?_
    · rw [hcore.state, setState_state]
    · rw [hcore.process, setState_process]
    · rw [hcore.joinWriter, setState_joinWriter]
    · rw [hcore.joinWriter, setState_joinWriter]
      exact fun _ => hc.join t hlive
    · rw [hcore.created]
      rfl
    · simp [mem_update_append, hx]
    · simp [mem_update_append, hr, eq_comm]
    · simp [hc.threads_iff, ht]
    · simp [hc.waiting_iff, ht]
    · simp [hc.running_iff, ht]

/-- The first thread of a wait list is taken off it and woken. -/
theorem wakeFirst_spec (h : Linked s ready threads waiting)
    (hc : Classified s ready threads waiting cur) {rest : List ℕ} (hq : waiting l = t :: rest) :
    ∃ s₁ s' ready', dequeue s l = .ok (some t, s₁) ∧ tryWake s₁ l t = .ok (true, s') ∧
      Linked s' ready' threads (Function.update waiting l rest) ∧
      Classified s' ready' threads (Function.update waiting l rest) cur ∧ Quiet s s' := by
  have ht : (s.threads t).state = .waiting l := (hc.waiting_iff l t).mp (by simp [hq])
  have hlive : (s.threads t).state ≠ .dead := by simp [ht]
  have hnd := h.waitLists.nodup l
  rw [hq, List.nodup_cons] at hnd
  obtain ⟨s₁, hdeq, hl₁, hcore⟩ := h.dequeue hq
  have ht₁ : (s₁.threads t).state = .waiting l := (hcore.state t).trans ht
  have hc₂ : Classified (s₁.setState t .suspended) ready threads (Function.update waiting l rest)
      cur := by
    refine hc.change t .suspended (fun x => ?_) (fun x => ?_) (fun x _ => ?_) ?_
      ?_ (hc.lt_created hlive) (fun _ _ _ => Iff.rfl) (fun p => ?_) (fun _ _ _ => Iff.rfl)
      (fun p => ?_) (fun j x hx => ?_) (fun j => ?_) (fun _ _ => Iff.rfl) ?_
    · rw [setState_state, hcore.state]
    · rw [setState_process, hcore.process]
    · rw [setState_joinWriter, hcore.joinWriter]
    · rw [setState_joinWriter, hcore.joinWriter]
      exact fun _ => hc.join t hlive
    · exact hcore.created
    · simp [hc.ready_iff, ht]
    · simp [hc.threads_iff, ht]
    · by_cases hj : j = l
      · subst hj
        simp [hq, hx]
      · simp [hj]
    · by_cases hj : j = l
      · subst hj
        simp [hnd.1]
      · simpa [hj, hc.waiting_iff, ht] using Ne.symm hj
    · simp [hc.running_iff, ht]
  obtain ⟨s', ready', hwake, hl', hc', hquiet⟩ :=
    wake_spec (t := t) (hl₁.setState t .suspended) hc₂ (by simp [setState_state])
  refine ⟨s₁, s', ready', hdeq, ?_, hl', hc', ?_⟩
  · simp only [tryWake, ht₁, if_true, hwake, ok_bind]
  · exact hcore.quiet.trans ((quiet_setState (by simp [ht₁])).trans hquiet)

/-- `wakeOne` returns. -/
theorem wakeOne_spec (h : Inv s cur) :
    ∃ woken s', wakeOne s l = .ok (woken, s') ∧ Inv s' cur ∧ Quiet s s' := by
  obtain ⟨ready, threads, waiting, hl, hc⟩ := h
  cases hq : waiting l with
  | nil =>
      refine ⟨none, s, ?_, ⟨_, _, _, hl, hc⟩, Quiet.refl s⟩
      simp only [wakeOne, wakeOneLoop, hl.dequeue_nil hq, ok_bind]
  | cons t rest =>
      obtain ⟨s₁, s', ready', hdeq, hwake, hl', hc', hquiet⟩ := wakeFirst_spec hl hc hq
      refine ⟨some t, s', ?_, ⟨_, _, _, hl', hc'⟩, hquiet⟩
      simp only [wakeOne, wakeOneLoop, hdeq, hwake, ok_bind, if_true]

/-- The loop of `wakeAll` returns after one round for every thread on the list. -/
theorem wakeAllLoop_spec {n k : ℕ} (h : Linked s ready threads waiting)
    (hc : Classified s ready threads waiting cur) (hn : (waiting l).length < n) :
    ∃ woken s', wakeAllLoop l n s k = .ok (woken, s') ∧ Inv s' cur ∧ Quiet s s' := by
  induction n generalizing s ready waiting k with
  | zero => omega
  | succ n ih =>
      cases hq : waiting l with
      | nil =>
          refine ⟨k, s, ?_, ⟨_, _, _, h, hc⟩, Quiet.refl s⟩
          simp only [wakeAllLoop, h.dequeue_nil hq, ok_bind]
      | cons t rest =>
          obtain ⟨s₁, s₂, ready', hdeq, hwake, hl', hc', hquiet⟩ := wakeFirst_spec h hc hq
          have hlen : (Function.update waiting l rest l).length < n := by
            rw [hq, List.length_cons] at hn
            rw [Function.update_self]
            omega
          obtain ⟨woken, s', hrec, hinv, hquiet'⟩ := ih (k := k + 1) hl' hc' hlen
          refine ⟨woken, s', ?_, hinv, hquiet.trans hquiet'⟩
          simp only [wakeAllLoop, hdeq, hwake, ok_bind, if_true, hrec]

/-- A wait list is no longer than the number of threads. -/
theorem length_waiting_le (h : Linked s ready threads waiting)
    (hc : Classified s ready threads waiting cur) : (waiting l).length ≤ s.created := by
  have hsub : waiting l ⊆ List.range s.created := fun x hx => by
    rw [List.mem_range]
    exact hc.lt_created (by simp [(hc.waiting_iff l x).mp hx])
  simpa using ((h.waitLists.nodup l).subperm hsub).length_le

/-- `wakeAll` returns. -/
theorem wakeAll_spec (h : Inv s cur) :
    ∃ woken s', wakeAll s l = .ok (woken, s') ∧ Inv s' cur ∧ Quiet s s' := by
  obtain ⟨ready, threads, waiting, hl, hc⟩ := h
  exact wakeAllLoop_spec hl hc (Nat.lt_succ_of_le (length_waiting_le hl hc))

/-! ### Creating threads -/

/-- A thread that is created is not switched to. -/
theorem Created.quiet {regs : SavedRegisters} {join : ℕ} (h : Created s p regs join s') :
    Quiet s s' := by
  refine ⟨⟨by rw [h.created]; omega, fun x hx => ?_, fun x hx hd => ?_⟩, fun x hx => ?_,
    h.current, h.inInterrupt, h.frame, h.ext, h.msr⟩
  · rw [h.process, if_neg hx.ne]
  · rw [h.state, if_neg hx.ne, hd]
  · rw [h.regs, if_neg hx.ne]

/-- `createInternal` returns a new suspended thread. -/
theorem createInternal_spec (h : Inv s cur) (p : ℕ) (regs : SavedRegisters) (join : ℕ) :
    ∃ s', createInternal s p regs join = .ok (s.created, s') ∧ Inv s' cur ∧
      Created s p regs join s' := by
  obtain ⟨ready, threads, waiting, hl, hc⟩ := h
  have hdead := hc.fresh s.created le_rfl
  obtain ⟨s', hcreate, hl', hcr⟩ := hl.create p regs join
    (fun j hj => by simp [(hc.ready_iff j _).mp hj] at hdead)
    (fun j hj => ((hc.threads_iff j _).mp hj).1 hdead)
    (fun j hj => by simp [(hc.waiting_iff j _).mp hj] at hdead)
  refine ⟨s', hcreate, ⟨_, _, _, hl', ?_⟩, hcr⟩
  constructor
  · intro j x
    rw [hcr.state, hcr.process, hc.ready_iff]
    by_cases hx : x = s.created
    · simp [hx, hdead]
    · simp [hx]
  · intro j x
    rw [hcr.state, hcr.process, mem_update_append, hc.threads_iff]
    by_cases hx : x = s.created
    · simp [hx, hdead, eq_comm]
    · simp [hx]
  · intro j x
    rw [hcr.state, hc.waiting_iff]
    by_cases hx : x = s.created
    · simp [hx, hdead]
    · simp [hx]
  · intro x
    rw [hcr.state, hc.running_iff]
    by_cases hx : x = s.created
    · simp [hx, hdead]
    · simp [hx]
  · intro x
    rw [hcr.state, hcr.joinWriter]
    by_cases hx : x = s.created
    · simp [hx]
    · simpa [hx] using hc.join x
  · intro x hx
    rw [hcr.created] at hx
    have hne : x ≠ s.created := by omega
    rw [hcr.state, if_neg hne]
    exact hc.fresh x (by omega)

/-! ### Switching to another thread -/

/-- The frame that resumes a thread. -/
def resumed (msr : BitVec 64) (frame : InterruptFrame) (th : Thread) : InterruptFrame :=
  if th.process = 0 then (frame.restore th.regs.basic).setupKernelModeThreadLocals msr
  else frame.restore th.regs.basic

/-- What `dispatch` does, the queues aside. -/
structure Dispatched (c : Config) (s s' : State) : Prop extends Keeps s s' where
  regs : ∀ x, (s'.threads x).regs = (s.threads x).regs
  inInterrupt : s'.inInterrupt = s.inInterrupt
  msr : s'.msr = s.msr
  resumes : ∀ t, s'.current = some t → s'.frame = resumed s.msr s.frame (s'.threads t) ∧
    s'.ext = (s'.threads t).regs.ext
  idle : s'.current = none → s'.frame = s.frame.setToIdle c.idle

/-- The first ready thread of the kernel process is marked as running. -/
theorem Classified.run (h : Linked s ready threads waiting)
    (hc : Classified s ready threads waiting none) {rest : List ℕ} (hq : ready 0 = t :: rest)
    (hcore : SameCore s s') :
    Classified (s'.setState t .running) (Function.update ready 0 rest) threads waiting
      (some t) := by
  have ht : (s.threads t).state = .ready := ((hc.ready_iff 0 t).mp (by simp [hq])).1
  have hlive : (s.threads t).state ≠ .dead := by simp [ht]
  have hnd := h.readyQueues.nodup 0
  rw [hq, List.nodup_cons] at hnd
  refine hc.change t .running (fun x => ?_) (fun x => ?_) (fun x _ => ?_) ?_ hcore.created
    (hc.lt_created hlive) (fun j x hx => ?_) (fun j => ?_) (fun _ _ _ => Iff.rfl)
    (fun j => ?_) (fun _ _ _ => Iff.rfl) (fun j => ?_) (fun x hx => ?_) ?_
  · rw [setState_state, hcore.state]
  · rw [setState_process, hcore.process]
  · rw [setState_joinWriter, hcore.joinWriter]
  · rw [setState_joinWriter, hcore.joinWriter]
    exact fun _ => hc.join t hlive
  · by_cases hj : j = 0
    · subst hj
      simp [hq, hx]
    · simp [hj]
  · by_cases hj : j = 0
    · subst hj
      simp [hnd.1]
    · rw [Function.update_of_ne hj]
      simp only [reduceCtorEq, false_and, iff_false]
      exact fun hj' => hj (h.readyQueues.disjoint hj' (by simp [hq]))
  · simp [hc.threads_iff, ht]
  · simp [hc.waiting_iff, ht]
  · simpa using Ne.symm hx
  · simp

/-- `dispatch` leaves the core idle if no thread of the kernel process is ready. -/
theorem dispatch_idle (h : Linked s ready threads waiting)
    (hc : Classified s ready threads waiting none) (hq : ready 0 = []) :
    ∃ s', dispatch c s = .ok s' ∧ Inv s' s'.current ∧ Dispatched c s s' := by
  refine ⟨{ s with frame := s.frame.setToIdle c.idle, current := none }, ?_, ?_, ?_⟩
  · simp only [dispatch, h.dequeueReady_nil hq]
  · have hinv : Inv s none := ⟨_, _, _, h, hc⟩
    exact hinv.of_threads rfl rfl rfl rfl
  · exact ⟨⟨le_rfl, fun _ _ => rfl, fun _ _ hd => hd⟩, fun _ => rfl, rfl, rfl,
      fun _ hcur => by simp at hcur, fun _ => rfl⟩

/-- `dispatch` makes the first ready thread of the kernel process the current one. -/
theorem dispatch_thread (h : Linked s ready threads waiting)
    (hc : Classified s ready threads waiting none) {rest : List ℕ} (hq : ready 0 = t :: rest) :
    ∃ s', dispatch c s = .ok s' ∧ Inv s' s'.current ∧ Dispatched c s s' := by
  obtain ⟨s₁, hdeq, hl₁, hcore⟩ := h.dequeueReady hq
  have ht : (s₁.threads t).state = .ready :=
    (hcore.state t).trans ((hc.ready_iff 0 t).mp (by simp [hq])).1
  have hquiet : Quiet s (s₁.setState t .running) :=
    hcore.quiet.trans (quiet_setState (by simp [ht]))
  refine ⟨{ restoreCpuState (s₁.setState t .running) t with current := some t }, ?_, ?_, ?_⟩
  · simp only [dispatch, hdeq, ensure_pos ht, ok_bind]
  · have hinv : Inv (s₁.setState t .running) (some t) :=
      ⟨_, _, _, hl₁.setState t .running, Classified.run h hc hq hcore⟩
    exact hinv.of_threads rfl rfl rfl rfl
  · refine ⟨⟨hquiet.created, hquiet.process, hquiet.dead⟩, fun x => ?_, hcore.inInterrupt,
      hcore.msr, fun x hx => ?_, fun hnone => by simp at hnone⟩
    · rw [← hcore.regs x]
      by_cases hx : x = t <;> simp [restoreCpuState, State.setState, State.modifyThread, hx]
    · obtain rfl : t = x := by simpa using hx
      refine ⟨?_, rfl⟩
      rw [← hcore.msr, ← hcore.frame]
      rfl

/-- `dispatch` returns. -/
theorem dispatch_spec (h : Inv s none) :
    ∃ s', dispatch c s = .ok s' ∧ Inv s' s'.current ∧ Dispatched c s s' := by
  obtain ⟨ready, threads, waiting, hl, hc⟩ := h
  cases hq : ready 0 with
  | nil => exact dispatch_idle hl hc hq
  | cons t rest => exact dispatch_thread hl hc hq

/-! ### Suspending the current thread -/

variable {i : Suspension}

/-- The state in which the old thread of a context switch has been saved. -/
def savedState (c : Config) (s : State) (t : ℕ) (i : Suspension) : State :=
  saveCpuState (beginInterrupt c s i.entryFrame i.ext) t

/-- Saving the registers of a thread leaves its state as it is. -/
theorem savedState_state (x : ℕ) :
    ((savedState c s t i).threads x).state = (s.threads x).state := by
  by_cases hx : x = t <;> simp [savedState, saveCpuState, beginInterrupt, State.modifyThread, hx]

/-- Saving the registers of a thread leaves its process as it is. -/
theorem savedState_process (x : ℕ) :
    ((savedState c s t i).threads x).process = (s.threads x).process := by
  by_cases hx : x = t <;> simp [savedState, saveCpuState, beginInterrupt, State.modifyThread, hx]

/-- Saving the registers of a thread leaves its join writer as it is. -/
theorem savedState_joinWriter (x : ℕ) :
    ((savedState c s t i).threads x).joinWriter = (s.threads x).joinWriter := by
  by_cases hx : x = t <;> simp [savedState, saveCpuState, beginInterrupt, State.modifyThread, hx]

/-- Saving the registers of a thread leaves the links as they are. -/
theorem Linked.savedState (h : Linked s ready threads waiting) :
    Linked (savedState c s t i) ready threads waiting := by
  have hb : Linked (beginInterrupt c s i.entryFrame i.ext) ready threads waiting :=
    h.congr rfl rfl fun _ => rfl
  rw [Sched.savedState, saveCpuState]
  exact hb.modifyThread fun _ => rfl

/-- What happens to a thread that is suspended, the queues aside. -/
structure Retired (c : Config) (s : State) (t : ℕ) (i : Suspension) (s' : State) :
    Prop extends Keeps s s' where
  regs : ∀ x, x < s.created → x ≠ t → (s'.threads x).regs = (s.threads x).regs
  saved : ∀ r, (s'.threads t).regs = ⟨i.entryFrame.save r, i.ext⟩
  frame : s'.frame = i.entryFrame
  msr : s'.msr = c.kernelFsBase
  inInterrupt : s'.inInterrupt = true

/-- The old thread has been saved. -/
theorem retired_savedState : Retired c s t i (savedState c s t i) := by
  refine ⟨⟨le_rfl, fun x _ => savedState_process x, fun x _ hd => (savedState_state x).trans hd⟩,
    fun x _ hx => ?_, fun r => ?_, rfl, rfl, rfl⟩
  · simp [savedState, saveCpuState, beginInterrupt, State.modifyThread, hx]
  · simp only [savedState, saveCpuState, beginInterrupt, State.modifyThread, Function.update_self]
    rfl

/-- A thread is suspended, and then a change switches to no other thread. -/
theorem Retired.trans_quiet {s₁ s₂ : State} (h : Retired c s t i s₁) (ht : t < s₁.created)
    (h' : Quiet s₁ s₂) : Retired c s t i s₂ where
  toKeeps := h.toKeeps.trans h'.toKeeps
  regs x hx hxt := (h'.regs x (hx.trans_le h.created)).trans (h.regs x hx hxt)
  saved r := (h'.regs t ht).trans (h.saved r)
  frame := h'.frame.trans h.frame
  msr := h'.msr.trans h.msr
  inInterrupt := h'.inInterrupt.trans h.inInterrupt

/-- A change switches to no other thread, and then a thread is suspended. -/
theorem Quiet.trans_retired {s₁ s₂ : State} (h : Quiet s s₁) (h' : Retired c s₁ t i s₂) :
    Retired c s t i s₂ where
  toKeeps := h.toKeeps.trans h'.toKeeps
  regs x hx hxt := (h'.regs x (hx.trans_le h.created) hxt).trans (h.regs x hx)
  saved := h'.saved
  frame := h'.frame
  msr := h'.msr
  inInterrupt := h'.inInterrupt

/-- A running thread that yields is saved and put on the ready queue of its process. -/
theorem retire_ready (h : Linked s ready threads waiting)
    (hc : Classified s ready threads waiting (some t)) :
    ∃ s', retire (beginInterrupt c (s.setState t .ready) i.entryFrame i.ext) t = .ok s' ∧
      Inv s' none ∧ Retired c s t i s' := by
  have ht : (s.threads t).state = .running := (hc.running_iff t).mp rfl
  have hlive : (s.threads t).state ≠ .dead := by simp [ht]
  have hr : ∀ j, t ∉ ready j := fun j hj => by simp [(hc.ready_iff j t).mp hj] at ht
  have hl₁ : Linked (savedState c (s.setState t .ready) t i) ready threads waiting :=
    (h.setState t .ready).savedState
  have hready : ((savedState c (s.setState t .ready) t i).threads t).state = .ready := by
    rw [savedState_state, setState_state, if_pos rfl]
  have hproc : ((savedState c (s.setState t .ready) t i).threads t).process =
      (s.threads t).process := by rw [savedState_process, setState_process]
  have henq := enqueueReadyThread_spec hl₁ hready hr
  rw [hproc] at henq
  obtain ⟨hl', hcore⟩ := hl₁.pushReady (p := (s.threads t).process) hr
  refine ⟨pushReady (savedState c (s.setState t .ready) t i) (s.threads t).process t, ?_,
    ⟨_, _, _, hl', ?_⟩, ?_⟩
  · have hrun : ((beginInterrupt c (s.setState t .ready) i.entryFrame i.ext).threads t).state ≠
        .running := by
      simp [beginInterrupt, setState_state]
    rw [← henq]
    simp only [retire, ensure_pos hrun, ok_bind]
    rw [savedState] at hready hproc ⊢
    simp only [hready, hproc]
  · refine hc.change t .ready (fun x => ?_) (fun x => ?_) (fun x _ => ?_) ?_ ?_
      (hc.lt_created hlive) (fun j x hx => ?_) (fun j => ?_) (fun _ _ _ => Iff.rfl)
      (fun j => ?_) (fun _ _ _ => Iff.rfl) (fun j => ?_) (fun x hx => ?_) ?_
    · rw [hcore.state, savedState_state, setState_state]
    · rw [hcore.process, savedState_process, setState_process]
    · rw [hcore.joinWriter, savedState_joinWriter, setState_joinWriter]
    · rw [hcore.joinWriter, savedState_joinWriter, setState_joinWriter]
      exact fun _ => hc.join t hlive
    · exact hcore.created
    · simp [mem_update_append, hx]
    · simp [mem_update_append, hr, eq_comm]
    · simp [hc.threads_iff, ht]
    · simp [hc.waiting_iff, ht]
    · simpa using Ne.symm hx
    · simp
  · have hq : Quiet s (s.setState t .ready) := quiet_setState hlive
    exact hq.trans_retired (retired_savedState.trans_quiet (hc.lt_created hlive) hcore.quiet)

/-- A thread that waits or is dead is saved. -/
theorem retire_other (h : Inv s none) (ht : (s.threads t).state ≠ .ready)
    (ht' : (s.threads t).state ≠ .running) :
    ∃ s', retire (beginInterrupt c s i.entryFrame i.ext) t = .ok s' ∧ Inv s' none ∧
      Retired c s t i s' := by
  obtain ⟨ready, threads, waiting, hl, hc⟩ := h
  refine ⟨savedState c s t i, ?_, ⟨_, _, _, hl.savedState, ?_⟩, retired_savedState⟩
  · have hrun : ((beginInterrupt c s i.entryFrame i.ext).threads t).state ≠ .running := ht'
    have hready : ((savedState c s t i).threads t).state ≠ .ready := by
      rwa [savedState_state]
    simp only [retire, ensure_pos hrun, ok_bind]
    rw [savedState] at hready ⊢
    split
    · exact absurd ‹_› hready
    · rfl
  · constructor
    · simpa only [savedState_state, savedState_process] using hc.ready_iff
    · simpa only [savedState_state, savedState_process] using hc.threads_iff
    · simpa only [savedState_state] using hc.waiting_iff
    · simpa only [savedState_state] using hc.running_iff
    · simpa only [savedState_state, savedState_joinWriter] using hc.join
    · intro x hx
      rw [savedState_state]
      exact hc.fresh x hx

/-- A thread may be suspended: it holds no `InterruptDisabler` besides that of its lock, and
may block. -/
def Suspension.Allowed (i : Suspension) : Prop := i.numHeld = 1 ∧ i.errOnBlock = false

/-- The panics of a thread that may not be suspended. -/
def Panic.IsDenial (e : Panic) : Prop := e = .liveInterruptDisabler ∨ e = .nonBlockingContext

/-- What a suspension does, the queues aside: the frame is saved into the suspended thread,
no other registers change, and the core resumes the registers of the new thread. -/
structure Suspended (c : Config) (s : State) (t : ℕ) (i : Suspension) (s' : State) :
    Prop extends Keeps s s' where
  regs : ∀ x, x < s.created → x ≠ t → (s'.threads x).regs = (s.threads x).regs
  saved : ∀ r, (s'.threads t).regs = ⟨i.entryFrame.save r, i.ext⟩
  resumes : ∀ x, s'.current = some x →
    s'.frame = resumed c.kernelFsBase i.entryFrame (s'.threads x) ∧
      s'.ext = (s'.threads x).regs.ext
  msr : s'.msr = c.kernelFsBase
  inInterrupt : s'.inInterrupt = true

/-- The outcome of an operation that suspends the current thread. -/
def Outcome (c : Config) (s : State) (t : ℕ) (i : Suspension) (r : Except Panic State) : Prop :=
  (∃ s', r = .ok s' ∧ i.Allowed ∧ Inv s' s'.current ∧ Suspended c s t i s') ∨
    (∃ e, r = .error e ∧ ¬ i.Allowed ∧ e.IsDenial)

/-- `suspendCurrent` switches to another thread once the current thread can be retired. -/
theorem suspendCurrent_spec {s₀ s₁ : State} (hcur : s.current = some t)
    (hrun : (s.threads t).state ≠ .running)
    (hretire : retire (beginInterrupt c s i.entryFrame i.ext) t = .ok s₁) (hinv : Inv s₁ none)
    (hret : Retired c s₀ t i s₁) : Outcome c s₀ t i (suspendCurrent c s t i) := by
  simp only [suspendCurrent, ensure_pos hcur, ensure_pos hrun, ok_bind]
  by_cases hheld : i.numHeld = 1
  · by_cases hblock : i.errOnBlock = false
    · obtain ⟨s', hdisp, hinv', hd⟩ := dispatch_spec (c := c) hinv
      refine Or.inl ⟨s', ?_, ⟨hheld, hblock⟩, hinv', ?_⟩
      · have hin : (beginInterrupt c s i.entryFrame i.ext).inInterrupt = true := rfl
        simp only [ensure_pos hheld, ensure_pos hblock, ok_bind, performContextSwitchInterrupt,
          ensure_pos hin, hretire, hdisp]
      · exact ⟨hret.toKeeps.trans hd.toKeeps,
          fun x hx hxt => (hd.regs x).trans (hret.regs x hx hxt),
          fun r => (hd.regs t).trans (hret.saved r),
          fun x hx => by rw [← hret.frame, ← hret.msr]; exact hd.resumes x hx,
          hd.msr.trans hret.msr, hd.inInterrupt.trans hret.inInterrupt⟩
    · refine Or.inr ⟨.nonBlockingContext, ?_, fun ha => hblock ha.2, Or.inr rfl⟩
      rw [ensure_pos hheld, ok_bind, ensure_neg hblock, error_bind]
  · refine Or.inr ⟨.liveInterruptDisabler, ?_, fun ha => hheld ha.1, Or.inl rfl⟩
    rw [ensure_neg hheld, error_bind]

/-- `Thread::current` returns the thread that calls it. -/
theorem currentThread_spec (h : CanSuspend s t i) : s.currentThread = .ok t := by
  simp only [State.currentThread, ensure_pos h.outside, ok_bind, h.current]

/-- `yieldCurrent` switches to another thread. -/
theorem yieldCurrent_spec (h : Inv s s.current) (hs : CanSuspend s t i) :
    Outcome c s t i (yieldCurrent c s i) := by
  obtain ⟨ready, threads, waiting, hl, hc⟩ := h
  rw [hs.current] at hc
  have ht : (s.threads t).state = .running := (hc.running_iff t).mp rfl
  obtain ⟨s₁, hretire, hinv, hret⟩ := retire_ready (c := c) (i := i) hl hc
  simp only [yieldCurrent, currentThread_spec hs, ensure_pos ht, ok_bind]
  exact suspendCurrent_spec hs.current (by simp [setState_state]) hretire hinv hret

/-- A running thread puts itself on a wait list. -/
theorem enqueue_current_spec (h : Linked s ready threads waiting)
    (hc : Classified s ready threads waiting (some t)) :
    ∃ s', enqueue (s.setState t (.waiting l)) l t = .ok s' ∧ Inv s' none ∧ Quiet s s' ∧
      (s'.threads t).state = .waiting l := by
  have ht : (s.threads t).state = .running := (hc.running_iff t).mp rfl
  have hlive : (s.threads t).state ≠ .dead := by simp [ht]
  have hw : ∀ j, t ∉ waiting j := fun j hj => by simp [(hc.waiting_iff j t).mp hj] at ht
  obtain ⟨s', henq, hl', hcore⟩ := (h.setState t (.waiting l)).enqueue (l := l) hw
  refine ⟨s', henq, ⟨_, _, _, hl', ?_⟩, (quiet_setState hlive).trans hcore.quiet, ?_⟩
  · refine hc.change t (.waiting l) (fun x => ?_) (fun x => ?_) (fun x _ => ?_) ?_ ?_
      (hc.lt_created hlive) (fun _ _ _ => Iff.rfl) (fun j => ?_) (fun _ _ _ => Iff.rfl)
      (fun j => ?_) (fun j x hx => ?_) (fun j => ?_) (fun x hx => ?_) ?_
    · rw [hcore.state, setState_state]
    · rw [hcore.process, setState_process]
    · rw [hcore.joinWriter, setState_joinWriter]
    · rw [hcore.joinWriter, setState_joinWriter]
      exact fun _ => hc.join t hlive
    · exact hcore.created
    · simp [hc.ready_iff, ht]
    · simp [hc.threads_iff, ht]
    · simp [mem_update_append, hx]
    · simp [mem_update_append, hw, eq_comm]
    · simpa using Ne.symm hx
    · simp
  · rw [hcore.state, setState_state, if_pos rfl]

/-- `wait` puts the current thread on the wait list and switches to another thread. -/
theorem wait_spec (h : Inv s s.current) (hs : CanSuspend s t i) :
    Outcome c s t i (wait c s l i) := by
  obtain ⟨ready, threads, waiting, hl, hc⟩ := h
  rw [hs.current] at hc
  have ht : (s.threads t).state = .running := (hc.running_iff t).mp rfl
  obtain ⟨s₁, henq, hinv, hquiet, hstate⟩ := enqueue_current_spec (l := l) hl hc
  obtain ⟨s₂, hretire, hinv', hret⟩ :=
    retire_other (c := c) (i := i) (t := t) hinv (by simp [hstate]) (by simp [hstate])
  simp only [wait, currentThread_spec hs, ensure_pos ht, ok_bind, henq]
  exact suspendCurrent_spec (hquiet.current.trans hs.current) (by simp [hstate]) hretire hinv'
    (hquiet.trans_retired hret)

/-- A running thread is marked as dead and taken off the list of threads of its process. -/
theorem removeThread_current_spec (h : Linked s ready threads waiting)
    (hc : Classified s ready threads waiting (some t)) :
    ∃ s', removeThread (s.setState t .dead) (s.threads t).process t = .ok s' ∧ Inv s' none ∧
      Quiet s s' ∧ (s'.threads t).state = .dead ∧
      (s'.threads t).joinWriter = (s.threads t).joinWriter := by
  have ht : (s.threads t).state = .running := (hc.running_iff t).mp rfl
  have hlive : (s.threads t).state ≠ .dead := by simp [ht]
  have hr : ∀ j, t ∉ ready j := fun j hj => by simp [(hc.ready_iff j t).mp hj] at ht
  have hmem : t ∈ threads (s.threads t).process := (hc.threads_iff _ t).mpr ⟨hlive, rfl⟩
  obtain ⟨s', hrem, hl', hcore⟩ := (h.setState t .dead).remove hmem
    (setState_process s t .dead t).symm hr
  refine ⟨s', hrem, ⟨_, _, _, hl', ?_⟩, (quiet_setState hlive).trans hcore.quiet, ?_, ?_⟩
  · refine hc.change t .dead (fun x => ?_) (fun x => ?_) (fun x _ => ?_) (fun hd => ?_) ?_
      (hc.lt_created hlive) (fun _ _ _ => Iff.rfl) (fun j => ?_) (fun j x hx => ?_)
      (fun j => ?_) (fun _ _ _ => Iff.rfl) (fun j => ?_) (fun x hx => ?_) ?_
    · rw [hcore.state, setState_state]
    · rw [hcore.process, setState_process]
    · rw [hcore.joinWriter, setState_joinWriter]
    · exact absurd rfl hd
    · exact hcore.created
    · simp [hc.ready_iff, ht]
    · by_cases hj : j = (s.threads t).process
      · subst hj
        rw [Function.update_self, List.mem_erase_of_ne hx]
      · rw [Function.update_of_ne hj]
    · simp only [ne_eq, not_true_eq_false, false_and, iff_false]
      by_cases hj : j = (s.threads t).process
      · subst hj
        rw [Function.update_self]
        exact (h.threadLists.nodup _).not_mem_erase
      · rw [Function.update_of_ne hj]
        exact fun hm => hj (h.threadLists.disjoint hm hmem)
    · simp [hc.waiting_iff, ht]
    · simpa using Ne.symm hx
    · simp
  · rw [hcore.state, setState_state, if_pos rfl]
  · rw [hcore.joinWriter, setState_joinWriter]

/-- Taking the join writer of a dead thread. -/
theorem Inv.takeJoinWriter (h : Inv s cur) (ht : (s.threads t).state = .dead) :
    Inv (s.modifyThread t fun th => { th with joinWriter := none }) cur := by
  obtain ⟨ready, threads, waiting, hl, hc⟩ := h
  have hstate : ∀ x, ((s.modifyThread t fun th => { th with joinWriter := none }).threads x).state =
      (s.threads x).state := fun x => by
    by_cases hx : x = t <;> simp [State.modifyThread, hx]
  have hprocess : ∀ x,
      ((s.modifyThread t fun th => { th with joinWriter := none }).threads x).process =
        (s.threads x).process := fun x => by
    by_cases hx : x = t <;> simp [State.modifyThread, hx]
  refine ⟨_, _, _, hl.modifyThread fun _ => rfl, ?_⟩
  constructor
  · simpa only [hstate, hprocess] using hc.ready_iff
  · simpa only [hstate, hprocess] using hc.threads_iff
  · simpa only [hstate] using hc.waiting_iff
  · simpa only [hstate] using hc.running_iff
  · intro x hx
    rw [hstate] at hx
    have hxt : x ≠ t := fun heq => hx (heq ▸ ht)
    simpa [State.modifyThread, hxt] using hc.join x hx
  · intro x hx
    rw [hstate]
    exact hc.fresh x hx

/-- Taking the writer of the join future switches to no other thread. -/
theorem quiet_takeJoinWriter :
    Quiet s (s.modifyThread t fun th => { th with joinWriter := none }) := by
  refine ⟨⟨le_rfl, fun x _ => ?_, fun x _ hd => ?_⟩, fun x _ => ?_, rfl, rfl, rfl, rfl, rfl⟩
  · by_cases hx : x = t <;> simp [State.modifyThread, hx]
  · rw [← hd]
    by_cases hx : x = t <;> simp [State.modifyThread, hx]
  · by_cases hx : x = t <;> simp [State.modifyThread, hx]

/-- `killCurrent` wakes the threads that wait for the end of the current thread and switches to
another thread. -/
theorem killCurrent_spec (h : Inv s s.current) (hs : CanSuspend s t i) :
    Outcome c s t i (killCurrent c s i) := by
  obtain ⟨ready, threads, waiting, hl, hc⟩ := h
  rw [hs.current] at hc
  have ht : (s.threads t).state = .running := (hc.running_iff t).mp rfl
  have hlt : t < s.created := hc.lt_created (by simp [ht])
  obtain ⟨s₁, hrem, hinv₁, hquiet₁, hdead, hjoin⟩ := removeThread_current_spec hl hc
  obtain ⟨join, hsome⟩ := Option.ne_none_iff_exists'.mp (hc.join t (by simp [ht]))
  obtain ⟨woken, s₂, hwake, hinv₂, hquiet₂⟩ := wakeAll_spec (l := join) (hinv₁.takeJoinWriter hdead)
  have hquiet : Quiet s s₂ := hquiet₁.trans (quiet_takeJoinWriter.trans hquiet₂)
  have hdead₂ : (s₂.threads t).state = .dead :=
    (quiet_takeJoinWriter.trans hquiet₂).dead t (hlt.trans_le hquiet₁.created) hdead
  obtain ⟨s₃, hretire, hinv₃, hret⟩ :=
    retire_other (c := c) (i := i) (t := t) hinv₂ (by simp [hdead₂]) (by simp [hdead₂])
  simp only [killCurrent, currentThread_spec hs, ensure_pos ht, ok_bind, hrem, hjoin, hsome, hwake]
  exact suspendCurrent_spec (hquiet.current.trans hs.current) (by simp [hdead₂]) hretire hinv₃
    (hquiet.trans_retired hret)

/-! ### All operations -/

/-- What `endInterrupt` does, the queues aside. -/
structure Ended (c : Config) (s s' : State) : Prop extends Keeps s s' where
  regs : ∀ x, (s'.threads x).regs = (s.threads x).regs
  inInterrupt : s'.inInterrupt = false
  stays : ∀ t, s.current = some t → s'.current = some t ∧ s'.frame = s.frame ∧ s'.ext = s.ext
  resumes : ∀ t, s.current = none → s'.current = some t →
    s'.frame = resumed s.msr s.frame (s'.threads t) ∧ s'.ext = (s'.threads t).regs.ext

/-- `endInterrupt` returns, after another context switch if the core is idle. -/
theorem endInterrupt_spec (h : Inv s s.current) (hin : s.inInterrupt = true) :
    ∃ s', endInterrupt c s = .ok s' ∧ Inv s' s'.current ∧ Ended c s s' := by
  cases hcur : s.current with
  | none =>
      rw [hcur] at h
      obtain ⟨s₁, hdisp, hinv, hd⟩ := dispatch_spec (c := c) h
      refine ⟨{ s₁ with msr := s₁.frame.fsbase, inInterrupt := false }, ?_,
        hinv.of_threads rfl rfl rfl rfl, ?_⟩
      · simp only [endInterrupt, hcur, performContextSwitchInterrupt, ensure_pos hin,
          ok_bind, hdisp]
      · exact ⟨⟨hd.created, hd.process, hd.dead⟩, hd.regs, rfl, fun t ht => by simp [hcur] at ht,
          fun t _ ht => hd.resumes t ht⟩
  | some x =>
      refine ⟨{ s with msr := s.frame.fsbase, inInterrupt := false }, ?_,
        h.of_threads rfl rfl rfl rfl, ?_⟩
      · simp only [endInterrupt, hcur, ok_bind]
      · exact ⟨⟨le_rfl, fun _ _ => rfl, fun _ _ hd => hd⟩, fun _ => rfl, rfl,
          fun t ht => ⟨ht, rfl, rfl⟩, fun t ht => by simp [hcur] at ht⟩

/-- What an operation does, the queues aside. -/
inductive Effect (c : Config) (s : State) : Op → State → Prop
  | quiet {op : Op} {s' : State} (hop : op.isCall = true) (h : Quiet s s') : Effect c s op s'
  | suspended {op : Op} {t : ℕ} {i : Suspension} {s' : State} (hop : op.suspends = some (t, i))
      (hs : CanSuspend s t i) (h : Suspended c s t i s') : Effect c s op s'
  | interrupted (frame : InterruptFrame) (ext : List UInt8) (h : s.inInterrupt = false) :
      Effect c s (.interrupt s.current frame ext) (beginInterrupt c s frame ext)
  | ended {s' : State} (hin : s.inInterrupt = true) (h : Ended c s s') :
      Effect c s .endInterrupt s'

/-- What every operation keeps. -/
theorem Effect.keeps {op : Op} (h : Effect c s op s') : Keeps s s' := by
  cases h with
  | quiet _ h => exact h.toKeeps
  | suspended _ _ h => exact h.toKeeps
  | interrupted _ _ _ => exact ⟨le_rfl, fun _ _ => rfl, fun _ _ hd => hd⟩
  | ended _ h => exact h.toKeeps

/-- An operation that suspends the current thread returns, or panics because it may not. -/
theorem Outcome.exec {op : Op} (h : Outcome c s t i (exec c s op))
    (hop : op.suspends = some (t, i)) (hs : CanSuspend s t i) :
    (∃ s', exec c s op = .ok s' ∧ Inv s' s'.current ∧ Effect c s op s') ∨
      (∃ t i e, op.suspends = some (t, i) ∧ exec c s op = .error e ∧ ¬ i.Allowed ∧
        e.IsDenial) := by
  rcases h with ⟨s', hr, -, hinv, hsus⟩ | ⟨e, hr, hna, hden⟩
  · exact Or.inl ⟨s', hr, hinv, .suspended hop hs hsus⟩
  · exact Or.inr ⟨t, i, e, hop, hr, hna, hden⟩

/-- **Every operation that can be performed returns** in a consistent state, unless it would
suspend a thread that may not be suspended, and the new state is consistent. -/
theorem exec_spec {op : Op} (h : Inv s s.current) (he : op.Enabled s) :
    (∃ s', exec c s op = .ok s' ∧ Inv s' s'.current ∧ Effect c s op s') ∨
      (∃ t i e, op.suspends = some (t, i) ∧ exec c s op = .error e ∧ ¬ i.Allowed ∧
        e.IsDenial) := by
  have hquiet : ∀ {s'}, op.isCall = true → Inv s' s.current → Quiet s s' →
      Inv s' s'.current ∧ Effect c s op s' :=
    fun hop hinv hq => ⟨hq.current ▸ hinv, .quiet hop hq⟩
  cases op with
  | createKernelThread f arg stack ext join =>
      obtain ⟨s', hcreate, hinv, hcr⟩ :=
        createInternal_spec h 0 ⟨.newKernelThread f arg stack, ext⟩ join
      refine Or.inl ⟨s', ?_, hquiet rfl hinv hcr.quiet⟩
      simp only [exec, createKernelThread, ensure_pos, ok_bind, hcreate]
      rfl
  | createUserThread p f arg ext join =>
      obtain ⟨s', hcreate, hinv, hcr⟩ := createInternal_spec h p ⟨.newUserThread f arg 0, ext⟩ join
      refine Or.inl ⟨s', ?_, hquiet rfl hinv hcr.quiet⟩
      simp only [exec, createUserThread, ensure_pos he.2.1, ok_bind, hcreate]
      rfl
  | wake t =>
      obtain ⟨ready, threads, waiting, hl, hc⟩ := h
      obtain ⟨s', ready', hwake, hl', hc', hq⟩ := wake_spec hl hc he.2
      exact Or.inl ⟨s', hwake, hquiet rfl ⟨_, _, _, hl', hc'⟩ hq⟩
  | wakeOne l =>
      obtain ⟨woken, s', hwake, hinv, hq⟩ := wakeOne_spec (l := l) h
      refine Or.inl ⟨s', ?_, hquiet rfl hinv hq⟩
      simp only [exec, hwake, ok_bind]
      rfl
  | wakeAll l =>
      obtain ⟨woken, s', hwake, hinv, hq⟩ := wakeAll_spec (l := l) h
      refine Or.inl ⟨s', ?_, hquiet rfl hinv hq⟩
      simp only [exec, hwake, ok_bind]
      rfl
  | wait t l i => exact Outcome.exec (wait_spec h he) rfl he
  | yieldCurrent t i => exact Outcome.exec (yieldCurrent_spec h he) rfl he
  | killCurrent t i => exact Outcome.exec (killCurrent_spec h he) rfl he
  | interrupt who frame ext =>
      obtain ⟨rfl, hout, hnum, -⟩ := he
      refine Or.inl ⟨beginInterrupt c s frame ext, ?_, h.of_threads rfl rfl rfl rfl,
        .interrupted frame ext hout⟩
      simp only [exec, handleInterrupt, if_neg (not_lt.mpr hnum)]
  | endInterrupt =>
      obtain ⟨s', hend, hinv, hd⟩ := endInterrupt_spec (c := c) h he
      exact Or.inl ⟨s', hend, hinv, .ended he hd⟩

end HydroxKernel.Sched
