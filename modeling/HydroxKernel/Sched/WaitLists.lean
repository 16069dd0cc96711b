import HydroxKernel.Sched.Consistency

/-!
# Wait Lists as Queues

A wait list is a queue of threads: `wait` puts the current thread at its end, `wake_one` takes
the first thread off that is not dead, and `wake_all` takes all of them off. Its links run
through the threads, which are on at most one wait list, and it owns a strong reference to each
thread on it, which is taken when the thread is put on the list and released when it is taken
off.

## Main results

* `fifo_of_runs`: in every run, the links of every wait list are right, its references are held
  exactly while a thread is on it, and every operation does what it does to a queue.
-/

namespace HydroxKernel.Sched

open Arch Links

/-- The scheduler, and how often the wait lists took a strong reference to each thread and
released it. -/
structure Waits where
  sched : State
  taken : ℕ → ℕ
  released : ℕ → ℕ

/-- The panics of the wait lists. -/
inductive WaitPanic
  /-- A panic of the scheduler. -/
  | sched (why : Panic)
  /-- `Thread::from_raw` for a reference that is not held. -/
  | notHeld
  deriving DecidableEq

/-- `ThreadWaitListInternal::dequeue`, with the reference. -/
def Waits.dequeue (w : Waits) (l : ℕ) : Except WaitPanic (Option ℕ × Waits) := do
  match ← (Sched.dequeue w.sched l).mapError .sched with
  | (none, s) => return (none, { w with sched := s })
  | (some t, s) => do
      ensure (w.released t < w.taken t) .notHeld
      return (some t, ⟨s, w.taken, Function.update w.released t (w.released t + 1)⟩)

/-- `ThreadWaitList::wait`, for the current thread `t` of some core. -/
def Waits.wait (w : Waits) (t l : ℕ) : Except WaitPanic Waits := do
  ensure ((w.sched.threads t).state = .running) (.sched .notRunning)
  let s ← (enqueue (w.sched.setState t (.waiting l)) l t).mapError .sched
  return ⟨s, Function.update w.taken t (w.taken t + 1), w.released⟩

/-- The loop of `ThreadWaitList::wake_one`. -/
def Waits.wakeOneLoop (l : ℕ) : ℕ → Waits → Except WaitPanic (Option ℕ × Waits)
  | 0, _ => .error (.sched .diverged)
  | n + 1, w => do
      match ← w.dequeue l with
      | (none, w) => return (none, w)
      | (some t, w) =>
          let (woken, s) ← (tryWake w.sched l t).mapError .sched
          if woken then return (some t, { w with sched := s })
          else wakeOneLoop l n { w with sched := s }

/-- `ThreadWaitList::wake_one`. -/
def Waits.wakeOne (w : Waits) (l : ℕ) : Except WaitPanic (Option ℕ × Waits) :=
  Waits.wakeOneLoop l (w.sched.created + 1) w

/-- The loop of `ThreadWaitList::wake_all`. -/
def Waits.wakeAllLoop (l : ℕ) : ℕ → Waits → ℕ → Except WaitPanic (ℕ × Waits)
  | 0, _, _ => .error (.sched .diverged)
  | n + 1, w, numWoken => do
      match ← w.dequeue l with
      | (none, w) => return (numWoken, w)
      | (some t, w) =>
          let (woken, s) ← (tryWake w.sched l t).mapError .sched
          wakeAllLoop l n { w with sched := s } (if woken then numWoken + 1 else numWoken)

/-- `ThreadWaitList::wake_all`. -/
def Waits.wakeAll (w : Waits) (l : ℕ) : Except WaitPanic (ℕ × Waits) :=
  Waits.wakeAllLoop l (w.sched.created + 1) w 0

/-- A ready thread of a process is switched to. -/
def runNext (s : State) (p : ℕ) : State :=
  match dequeueReadyThread s p with
  | (some t, s) => s.setState t .running
  | (none, s) => s

/-- What happens to threads and wait lists. Any number of threads can be running. -/
inductive WaitOp
  /-- `Thread::create_internal`. -/
  | create (p : ℕ) (regs : SavedRegisters) (join : ℕ)
  /-- `ThreadLock::wake`. -/
  | wake (t : ℕ)
  /-- The next ready thread of a process becomes running. -/
  | run (p : ℕ)
  /-- A thread dies. -/
  | die (t : ℕ)
  /-- `ThreadWaitList::wait`. -/
  | wait (t l : ℕ)
  /-- `ThreadWaitList::wake_one`. -/
  | wakeOne (l : ℕ)
  /-- `ThreadWaitList::wake_all`. -/
  | wakeAll (l : ℕ)

/-- What an operation returns. -/
inductive WaitResult
  | unit
  | thread (t : Option ℕ)
  | count (n : ℕ)
  deriving DecidableEq

/-- The effect of an operation. -/
def WaitOp.exec (w : Waits) : WaitOp → Except WaitPanic (WaitResult × Waits)
  | .create p regs join => do
      let (_, s) ← (createInternal w.sched p regs join).mapError .sched
      return (.unit, { w with sched := s })
  | .wake t => do
      let s ← (Sched.wake w.sched t).mapError .sched
      return (.unit, { w with sched := s })
  | .run p => .ok (.unit, { w with sched := runNext w.sched p })
  | .die t => .ok (.unit, { w with sched := w.sched.setState t .dead })
  | .wait t l => return (.unit, ← w.wait t l)
  | .wakeOne l => do
      let (woken, w) ← w.wakeOne l
      return (.thread woken, w)
  | .wakeAll l => do
      let (numWoken, w) ← w.wakeAll l
      return (.count numWoken, w)

/-- When an operation can be performed. Threads on a ready queue do not die. -/
def WaitOp.Enabled (w : Waits) : WaitOp → Prop
  | .create _ _ _ | .run _ | .wakeOne _ | .wakeAll _ => True
  | .wake t => (w.sched.threads t).state = .suspended
  | .die t => t < w.sched.created ∧ (w.sched.threads t).state ≠ .ready
  | .wait t _ => (w.sched.threads t).state = .running

/-- A scheduler without threads. -/
def Waits.new (frame : InterruptFrame) (ext : List UInt8) (msr : BitVec 64) : Waits :=
  ⟨.empty frame ext msr, fun _ => 0, fun _ => 0⟩

/-! ### Without the references -/

variable {s s' : State} {w w' : Waits} {l : ℕ}

/-- Taking a thread off a wait list, without its reference. -/
theorem Waits.dequeue_sched {t : Option ℕ} (h : w.dequeue l = .ok (t, w')) :
    Sched.dequeue w.sched l = .ok (t, w'.sched) := by
  rw [Waits.dequeue, bind_eq_ok] at h
  obtain ⟨⟨t', s⟩, hdeq, h⟩ := h
  rw [mapError_eq_ok] at hdeq
  cases t' with
  | none =>
      cases h
      exact hdeq
  | some t' =>
      obtain ⟨-, h⟩ := ensure_bind_eq_ok.mp h
      cases h
      exact hdeq

/-- `wake_one`, without the references. -/
theorem Waits.wakeOneLoop_sched {n : ℕ} {t : Option ℕ}
    (h : Waits.wakeOneLoop l n w = .ok (t, w')) :
    Sched.wakeOneLoop l n w.sched = .ok (t, w'.sched) := by
  induction n generalizing w with
  | zero => cases h
  | succ n ih =>
      rw [Waits.wakeOneLoop, bind_eq_ok] at h
      obtain ⟨⟨t', w₁⟩, hdeq, h⟩ := h
      rw [Sched.wakeOneLoop, Waits.dequeue_sched hdeq, ok_bind]
      cases t' with
      | none =>
          cases h
          rfl
      | some t' =>
          obtain ⟨⟨woken, s⟩, hwake, h⟩ := bind_eq_ok.mp h
          rw [mapError_eq_ok] at hwake
          dsimp only
          rw [hwake, ok_bind]
          cases woken with
          | true =>
              cases h
              rfl
          | false => exact ih h

/-- `wake_all`, without the references. -/
theorem Waits.wakeAllLoop_sched {n k m : ℕ} (h : Waits.wakeAllLoop l n w k = .ok (m, w')) :
    Sched.wakeAllLoop l n w.sched k = .ok (m, w'.sched) := by
  induction n generalizing w k with
  | zero => cases h
  | succ n ih =>
      rw [Waits.wakeAllLoop, bind_eq_ok] at h
      obtain ⟨⟨t', w₁⟩, hdeq, h⟩ := h
      rw [Sched.wakeAllLoop, Waits.dequeue_sched hdeq, ok_bind]
      cases t' with
      | none =>
          cases h
          rfl
      | some t' =>
          obtain ⟨⟨woken, s⟩, hwake, h⟩ := bind_eq_ok.mp h
          rw [mapError_eq_ok] at hwake
          dsimp only
          rw [hwake, ok_bind]
          exact ih h

/-! ### Queues of threads -/

/-- The threads on the ready queue of each process and on each wait list, the first one at the
front. -/
structure Fifo where
  ready : ℕ → List ℕ
  waiting : ℕ → List ℕ

/-- A thread is not dead. -/
def alive (s : State) (t : ℕ) : Bool := decide ((s.threads t).state ≠ .dead)

/-- Threads are put at the end of the ready queue of their process. -/
def Fifo.readied (q : Fifo) (s : State) (woken : List ℕ) (p : ℕ) : List ℕ :=
  q.ready p ++ woken.filter fun t => (s.threads t).process = p

/-- The threads that an operation wakes. -/
def WaitOp.woken (s : State) (q : Fifo) : WaitOp → List ℕ
  | .wakeOne l => ((q.waiting l).find? (alive s)).toList
  | .wakeAll l => (q.waiting l).filter (alive s)
  | .wake t => [t]
  | _ => []

/-- What an operation does to the queues. -/
def WaitOp.queues (s : State) (q : Fifo) : WaitOp → Fifo
  | .create _ _ _ | .die _ => q
  | .run p => { q with ready := Function.update q.ready p (q.ready p).tail }
  | .wait t l => { q with waiting := Function.update q.waiting l (q.waiting l ++ [t]) }
  | .wake t => { q with ready := q.readied s (woken s q (.wake t)) }
  | .wakeOne l =>
      ⟨q.readied s (woken s q (.wakeOne l)),
        Function.update q.waiting l ((q.waiting l).dropWhile fun t => !alive s t).tail⟩
  | .wakeAll l => ⟨q.readied s (woken s q (.wakeAll l)), Function.update q.waiting l []⟩

/-- What an operation returns, by the queues. -/
def WaitOp.result (s : State) (q : Fifo) : WaitOp → WaitResult
  | .wakeOne l => .thread ((q.waiting l).find? (alive s))
  | .wakeAll l => .count ((q.waiting l).filter (alive s)).length
  | _ => .unit

/-- What an operation makes of the state of a thread. -/
def WaitOp.state (s : State) (q : Fifo) (op : WaitOp) (x : ℕ) : ThreadState :=
  match op with
  | .create _ _ _ => if x = s.created then .suspended else (s.threads x).state
  | .run p => if (q.ready p).head? = some x then .running else (s.threads x).state
  | .die t => if x = t then .dead else (s.threads x).state
  | .wait t l => if x = t then .waiting l else (s.threads x).state
  | .wake _ | .wakeOne _ | .wakeAll _ =>
      if x ∈ op.woken s q then .ready else (s.threads x).state

/-- An operation is performed, on the threads and on the queues. -/
def WaitStep (s : Waits × Fifo) (op : WaitOp) (s' : Waits × Fifo) : Prop :=
  op.Enabled s.1 ∧ (∃ r, op.exec s.1 = .ok (r, s'.1)) ∧ s'.2 = op.queues s.1.sched s.2

/-- The wait lists are the queues, with the right links and references. -/
structure IsFifo (w : Waits) (q : Fifo) : Prop where
  head : ∀ l, (w.sched.waitLists l).head = (q.waiting l).head?
  tail : ∀ l, (w.sched.waitLists l).tail = (q.waiting l).getLast?
  links : ∀ l, DSeg (fun t => (w.sched.threads t).waitState.prev)
    (fun t => (w.sched.threads t).waitState.next) none (q.waiting l) none
  inverse : ∀ l, ∀ t ∈ q.waiting l, ∀ u, (w.sched.threads t).waitState.next = some u ↔
    u ∈ q.waiting l ∧ (w.sched.threads u).waitState.prev = some t
  valid : ∀ t, (w.sched.threads t).waitState.valid = true ↔ ∃! l, t ∈ q.waiting l
  ready : ∀ p, Chain (fun t => (w.sched.threads t).nextReady) (w.sched.processes p).readyHead
    (q.ready p) none
  ready_nodup : ∀ p, (q.ready p).Nodup
  held : ∀ t, w.taken t =
    w.released t + if (w.sched.threads t).waitState.valid = true then 1 else 0

/-! ### The invariant -/

/-- The queues hold the threads by their states; a thread that waits can have died. -/
structure WaitsFor (s : State) (q : Fifo) : Prop where
  linked : ∃ threads, Linked s q.ready threads q.waiting ∧ ∀ p, ∀ t ∈ threads p, t < s.created
  ready_iff : ∀ p t, t ∈ q.ready p ↔ (s.threads t).state = .ready ∧ (s.threads t).process = p
  waiting : ∀ l t, t ∈ q.waiting l →
    (s.threads t).state = .waiting l ∨ (s.threads t).state = .dead
  fresh : ∀ t, s.created ≤ t → (s.threads t).state = .dead ∧ ∀ l, t ∉ q.waiting l

/-- References are held to the threads on the wait lists, one to each. -/
structure Held (w : Waits) (q : Fifo) : Prop where
  on : ∀ l t, t ∈ q.waiting l → w.taken t = w.released t + 1
  off : ∀ t, (∀ l, t ∉ q.waiting l) → w.taken t = w.released t

/-- The invariant. -/
structure Waits.Inv (w : Waits) (q : Fifo) : Prop where
  waits : WaitsFor w.sched q
  held : Held w q

/-- The state of one thread is set. -/
structure Sets (s s' : State) (t : ℕ) (state : ThreadState) : Prop where
  state : ∀ x, (s'.threads x).state = if x = t then state else (s.threads x).state
  process : ∀ x, (s'.threads x).process = (s.threads x).process
  created : s'.created = s.created

variable {q q' : Fifo} {p t : ℕ} {state : ThreadState} {rest : List ℕ}

/-- Writing the state of a thread. -/
theorem sets_setState (s : State) (t : ℕ) (state : ThreadState) :
    Sets s (s.setState t state) t state :=
  ⟨setState_state s t state, setState_process s t state, rfl⟩

/-- The state is set again, after the links of the threads changed. -/
theorem Sets.trans {s₁ : State} {state₁ : ThreadState} (h : Sets s s₁ t state₁)
    (h' : Sets s₁ s' t state) : Sets s s' t state := by
  refine ⟨fun x => ?_, fun x => (h'.process x).trans (h.process x),
    h'.created.trans h.created⟩
  rw [h'.state, h.state]
  by_cases hx : x = t <;> simp [hx]

/-- A change of links that keeps the state of a thread. -/
theorem SameCore.sets (h : SameCore s s') (ht : (s.threads t).state = state) :
    Sets s s' t state := by
  refine ⟨fun x => ?_, h.process, h.created⟩
  rw [h.state]
  by_cases hx : x = t <;> simp [hx, ht]

/-- **One thread changes**, and the queues change for this thread only. -/
theorem WaitsFor.change (h : WaitsFor s q) (hs : Sets s s' t state) (hlt : t < s.created)
    (hl : ∃ threads, Linked s' q'.ready threads q'.waiting ∧ ∀ p, ∀ x ∈ threads p, x < s.created)
    (hr : ∀ p x, x ≠ t → (x ∈ q'.ready p ↔ x ∈ q.ready p))
    (hrt : ∀ p, t ∈ q'.ready p ↔ state = .ready ∧ (s.threads t).process = p)
    (hw : ∀ l x, x ≠ t → (x ∈ q'.waiting l ↔ x ∈ q.waiting l))
    (hwt : ∀ l, t ∈ q'.waiting l → state = .waiting l ∨ state = .dead) : WaitsFor s' q' := by
  refine ⟨by rwa [hs.created], fun p x => ?_, fun l x => ?_, fun x hx => ?_⟩
  · rw [hs.state, hs.process]
    by_cases hxt : x = t
    · subst hxt
      rw [if_pos rfl]
      exact hrt p
    · rw [if_neg hxt, hr p x hxt]
      exact h.ready_iff p x
  · rw [hs.state]
    by_cases hxt : x = t
    · subst hxt
      rw [if_pos rfl]
      exact hwt l
    · rw [if_neg hxt, hw l x hxt]
      exact h.waiting l x
  · rw [hs.created] at hx
    have hxt : x ≠ t := by omega
    rw [hs.state, if_neg hxt]
    exact ⟨(h.fresh x hx).1, fun l => (hw l x hxt).not.mpr ((h.fresh x hx).2 l)⟩

/-- A thread that is not dead has been created. -/
theorem WaitsFor.lt_created (h : WaitsFor s q) (ht : (s.threads t).state ≠ .dead) :
    t < s.created := by
  by_contra hge
  exact ht (h.fresh t (not_lt.mp hge)).1

/-- A thread that is neither waiting nor dead is on no wait list. -/
theorem WaitsFor.notMem_waiting (h : WaitsFor s q) (hw : ∀ l, (s.threads t).state ≠ .waiting l)
    (hd : (s.threads t).state ≠ .dead) (l : ℕ) : t ∉ q.waiting l := by
  intro ht
  exact (h.waiting l t ht).elim (hw l) hd

/-- The ready queues, when one thread is put on that of its process. -/
theorem readied_singleton (s : State) (q : Fifo) (t : ℕ) :
    q.readied s [t] = Function.update q.ready (s.threads t).process
      (q.ready (s.threads t).process ++ [t]) := by
  funext p
  by_cases hp : p = (s.threads t).process
  · subst hp
    simp [Fifo.readied]
  · simp [Fifo.readied, hp, Ne.symm hp]

/-- `wake` puts a suspended thread on the ready queue of its process. -/
theorem WaitsFor.wake (h : WaitsFor s q) (ht : (s.threads t).state = .suspended) :
    ∃ s', Sched.wake s t = .ok s' ∧ WaitsFor s' { q with ready := q.readied s [t] } ∧
      Sets s s' t .ready := by
  obtain ⟨threads, hl, hth⟩ := h.linked
  have hr : ∀ j, t ∉ q.ready j := fun j hj => by simp [(h.ready_iff j t).mp hj] at ht
  have hl₁ := hl.setState t .ready
  have henq := enqueueReadyThread_spec hl₁ (by simp [setState_state]) hr
  rw [setState_process] at henq
  obtain ⟨hl', hcore⟩ := hl₁.pushReady (p := (s.threads t).process) hr
  rw [← readied_singleton s q t] at hl'
  have hsets : Sets s (pushReady (s.setState t .ready) (s.threads t).process t) t .ready :=
    (sets_setState s t .ready).trans (hcore.sets (by simp [setState_state]))
  refine ⟨_, ?_, ?_, hsets⟩
  · simp only [Sched.wake, ensure_pos ht, ok_bind, henq]
  · refine h.change hsets (h.lt_created (by simp [ht])) ⟨threads, hl', hth⟩ (fun p x hx => ?_)
      (fun p => ?_) (fun _ _ _ => Iff.rfl) (fun l hmem => ?_)
    · rw [readied_singleton, mem_update_append]
      simp [hx]
    · rw [readied_singleton, mem_update_append]
      simp [hr, eq_comm]
    · exact absurd hmem (h.notMem_waiting (by simp [ht]) (by simp [ht]) l)

/-- The ready queues, when no thread is woken. -/
theorem readied_nil (s : State) (q : Fifo) : q.readied s [] = q.ready := by
  funext p
  simp [Fifo.readied]

/-- The ready queues depend on the wait lists only by the threads that are woken. -/
theorem readied_congr (h : ∀ x, (s'.threads x).process = (s.threads x).process)
    (waiting : ℕ → List ℕ) (xs : List ℕ) :
    Fifo.readied ⟨q.ready, waiting⟩ s' xs = q.readied s xs := by
  funext p
  simp only [Fifo.readied, h]

/-- The first thread is taken off a wait list. -/
theorem WaitsFor.dequeue (h : WaitsFor s q) (hq : q.waiting l = t :: rest) :
    ∃ s', Sched.dequeue s l = .ok (some t, s') ∧
      WaitsFor s' { q with waiting := Function.update q.waiting l rest } ∧ SameCore s s' ∧
      (∀ j, t ∉ Function.update q.waiting l rest j) ∧
      ∀ j x, x ≠ t → (x ∈ Function.update q.waiting l rest j ↔ x ∈ q.waiting j) := by
  obtain ⟨threads, hl, hth⟩ := h.linked
  have hmem : t ∈ q.waiting l := by simp [hq]
  have hnd := hl.waitLists.nodup l
  rw [hq, List.nodup_cons] at hnd
  have hlt : t < s.created := by
    by_contra hge
    exact (h.fresh t (not_lt.mp hge)).2 l hmem
  have hother : ∀ j x, x ≠ t → (x ∈ Function.update q.waiting l rest j ↔ x ∈ q.waiting j) := by
    intro j x hx
    by_cases hj : j = l
    · subst hj
      simp [hq, hx]
    · simp [hj]
  have hoff : ∀ j, t ∉ Function.update q.waiting l rest j := by
    intro j
    by_cases hj : j = l
    · subst hj
      simpa using hnd.1
    · rw [Function.update_of_ne hj]
      exact fun hmem' => hj (hl.waitLists.disjoint hmem' hmem)
  obtain ⟨s', hdeq, hl', hcore⟩ := hl.dequeue hq
  refine ⟨s', hdeq, ?_, hcore, hoff, hother⟩
  exact h.change (hcore.sets rfl) hlt ⟨threads, hl', hth⟩ (fun _ _ _ => Iff.rfl)
    (fun p => h.ready_iff p t) hother fun j hj => absurd hj (hoff j)

/-- A thread that was taken off a wait list is woken, unless it is dead. -/
theorem WaitsFor.tryWake (h : WaitsFor s q) (hlt : t < s.created)
    (ht : (s.threads t).state = .waiting l ∨ (s.threads t).state = .dead)
    (hoff : ∀ j, t ∉ q.waiting j) :
    ∃ s', Sched.tryWake s l t = .ok (alive s t, s') ∧
      WaitsFor s' { q with ready := q.readied s ([t].filter (alive s)) } ∧
      Sets s s' t (if alive s t = true then .ready else .dead) := by
  have hready : ∀ j, t ∉ q.ready j := fun j hj => by
    have := (h.ready_iff j t).mp hj
    rcases ht with hw | hd
    · simp [hw] at this
    · simp [hd] at this
  rcases ht with hw | hd
  · have halive : alive s t = true := by simp [alive, hw]
    -- a waiting thread is suspended for a moment, and then woken
    have hsets := sets_setState s t .suspended
    have h₂ : WaitsFor (s.setState t .suspended) q := by
      obtain ⟨threads, hl, hth⟩ := h.linked
      exact h.change hsets hlt ⟨threads, hl.setState t .suspended, hth⟩ (fun _ _ _ => Iff.rfl)
        (by simp [hready]) (fun _ _ _ => Iff.rfl) fun j hj => absurd hj (hoff j)
    obtain ⟨s', hwake, h', hsets'⟩ := h₂.wake (t := t) (by simp [setState_state])
    refine ⟨s', ?_, ?_, ?_⟩
    · simp only [Sched.tryWake, hw, if_true, hwake, ok_bind, halive]
    · have hfilter : [t].filter (alive s) = [t] := by simp [halive]
      rw [readied_congr hsets.process] at h'
      rw [hfilter]
      exact h'
    · rw [if_pos halive]
      exact hsets.trans hsets'
  · have halive : alive s t = false := by simp [alive, hd]
    have hfilter : [t].filter (alive s) = [] := by simp [halive]
    refine ⟨s, ?_, ?_, ?_⟩
    · simp only [Sched.tryWake, hd, halive]
    · rw [hfilter, readied_nil]
      exact h
    · rw [halive]
      exact ⟨fun x => by by_cases hx : x = t <;> simp [hx, hd], fun _ => rfl, rfl⟩

/-! ### Waking threads -/

/-- The references do not depend on the scheduler and on the ready queues. -/
theorem Held.congr (h : Held w q) (s : State) (ready : ℕ → List ℕ) :
    Held { w with sched := s } ⟨ready, q.waiting⟩ := ⟨h.on, h.off⟩

/-- The references, when a thread was taken off the front of a wait list. -/
theorem Held.release (h : Held w q) (hq : q.waiting l = t :: rest)
    (hoff : ∀ j, t ∉ Function.update q.waiting l rest j)
    (hother : ∀ j x, x ≠ t → (x ∈ Function.update q.waiting l rest j ↔ x ∈ q.waiting j))
    {ready : ℕ → List ℕ} {s : State} :
    Held ⟨s, w.taken, Function.update w.released t (w.released t + 1)⟩
      ⟨ready, Function.update q.waiting l rest⟩ := by
  constructor
  · intro j x hx
    have hne : x ≠ t := fun heq => hoff j (heq ▸ hx)
    dsimp only
    rw [Function.update_of_ne hne]
    exact h.on j x ((hother j x hne).mp hx)
  · intro x hx
    dsimp only
    by_cases hxt : x = t
    · subst hxt
      rw [Function.update_self]
      exact h.on l x (by simp [hq])
    · rw [Function.update_of_ne hxt]
      exact h.off x fun j hj => hx j ((hother j x hxt).mpr hj)

/-- **The first thread is taken off a wait list**, and its reference is released. -/
theorem Waits.Inv.dequeue (h : w.Inv q) (hq : q.waiting l = t :: rest) :
    ∃ w', w.dequeue l = .ok (some t, w') ∧
      w'.Inv { q with waiting := Function.update q.waiting l rest } ∧
      SameCore w.sched w'.sched ∧
      (∀ j, t ∉ Function.update q.waiting l rest j) ∧
      ∀ j x, x ≠ t → (x ∈ Function.update q.waiting l rest j ↔ x ∈ q.waiting j) := by
  obtain ⟨s', hdeq, h', hcore, hoff, hother⟩ := h.waits.dequeue hq
  have htaken : w.released t < w.taken t := by
    rw [h.held.on l t (by simp [hq])]
    exact Nat.lt_succ_self _
  refine ⟨⟨s', w.taken, Function.update w.released t (w.released t + 1)⟩, ?_,
    ⟨h', h.held.release hq hoff hother⟩, hcore, hoff, hother⟩
  rw [Waits.dequeue, hdeq]
  simp only [Except.mapError, ok_bind, ensure_pos htaken]
  rfl

/-- **A round of waking**: the first thread is taken off the wait list, its reference is
released, and it is woken unless it is dead. -/
theorem Waits.Inv.round (h : w.Inv q) (hq : q.waiting l = t :: rest) :
    ∃ w₁ s', w.dequeue l = .ok (some t, w₁) ∧
      tryWake w₁.sched l t = .ok (alive w.sched t, s') ∧
      Waits.Inv { w₁ with sched := s' }
        ⟨q.readied w.sched ([t].filter (alive w.sched)), Function.update q.waiting l rest⟩ ∧
      Sets w.sched s' t (if alive w.sched t = true then .ready else .dead) := by
  obtain ⟨w₁, hdeq, h₁, hcore, hoff, -⟩ := h.dequeue hq
  have hmem : t ∈ q.waiting l := by simp [hq]
  have hlt : t < w₁.sched.created := by
    rw [hcore.created]
    by_contra hge
    exact (h.waits.fresh t (not_lt.mp hge)).2 l hmem
  obtain ⟨s', hwake, h', hsets⟩ := h₁.waits.tryWake hlt
    (by rw [hcore.state]; exact h.waits.waiting l t hmem) hoff
  have halive : alive w₁.sched = alive w.sched := by
    funext x
    rw [alive, hcore.state, alive]
  rw [halive] at hwake h' hsets
  rw [readied_congr hcore.process] at h'
  exact ⟨w₁, s', hdeq, hwake, ⟨h', h₁.held.congr s' _⟩,
    ⟨fun x => by rw [hsets.state, hcore.state], fun x => (hsets.process x).trans (hcore.process x),
      hsets.created.trans hcore.created⟩⟩

/-- Nothing is taken off an empty wait list. -/
theorem Waits.Inv.dequeue_nil (h : w.Inv q) (hq : q.waiting l = []) :
    w.dequeue l = .ok (none, w) := by
  obtain ⟨threads, hl, -⟩ := h.waits.linked
  rw [Waits.dequeue, hl.dequeue_nil hq]
  rfl

/-- Waking a thread does not kill any, or bring any back. -/
theorem Sets.alive_eq (h : Sets s s' t (if alive s t = true then .ready else .dead)) :
    alive s' = alive s := by
  funext x
  rw [alive, h.state]
  by_cases hx : x = t
  · subst hx
    cases ha : alive s x
    · simp
    · simp
  · rw [if_neg hx, alive]

/-- The ready queues, when threads are put on them one after another. -/
theorem readied_append (h : ∀ x, (s'.threads x).process = (s.threads x).process)
    (waiting : ℕ → List ℕ) (xs ys : List ℕ) :
    Fifo.readied ⟨q.readied s xs, waiting⟩ s' ys = q.readied s (xs ++ ys) := by
  funext p
  simp only [Fifo.readied, h, List.filter_append, List.append_assoc]

/-- Emptying an empty wait list does nothing. -/
theorem Fifo.update_nil (hq : q.waiting l = []) :
    (⟨q.ready, Function.update q.waiting l []⟩ : Fifo) = q := by
  rw [← hq, Function.update_eq_self]

/-- **`wake_one`** takes the dead threads at the front off the wait list, and wakes the first
thread that is not dead. -/
theorem Waits.Inv.wakeOneLoop {n : ℕ} (h : w.Inv q) (hn : (q.waiting l).length < n) :
    ∃ w', Waits.wakeOneLoop l n w = .ok ((q.waiting l).find? (alive w.sched), w') ∧
      w'.Inv (WaitOp.queues w.sched q (.wakeOne l)) ∧
      ∀ x, (w'.sched.threads x).state = WaitOp.state w.sched q (.wakeOne l) x := by
  induction n generalizing w q with
  | zero => omega
  | succ n ih =>
      cases hq : q.waiting l with
      | nil =>
          have hqueues : WaitOp.queues w.sched q (.wakeOne l) = q := by
            simp [WaitOp.queues, WaitOp.woken, hq, readied_nil, Fifo.update_nil hq]
          refine ⟨w, ?_, hqueues.symm ▸ h, fun x => ?_⟩
          · rw [Waits.wakeOneLoop, h.dequeue_nil hq]
            rfl
          · simp [WaitOp.state, WaitOp.woken, hq]
      | cons t rest =>
          obtain ⟨w₁, s', hdeq, hwake, hinv, hsets⟩ := h.round hq
          rw [Waits.wakeOneLoop, hdeq]
          simp only [ok_bind, hwake, Except.mapError]
          by_cases halive : alive w.sched t = true
          · have hqueues : WaitOp.queues w.sched q (.wakeOne l) =
                ⟨q.readied w.sched ([t].filter (alive w.sched)),
                  Function.update q.waiting l rest⟩ := by
              simp [WaitOp.queues, WaitOp.woken, hq, halive]
            rw [if_pos halive] at hsets ⊢
            refine ⟨_, ?_, hqueues.symm ▸ hinv, fun x => ?_⟩
            · rw [List.find?_cons_of_pos halive]
              rfl
            · rw [hsets.state]
              simp [WaitOp.state, WaitOp.woken, hq, halive]
          · have hlen : (Function.update q.waiting l rest l).length < n := by
              rw [hq, List.length_cons] at hn
              rw [Function.update_self]
              omega
            have hfilter : [t].filter (alive w.sched) = [] := by simp [halive]
            rw [hfilter, readied_nil] at hinv
            obtain ⟨w', hloop, hinv', hstate⟩ := ih hinv hlen
            have ha := hsets.alive_eq
            dsimp only at hloop hinv' hstate
            rw [if_neg halive]
            refine ⟨w', ?_, ?_, fun x => ?_⟩
            · rw [hloop, ha, List.find?_cons_of_neg halive, Function.update_self]
            · have hqueues : WaitOp.queues s' ⟨q.ready, Function.update q.waiting l rest⟩
                  (.wakeOne l) = WaitOp.queues w.sched q (.wakeOne l) := by
                simp only [WaitOp.queues, WaitOp.woken, ha, Function.update_self, hq,
                  Function.update_idem, List.find?_cons_of_neg halive]
                rw [readied_congr hsets.process]
                simp [halive]
              exact hqueues ▸ hinv'
            · rw [hstate, WaitOp.state, WaitOp.state, hsets.state]
              simp only [WaitOp.woken, ha, Function.update_self, hq,
                List.find?_cons_of_neg halive]
              by_cases hx : x = t
              · subst hx
                have hdead : (w.sched.threads x).state = .dead := by simpa [alive] using halive
                simp [halive, hdead]
              · rw [if_neg hx]

/-- **`wake_all`** takes all threads off the wait list, and wakes those that are not dead. -/
theorem Waits.Inv.wakeAllLoop {n k : ℕ} (h : w.Inv q) (hn : (q.waiting l).length < n) :
    ∃ w', Waits.wakeAllLoop l n w k =
        .ok (k + ((q.waiting l).filter (alive w.sched)).length, w') ∧
      w'.Inv (WaitOp.queues w.sched q (.wakeAll l)) ∧
      ∀ x, (w'.sched.threads x).state = WaitOp.state w.sched q (.wakeAll l) x := by
  induction n generalizing w q k with
  | zero => omega
  | succ n ih =>
      cases hq : q.waiting l with
      | nil =>
          have hqueues : WaitOp.queues w.sched q (.wakeAll l) = q := by
            simp [WaitOp.queues, WaitOp.woken, hq, readied_nil, Fifo.update_nil hq]
          refine ⟨w, ?_, hqueues.symm ▸ h, fun x => ?_⟩
          · rw [Waits.wakeAllLoop, h.dequeue_nil hq]
            rfl
          · simp [WaitOp.state, WaitOp.woken, hq]
      | cons t rest =>
          obtain ⟨w₁, s', hdeq, hwake, hinv, hsets⟩ := h.round hq
          have hlen : (Function.update q.waiting l rest l).length < n := by
            rw [hq, List.length_cons] at hn
            rw [Function.update_self]
            omega
          obtain ⟨w', hloop, hinv', hstate⟩ :=
            @ih _ _ (if alive w.sched t = true then k + 1 else k) hinv hlen
          have ha := hsets.alive_eq
          have hsplit : (t :: rest).filter (alive w.sched) =
              [t].filter (alive w.sched) ++ rest.filter (alive w.sched) := by
            rw [← List.filter_append, List.singleton_append]
          dsimp only at hloop hinv' hstate
          refine ⟨w', ?_, ?_, fun x => ?_⟩
          · rw [Waits.wakeAllLoop, hdeq]
            simp only [ok_bind, hwake, Except.mapError]
            rw [hloop, ha, Function.update_self, hsplit, List.length_append]
            by_cases halive : alive w.sched t = true
            · simp [halive, Nat.add_assoc]
            · simp [halive]
          · have hqueues : WaitOp.queues s' ⟨q.readied w.sched ([t].filter (alive w.sched)),
                Function.update q.waiting l rest⟩ (.wakeAll l) =
                  WaitOp.queues w.sched q (.wakeAll l) := by
              simp only [WaitOp.queues, WaitOp.woken, ha, Function.update_self, hq,
                Function.update_idem, readied_append hsets.process, hsplit]
            exact hqueues ▸ hinv'
          · rw [hstate, WaitOp.state, WaitOp.state, hsets.state]
            simp only [WaitOp.woken, ha, Function.update_self, hq, List.mem_filter, List.mem_cons]
            by_cases hx : x = t
            · subst hx
              cases halive : alive w.sched x
              · have hdead : (w.sched.threads x).state = .dead := by
                  simpa [alive] using halive
                simp [hdead]
              · simp
            · simp [hx]

/-- A wait list is no longer than the number of threads. -/
theorem WaitsFor.length_waiting_le (h : WaitsFor s q) : (q.waiting l).length ≤ s.created := by
  obtain ⟨threads, hl, -⟩ := h.linked
  have hsub : q.waiting l ⊆ List.range s.created := fun x hx => by
    rw [List.mem_range]
    by_contra hge
    exact (h.fresh x (not_lt.mp hge)).2 l hx
  simpa using ((hl.waitLists.nodup l).subperm hsub).length_le

/-! ### The other operations -/

/-- **`wait`** puts a running thread at the end of a wait list. -/
theorem Waits.Inv.wait (h : w.Inv q) (ht : (w.sched.threads t).state = .running) (l : ℕ) :
    ∃ w', w.wait t l = .ok w' ∧ w'.Inv (WaitOp.queues w.sched q (.wait t l)) ∧
      Sets w.sched w'.sched t (.waiting l) := by
  obtain ⟨threads, hl, hth⟩ := h.waits.linked
  have hoff := h.waits.notMem_waiting (t := t) (by simp [ht]) (by simp [ht])
  obtain ⟨s', henq, hl', hcore⟩ := (hl.setState t (.waiting l)).enqueue (l := l) hoff
  have hsets : Sets w.sched s' t (.waiting l) :=
    (sets_setState w.sched t (.waiting l)).trans (hcore.sets (by simp [setState_state]))
  refine ⟨⟨s', Function.update w.taken t (w.taken t + 1), w.released⟩, ?_, ⟨?_, ?_, ?_⟩, hsets⟩
  · rw [Waits.wait, ensure_pos ht, ok_bind, henq]
    rfl
  · refine h.waits.change hsets (h.waits.lt_created (by simp [ht])) ⟨threads, hl', hth⟩
      (fun _ _ _ => Iff.rfl) (fun p => ?_) (fun j x hx => ?_) fun j hj => ?_
    · simp only [WaitOp.queues]
      rw [h.waits.ready_iff, ht]
      simp
    · simp [WaitOp.queues, mem_update_append, hx]
    · rw [WaitOp.queues, mem_update_append] at hj
      rcases hj with hj | ⟨-, rfl⟩
      · exact absurd hj (hoff j)
      · exact .inl rfl
  · intro j x hx
    rw [WaitOp.queues, mem_update_append] at hx
    rcases hx with hx | ⟨rfl, rfl⟩
    · have hne : x ≠ t := fun heq => hoff j (heq ▸ hx)
      dsimp only
      rw [Function.update_of_ne hne]
      exact h.held.on j x hx
    · dsimp only
      rw [Function.update_self, h.held.off x hoff]
  · intro x hx
    have hx' : ∀ j, x ∉ q.waiting j ∧ ¬ (x = t ∧ j = l) := fun j => by
      rw [← not_or, ← mem_update_append]
      exact hx j
    have hne : x ≠ t := fun heq => (hx' l).2 ⟨heq, rfl⟩
    dsimp only
    rw [Function.update_of_ne hne]
    exact h.held.off x fun j => (hx' j).1

/-- A new thread is suspended. -/
theorem WaitsFor.create (h : WaitsFor s q) (p : ℕ) (regs : SavedRegisters) (join : ℕ) :
    ∃ s', createInternal s p regs join = .ok (s.created, s') ∧ WaitsFor s' q ∧
      ∀ x, (s'.threads x).state = if x = s.created then .suspended else (s.threads x).state := by
  obtain ⟨threads, hl, hth⟩ := h.linked
  obtain ⟨hdead, hoff⟩ := h.fresh s.created le_rfl
  obtain ⟨s', hs', hl', hcr⟩ := hl.create p regs join
    (fun j hj => by simp [(h.ready_iff j _).mp hj] at hdead)
    (fun j hj => Nat.lt_irrefl _ (hth j _ hj)) hoff
  refine ⟨s', hs', ⟨⟨_, hl', fun j x hx => ?_⟩, fun j x => ?_, fun j x hx => ?_, fun x hx => ?_⟩,
    hcr.state⟩
  · rw [hcr.created]
    rcases mem_update_append.mp hx with hx | ⟨rfl, -⟩
    · exact Nat.lt_succ_of_lt (hth j x hx)
    · exact Nat.lt_succ_self _
  · rw [hcr.state, hcr.process, h.ready_iff]
    by_cases hx : x = s.created
    · simp [hx, hdead]
    · simp [hx]
  · have hne : x ≠ s.created := fun heq => hoff j (heq ▸ hx)
    rw [hcr.state, if_neg hne]
    exact h.waiting j x hx
  · rw [hcr.created] at hx
    have hne : x ≠ s.created := by omega
    rw [hcr.state, if_neg hne]
    exact h.fresh x (by omega)

/-- The first ready thread of a process becomes running. -/
theorem WaitsFor.run (h : WaitsFor s q) (p : ℕ) :
    WaitsFor (runNext s p) (WaitOp.queues s q (.run p)) ∧
      ∀ x, ((runNext s p).threads x).state = WaitOp.state s q (.run p) x := by
  obtain ⟨threads, hl, hth⟩ := h.linked
  cases hq : q.ready p with
  | nil =>
      have hqueues : WaitOp.queues s q (.run p) = q := by
        rw [WaitOp.queues, hq, List.tail_nil, ← hq, Function.update_eq_self]
      rw [runNext, hl.dequeueReady_nil hq, hqueues]
      exact ⟨h, fun x => by simp [WaitOp.state, hq]⟩
  | cons t rest =>
      obtain ⟨s₁, hdeq, hl₁, hcore⟩ := hl.dequeueReady hq
      obtain ⟨ht, hp⟩ := (h.ready_iff p t).mp (by simp [hq])
      have hnd := hl.readyQueues.nodup p
      rw [hq, List.nodup_cons] at hnd
      have hsets := (hcore.sets ht).trans (sets_setState s₁ t .running)
      have hrun : runNext s p = s₁.setState t .running := by rw [runNext, hdeq]
      have hqueues : WaitOp.queues s q (.run p) =
          { q with ready := Function.update q.ready p rest } := by
        rw [WaitOp.queues, hq, List.tail_cons]
      rw [hrun, hqueues]
      refine ⟨h.change hsets (h.lt_created (by simp [ht]))
        ⟨threads, hl₁.setState t .running, hth⟩ (fun j x hx => ?_) (fun j => ?_)
        (fun _ _ _ => Iff.rfl) (fun j hj => ?_), fun x => ?_⟩
      · by_cases hj : j = p
        · subst hj
          simp [hq, hx]
        · simp [hj]
      · by_cases hj : j = p
        · subst hj
          simp [hnd.1]
        · simp [hj, h.ready_iff, hp, Ne.symm hj]
      · exact absurd hj (h.notMem_waiting (by simp [ht]) (by simp [ht]) j)
      · rw [hsets.state, WaitOp.state, hq, List.head?_cons]
        simp [eq_comm]

/-- A thread that is not ready dies where it is. -/
theorem WaitsFor.die (h : WaitsFor s q) (hlt : t < s.created)
    (ht : (s.threads t).state ≠ .ready) : WaitsFor (s.setState t .dead) q := by
  obtain ⟨threads, hl, hth⟩ := h.linked
  refine h.change (sets_setState s t .dead) hlt ⟨threads, hl.setState t .dead, hth⟩
    (fun _ _ _ => Iff.rfl) (fun p => ?_) (fun _ _ _ => Iff.rfl) fun _ _ => .inr rfl
  simp [h.ready_iff, ht]

/-- **What an operation does.** It returns, and it does to the queues and to the states of the
threads what it is for. -/
theorem Waits.Inv.exec (h : w.Inv q) {op : WaitOp} (hop : op.Enabled w) :
    ∃ w', op.exec w = .ok (op.result w.sched q, w') ∧ w'.Inv (op.queues w.sched q) ∧
      ∀ x, (w'.sched.threads x).state = op.state w.sched q x := by
  cases op with
  | create p regs join =>
      obtain ⟨s', hs', h', hstate⟩ := h.waits.create p regs join
      refine ⟨{ w with sched := s' }, ?_, ⟨h', h.held.congr s' q.ready⟩, hstate⟩
      rw [WaitOp.exec, hs']
      rfl
  | wake t =>
      obtain ⟨s', hs', h', hsets⟩ := h.waits.wake hop
      refine ⟨{ w with sched := s' }, ?_, ⟨h', h.held.congr s' _⟩, fun x => ?_⟩
      · rw [WaitOp.exec, hs']
        rfl
      · rw [hsets.state]
        simp [WaitOp.state, WaitOp.woken]
  | run p =>
      obtain ⟨h', hstate⟩ := h.waits.run p
      exact ⟨_, rfl, ⟨h', h.held.congr _ _⟩, hstate⟩
  | die t =>
      exact ⟨_, rfl, ⟨h.waits.die hop.1 hop.2, h.held.congr _ _⟩,
        (sets_setState w.sched t .dead).state⟩
  | wait t l =>
      obtain ⟨w', hw', h', hsets⟩ := h.wait hop l
      refine ⟨w', ?_, h', hsets.state⟩
      rw [WaitOp.exec, hw']
      rfl
  | wakeOne l =>
      obtain ⟨w', hw', h', hstate⟩ := h.wakeOneLoop (l := l)
        (Nat.lt_succ_of_le h.waits.length_waiting_le)
      refine ⟨w', ?_, h', hstate⟩
      rw [WaitOp.exec, Waits.wakeOne, hw']
      rfl
  | wakeAll l =>
      obtain ⟨w', hw', h', hstate⟩ := h.wakeAllLoop (l := l) (k := 0)
        (Nat.lt_succ_of_le h.waits.length_waiting_le)
      refine ⟨w', ?_, h', hstate⟩
      rw [WaitOp.exec, Waits.wakeAll, hw', Nat.zero_add]
      rfl

/-- Without threads, nothing waits. -/
theorem Waits.new_inv (frame : InterruptFrame) (ext : List UInt8) (msr : BitVec 64) :
    (Waits.new frame ext msr).Inv ⟨fun _ => [], fun _ => []⟩ :=
  ⟨⟨⟨_, linked_empty frame ext msr, by simp⟩, by simp [Waits.new, State.empty, Thread.none],
    by simp, by simp [Waits.new, State.empty, Thread.none]⟩, by simp, fun _ _ => rfl⟩

/-- The invariant describes the wait lists. -/
theorem Waits.Inv.isFifo (h : w.Inv q) : IsFifo w q := by
  obtain ⟨threads, hl, -⟩ := h.waits.linked
  refine ⟨hl.waitLists.head_eq, hl.waitLists.tail_eq, hl.waitLists.dseg, fun l t ht u => ?_,
    fun t => ?_, fun p => ?_, hl.readyQueues.nodup, fun t => ?_⟩
  · constructor
    · intro hnext
      obtain ⟨xs, ys, hq⟩ := List.append_of_mem ht
      obtain ⟨-, -, hhead, -⟩ := hl.waitLists.focus hq
      have hu : u ∈ ys := List.mem_of_mem_head? (hhead.symm.trans hnext)
      exact ⟨by simp [hq, hu], (hl.waitLists.dseg l).prev_of_next ht (by simp) hnext⟩
    · rintro ⟨hu, hprev⟩
      exact (hl.waitLists.dseg l).next_of_prev ht hu (by simp) hprev
  · rw [hl.valid]
    exact ⟨fun ⟨l, hl'⟩ => ⟨l, hl', fun j hj => hl.waitLists.disjoint hj hl'⟩,
      fun ⟨l, hl', _⟩ => ⟨l, hl'⟩⟩
  · have hchain := (hl.readyQueues.dseg p).chain
    rwa [Option.or_none, ← hl.readyQueues.head_eq p] at hchain
  · split
    next hvalid =>
      obtain ⟨l, hmem⟩ := (hl.valid t).mp hvalid
      exact h.held.on l t hmem
    next hvalid =>
      rw [hl.valid, not_exists] at hvalid
      exact h.held.off t hvalid

/-- **Wait lists are queues.** In every run of waiting, waking and dying threads on any number
of wait lists, the links of every list are right, a thread is marked as waiting exactly while it
is on one list, and a reference to it is held exactly then. Every operation returns, and it does
to the queues and to the states of the threads what it is for: `wake_one` returns the thread
that has waited longest of those that are not dead, `wake_all` the number of the threads that
are not dead, and each thread that is woken becomes ready and is put on the ready queue. -/
theorem fifo_of_runs {frame : InterruptFrame} {ext : List UInt8} {msr : BitVec 64}
    {ops : List WaitOp} {s : Waits × Fifo}
    (h : Runs WaitStep (.new frame ext msr, ⟨fun _ => [], fun _ => []⟩) ops s) :
    IsFifo s.1 s.2 ∧
    ∀ op : WaitOp, op.Enabled s.1 → ∃ w', op.exec s.1 = .ok (op.result s.1.sched s.2, w') ∧
      IsFifo w' (op.queues s.1.sched s.2) ∧
      ∀ x, (w'.sched.threads x).state = op.state s.1.sched s.2 x := by
  have hinv : s.1.Inv s.2 := by
    refine h.invariant (P := fun s => s.1.Inv s.2) (Waits.new_inv frame ext msr)
      fun s op s' hs hstep => ?_
    obtain ⟨hop, ⟨r, hexec⟩, hq⟩ := hstep
    obtain ⟨w', hw', h', -⟩ := hs.exec hop
    obtain ⟨-, rfl⟩ := Prod.mk.inj (Except.ok.inj (hexec.symm.trans hw'))
    rw [hq]
    exact h'
  refine ⟨hinv.isFifo, fun op hop => ?_⟩
  obtain ⟨w', hw', h', hstate⟩ := hinv.exec hop
  exact ⟨w', hw', h'.isFifo, hstate⟩

/-- Two threads wait on a wait list, and the first one dies. -/
def deadFirst : List WaitOp :=
  [.create 0 ⟨.new, []⟩ 0, .create 0 ⟨.new, []⟩ 1, .wake 0, .wake 1, .run 0, .run 0, .wait 0 7,
    .wait 1 7, .die 0]

/-- The state behind an operation. -/
def WaitOp.after (s : Waits × Fifo) (op : WaitOp) : Waits × Fifo :=
  ((op.exec s.1).toOption.elim s.1 Prod.snd, op.queues s.1.sched s.2)

/-- The state behind `deadFirst`. -/
def deadAtFront : Waits × Fifo :=
  deadFirst.foldl WaitOp.after (.new int30Frame [] 0, ⟨fun _ => [], fun _ => []⟩)

/-- An operation that returns leads to the state behind it. -/
theorem WaitOp.step_after {s : Waits × Fifo} {op : WaitOp} (hop : op.Enabled s.1)
    (hok : (op.exec s.1).isOk = true) : WaitStep s op (op.after s) := by
  refine ⟨hop, ?_, rfl⟩
  rw [after]
  cases hexec : op.exec s.1 with
  | ok r => exact ⟨r.1, rfl⟩
  | error e =>
      rw [hexec] at hok
      cases hok

/-- The operations of the example are a run. -/
theorem runs_deadFirst :
    Runs WaitStep (.new int30Frame [] 0, ⟨fun _ => [], fun _ => []⟩) deadFirst deadAtFront :=
  .cons (WaitOp.step_after trivial rfl) (.cons (WaitOp.step_after trivial rfl)
    (.cons (WaitOp.step_after rfl rfl) (.cons (WaitOp.step_after rfl rfl)
    (.cons (WaitOp.step_after trivial rfl) (.cons (WaitOp.step_after trivial rfl)
    (.cons (WaitOp.step_after rfl rfl) (.cons (WaitOp.step_after rfl rfl)
    (.cons (WaitOp.step_after ⟨by decide, fun h => nomatch h⟩ rfl) .refl))))))))

/-- The theorem for this run: the second thread is woken. -/
theorem fifo_of_runs_deadFirst :
    ∃ w', WaitOp.exec deadAtFront.1 (.wakeOne 7) = .ok (.thread (some 1), w') := by
  obtain ⟨w', hw', -⟩ := (fifo_of_runs runs_deadFirst).2 (.wakeOne 7) trivial
  exact ⟨w', hw'⟩

end HydroxKernel.Sched
