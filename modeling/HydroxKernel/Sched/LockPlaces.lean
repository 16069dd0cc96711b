import HydroxKernel.Sched.Locks

/-!
# Who Holds a Lock, and Where a Thread Is

Two invariants of the operations of the scheduler on many cores. A lock is held by the core
whose place in the code says so, once; and a thread is at one place at most, in the state that
belongs to that place: a core runs it, a core has it in hand, the ready queue of its process
has it, or one wait list.

## Main results

* `Locked.step`: every step keeps the record of who holds the locks.
* `Placed.step`: every step leaves every thread at one place.
-/

namespace HydroxKernel.Locks

open Sched (ThreadState)
open Future (FutureWait)

variable {s s' : State} {d d' : Data} {c t : ℕ} {w : Bool} {l : Lock} {pc pc' : Pc}

/-! ### Locks -/

/-- After an acquisition the core holds one lock more, and no thread changes its process. -/
theorem held_acquire (h : action d c w pc = .acquire l (d', pc')) :
    (pc'.held d.process).Perm (l :: pc.held d.process) ∧ d'.process = d.process := by
  cases pc with
  | idle | panicked => cases h
  | wakeThread t =>
      simp only [action, wake, Action.acquire.injEq] at h
      obtain ⟨rfl, h⟩ := h
      split at h <;> cases h <;> simp [Pc.held, Data.setState, Enqueuer.held]
  | wakeProcess k t =>
      simp only [action, enqueueReadyThread, Action.acquire.injEq] at h
      obtain ⟨rfl, h⟩ := h
      split at h <;> cases h <;> simp [Pc.held]
  | dequeue k l =>
      simp only [action, dequeue, Action.acquire.injEq] at h
      obtain ⟨rfl, h⟩ := h
      split at h <;> cases h <;> simp [Pc.held, Data.setWaiting]
  | tryWake k l t =>
      simp only [action, tryWake, wake, Action.acquire.injEq] at h
      obtain ⟨rfl, h⟩ := h
      split at h
      · cases h
        simp [Pc.held]
      · split at h
        · split at h <;> cases h <;> simp [Pc.held, Data.setState, Enqueuer.held]
        · cases h
          simp [Pc.held]
      · cases h
        simp [Pc.held]
  | killThread t =>
      simp only [action, killThread, Action.acquire.injEq] at h
      obtain ⟨rfl, h⟩ := h
      split at h <;> cases h <;> simp [Pc.held, Data.setState, List.Perm.swap]
  | finish t =>
      simp only [action, finish, Action.acquire.injEq] at h
      obtain ⟨rfl, h⟩ := h
      split at h <;> cases h <;>
        simp [Pc.held, Caller.held, Data.setJoin, List.Perm.swap]
  | yieldThread t =>
      simp only [action, yieldThread, Action.acquire.injEq] at h
      obtain ⟨rfl, h⟩ := h
      split at h <;> cases h <;> simp [Pc.held, Data.setState]
  | switchThread t =>
      simp only [action, enqueueReadyThread, Action.acquire.injEq] at h
      obtain ⟨rfl, h⟩ := h
      split at h <;> cases h <;> simp [Pc.held, Enqueuer.held, List.Perm.swap]
  | nextThread t =>
      simp only [action, nextThread, Action.acquire.injEq] at h
      obtain ⟨rfl, h⟩ := h
      split at h <;> cases h <;> simp [Pc.held, Data.setState]
  | listProcesses p =>
      simp only [action, Action.acquire.injEq, Prod.mk.injEq] at h
      obtain ⟨rfl, rfl, rfl⟩ := h
      split <;> simp [Pc.held]
  | listThreads p ts =>
      cases ts with
      | nil => cases h
      | cons t ts =>
          cases h
          refine ⟨?_, rfl⟩
          exact (List.perm_append_singleton (Lock.thread t) [.processList, .process p])
  | _ => cases h <;> simp [Pc.held, Data.setErrOnBlock, List.Perm.swap]

/-- After a release the core holds one lock less, and no thread changes its process. -/
theorem held_release (h : action d c w pc = .release l (d', pc')) :
    (pc.held d.process).Perm (l :: pc'.held d.process) ∧ d'.process = d.process := by
  cases pc with
  | enqueueDrop k t =>
      cases h
      exact ⟨List.Perm.swap _ _ _, rfl⟩
  | enqueuePush k t =>
      cases h
      refine ⟨?_, rfl⟩
      cases k with
      | tryWake k l => cases k <;> exact List.Perm.refl _
      | _ => exact List.Perm.refl _
  | unlockList k l again =>
      cases h
      refine ⟨?_, rfl⟩
      cases again with
      | true => exact List.Perm.refl _
      | false => cases k <;> exact List.Perm.refl _
  | killDrop t =>
      simp only [action, takeJoinWriter, Action.release.injEq] at h
      obtain ⟨rfl, h⟩ := h
      split at h <;> cases h <;> simp [Pc.held]
  | decWaitRef t =>
      cases h
      exact ⟨List.Perm.swap _ _ _, rfl⟩
  | nextDequeue =>
      simp only [action, nextDequeue, Action.release.injEq] at h
      obtain ⟨rfl, h⟩ := h
      split at h <;> cases h <;> simp [Pc.held, Data.setCurrent, Data.setReady]
  | listThreads p ts =>
      cases ts with
      | nil =>
          cases h
          exact ⟨List.Perm.swap _ _ _, rfl⟩
      | cons t ts => cases h
  | listThread p t ts =>
      cases h
      refine ⟨?_, rfl⟩
      exact (List.perm_append_singleton (Lock.thread t) [.processList, .process p])
  | _ => cases h <;> simp [Pc.held, Caller.held, Data.setCurrent]

/-- The thread that is suspended is all that the core holds, and nothing else changes. -/
theorem held_suspend {t : ℕ} (h : action d c w pc = .suspend t (d', pc')) :
    (∀ process, pc.held process = [.thread t] ∧ pc'.held process = []) ∧ d' = d := by
  cases pc with
  | listThreads p ts => cases ts <;> cases h
  | _ => cases h <;> exact ⟨fun _ => ⟨rfl, rfl⟩, rfl⟩

/-- A release of a lock, by the code itself or by the interrupt that suspends the thread. -/
def Action.Releases (a : Action) (l : Lock) (next : Data × Pc) : Prop :=
  a = .release l next ∨ ∃ t, l = .thread t ∧ a = .suspend t next

/-- After a release of either kind the core holds one lock less, and no thread changes its
process. -/
theorem held_releases (h : (action d c w pc).Releases l (d', pc')) :
    (pc.held d.process).Perm (l :: pc'.held d.process) ∧ d'.process = d.process := by
  rcases h with h | ⟨t, rfl, h⟩
  · exact held_release h
  · obtain ⟨hheld, rfl⟩ := held_suspend h
    rw [(hheld _).1, (hheld _).2]
    exact ⟨List.Perm.refl _, rfl⟩

/-- The owner of a lock is the core that holds it, and no core holds a lock twice. -/
structure Locked (s : State) : Prop where
  owner_iff : ∀ c l, s.owner l = some c ↔ l ∈ (s.pc c).held s.data.process
  nodup : ∀ c, ((s.pc c).held s.data.process).Nodup

/-- A lock is held by one core only. -/
theorem Locked.unique (h : Locked s) {c c' : ℕ} (hc : l ∈ (s.pc c).held s.data.process)
    (hc' : l ∈ (s.pc c').held s.data.process) : c = c' := by
  rw [← h.owner_iff] at hc hc'
  exact Option.some.inj (hc.symm.trans hc')

/-- What a core holds after a step in which it is put at a new place. -/
theorem held_put (hp : d.process = s.data.process) (o : Option ℕ) (x : ℕ) :
    ((s.put c l o (d, pc)).pc x).held (s.put c l o (d, pc)).data.process =
      if x = c then pc.held s.data.process else (s.pc x).held s.data.process := by
  simp only [State.put, Function.update_apply, hp]
  split <;> rfl

/-- An acquisition keeps the owners right. -/
theorem Locked.acquire (h : Locked s) (hl : s.owner l = none)
    (ha : action s.data c w (s.pc c) = .acquire l (d, pc)) :
    Locked (s.put c l (some c) (d, pc)) := by
  obtain ⟨hperm, hp⟩ := held_acquire ha
  have hfree : ∀ x, l ∉ (s.pc x).held s.data.process := by
    intro x hx
    rw [← h.owner_iff, hl] at hx
    cases hx
  refine ⟨fun x m => ?_, fun x => ?_⟩
  · rw [held_put hp]
    simp only [State.put, Function.update_apply]
    rcases eq_or_ne m l with rfl | hm
    · rcases eq_or_ne x c with rfl | hx
      · simp [hperm.mem_iff]
      · simp [hx, hfree, hx.symm]
    · rw [if_neg hm, h.owner_iff]
      rcases eq_or_ne x c with rfl | hx
      · simp [hperm.mem_iff, hm]
      · rw [if_neg hx]
  · rw [held_put hp]
    rcases eq_or_ne x c with rfl | hx
    · rw [if_pos rfl, hperm.nodup_iff]
      exact List.nodup_cons.mpr ⟨hfree x, h.nodup x⟩
    · rw [if_neg hx]
      exact h.nodup x

/-- A release keeps the owners right. -/
theorem Locked.release (h : Locked s)
    (ha : (action s.data c w (s.pc c)).Releases l (d, pc)) :
    Locked (s.put c l none (d, pc)) := by
  obtain ⟨hperm, hp⟩ := held_releases ha
  obtain ⟨hnot, hnodup⟩ := List.nodup_cons.mp (hperm.nodup_iff.mp (h.nodup c))
  have hown : s.owner l = some c := by
    rw [h.owner_iff, hperm.mem_iff]
    exact List.mem_cons_self
  refine ⟨fun x m => ?_, fun x => ?_⟩
  · rw [held_put hp]
    simp only [State.put, Function.update_apply]
    rcases eq_or_ne m l with rfl | hm
    · rcases eq_or_ne x c with rfl | hx
      · simp [hnot]
      · simp [hx, ← h.owner_iff, hown, hx.symm]
    · rw [if_neg hm, h.owner_iff]
      rcases eq_or_ne x c with rfl | hx
      · simp [hperm.mem_iff, hm]
      · rw [if_neg hx]
  · rw [held_put hp]
    rcases eq_or_ne x c with rfl | hx
    · rw [if_pos rfl]
      exact hnodup
    · rw [if_neg hx]
      exact h.nodup x

/-- A core panics in its next step: it is about to acquire a lock that it holds, or to suspend
a thread while it must not. -/
def State.Faults (s : State) (c : ℕ) (w : Bool) : Prop :=
  (∃ l next, action s.data c w (s.pc c) = .acquire l next ∧ s.owner l = some c) ∨
    ∃ t next, action s.data c w (s.pc c) = .suspend t next ∧
      ¬ (s.numHeld c = 1 ∧ s.data.errOnBlock t = false)

/-- What a step of a core does: it acquires a free lock, or releases one, or panics. -/
theorem step_cases (h : step s c w = some s') :
    (∃ l d pc, (action s.data c w (s.pc c) = .acquire l (d, pc) ∧ s.owner l = none ∧
        s' = s.put c l (some c) (d, pc)) ∨
      ((action s.data c w (s.pc c)).Releases l (d, pc) ∧ s' = s.put c l none (d, pc))) ∨
    (s.Faults c w ∧ s' = s.panic c) := by
  rw [step] at h
  split at h
  · rename_i l next ha
    split at h
    · exact .inl ⟨l, next.1, next.2, .inl ⟨ha, ‹_›, (Option.some.inj h).symm⟩⟩
    · split at h
      · exact .inr ⟨.inl ⟨l, next, ha, ‹_›⟩, (Option.some.inj h).symm⟩
      · cases h
  · rename_i l next ha
    exact .inl ⟨l, next.1, next.2, .inr ⟨.inl ha, (Option.some.inj h).symm⟩⟩
  · rename_i t next ha
    split at h
    · exact .inl ⟨.thread t, next.1, next.2, .inr ⟨.inr ⟨t, rfl, ha⟩, (Option.some.inj h).symm⟩⟩
    · exact .inr ⟨.inr ⟨t, next, ha, ‹_›⟩, (Option.some.inj h).symm⟩
  · cases h

/-- What beginning an operation does: a core that is between operations goes to its entry. -/
theorem begin_cases {op : Op} (h : begin s c op = some s') :
    ∃ pc, s.pc c = .idle ∧ op.entry (s.data.current c) = some pc ∧
      s' = { s with pc := Function.update s.pc c pc } := by
  rw [begin] at h
  split at h
  · rename_i pc hidle hentry
    exact ⟨pc, hidle, hentry, (Option.some.inj h).symm⟩
  · cases h

/-- An operation begins without a lock. -/
theorem held_entry {op : Op} {current : Option ℕ} {process : ℕ → ℕ}
    (h : op.entry current = some pc) : pc.held process = [] := by
  cases op with
  | killCurrent | yieldCurrent =>
      obtain ⟨t, -, rfl⟩ := Option.map_eq_some_iff.mp h
      rfl
  | _ =>
      cases h
      rfl

/-- What the code between the operations changes: join futures, and whether a thread must not
block, but no lock, no place, and no queue. -/
structure Quiet (s s' : State) : Prop where
  pc : s'.pc = s.pc
  owner : s'.owner = s.owner
  data : s'.data = { s.data with join := s'.data.join, errOnBlock := s'.data.errOnBlock }

/-- The consumers of a join future have its lock only. -/
theorem consume_cases {t : ℕ} {v : FutureWait Unit} (h : consume s t v = some s') :
    s.owner (.future t) = none ∧ v.resolved = (s.data.join t).resolved ∧
      s' = { s with data := s.data.setJoin t v } := by
  rw [consume] at h
  split at h
  · rename_i hv
    exact ⟨hv.1, hv.2, (Option.some.inj h).symm⟩
  · cases h

/-- They are quiet. -/
theorem quiet_consume {t : ℕ} {v : FutureWait Unit} (h : consume s t v = some s') :
    Quiet s s' := by
  obtain ⟨-, -, rfl⟩ := consume_cases h
  exact ⟨rfl, rfl, rfl⟩

/-- The code of a core between operations changes nothing of the other cores, and says of its
own thread only whether it may block. -/
theorem prepare_cases {n : ℕ} {err : Bool} (h : prepare s c n err = some s') :
    s.pc c = .idle ∧ s'.numHeld = Function.update s.numHeld c n ∧
      (∀ x, s.data.current c ≠ some x → s'.data.errOnBlock x = s.data.errOnBlock x) ∧
      s'.data.join = s.data.join ∧ Quiet s s' := by
  rw [prepare] at h
  split at h
  · rename_i t hidle hcurrent
    obtain rfl := Option.some.inj h
    refine ⟨hidle, rfl, fun x hx => Function.update_of_ne ?_ _ _, rfl, rfl, rfl, rfl⟩
    rintro rfl
    exact hx hcurrent
  · rename_i hidle hcurrent
    obtain rfl := Option.some.inj h
    exact ⟨hidle, rfl, fun _ _ => rfl, rfl, rfl, rfl, rfl⟩
  · cases h

/-- Where a core is that panics. -/
@[simp] theorem panic_pc_self :
    (s.panic c).pc c = .panicked ((s.pc c).held s.data.process) := Function.update_self _ _ _

/-- A panic moves no other core. -/
theorem panic_pc_of_ne {x : ℕ} (hx : x ≠ c) : (s.panic c).pc x = s.pc x :=
  Function.update_of_ne hx _ _

/-- A panic changes no owner. -/
theorem Locked.panic (h : Locked s) : Locked (s.panic c) := by
  have hheld : ∀ x, ((s.panic c).pc x).held s.data.process = (s.pc x).held s.data.process := by
    intro x
    rcases eq_or_ne x c with rfl | hx
    · rw [panic_pc_self]
      rfl
    · rw [panic_pc_of_ne hx]
  exact ⟨fun x m => (h.owner_iff x m).trans (by rw [← hheld]; rfl), fun x =>
    (hheld x).symm ▸ h.nodup x⟩

/-- The code between the operations changes no owner. -/
theorem Locked.quiet (h : Locked s) (hq : Quiet s s') : Locked s' := by
  refine ⟨fun x m => ?_, fun x => ?_⟩
  · rw [hq.pc, hq.owner, hq.data]
    exact h.owner_iff x m
  · rw [hq.pc, hq.data]
    exact h.nodup x

/-- Every step keeps the owners right. -/
theorem Locked.step {a : Label} (h : Locked s) (hstep : Step s a s') : Locked s' := by
  cases a with
  | start c op =>
      obtain ⟨pc, hidle, hentry, rfl⟩ := begin_cases hstep
      have hheld : ∀ x, (Function.update s.pc c pc x).held s.data.process =
          (s.pc x).held s.data.process := by
        intro x
        rcases eq_or_ne x c with rfl | hx
        · rw [Function.update_self, held_entry hentry, hidle]
          rfl
        · rw [Function.update_of_ne hx]
      exact ⟨fun x m => by rw [hheld]; exact h.owner_iff x m, fun x => by
        rw [hheld]; exact h.nodup x⟩
  | go c w =>
      obtain ⟨l, d, pc, ⟨ha, hl, rfl⟩ | ⟨ha, rfl⟩⟩ | ⟨-, rfl⟩ := step_cases hstep
      · exact h.acquire hl ha
      · exact h.release ha
      · exact h.panic
  | consume t v => exact h.quiet (quiet_consume hstep)
  | prepare c n err => exact h.quiet (prepare_cases hstep).2.2.2.2

/-! ### Where the threads are -/

/-- The thread that the caller of `wake_one` or `wake_all` runs, where `current` is the
current thread of the core. -/
def Caller.own (current : Option ℕ) : Caller → Option ℕ
  | .wakeOne | .wakeAll => current
  | .finish t => some t

/-- The thread that the caller of `enqueue_ready_thread` runs. -/
def Enqueuer.own (current : Option ℕ) : Enqueuer → Option ℕ
  | .wake => current
  | .tryWake k _ => k.own current
  | .contextSwitch => none

/-- The thread that a core runs. A core that switches threads runs none. -/
def Pc.own (current : Option ℕ) : Pc → Option ℕ
  | .panicked _ => none
  | .wakeProcess k _ | .enqueueDrop k _ | .enqueuePush k _ => k.own current
  | .dequeue k _ | .tryWake k _ _ | .tryWakeDead k _ _ | .unlockList k _ _ => k.own current
  | .killProcess t | .killThread t | .killDrop t | .finish t | .runNonBlocking t => some t
  | .runNonBlockingDrop t | .decWaitRef t | .switchDead t => some t
  | .yieldThread t | .switchReady t | .switchProcess t | .switchThread t => some t
  | .nextProcess | .nextDequeue | .nextThread _ | .nextDrop _ => none
  | _ => current

/-- The state of the thread that the caller of `wake_one` or `wake_all` runs. -/
def Caller.ownState : Caller → ThreadState
  | .wakeOne | .wakeAll => .running
  | .finish _ => .dead

/-- The state of the thread that the caller of `enqueue_ready_thread` runs. -/
def Enqueuer.ownState : Enqueuer → ThreadState
  | .tryWake k _ => k.ownState
  | _ => .running

/-- The state of the thread that a core runs. -/
def Pc.ownState : Pc → ThreadState
  | .wakeProcess k _ | .enqueueDrop k _ | .enqueuePush k _ => k.ownState
  | .dequeue k _ | .tryWake k _ _ | .tryWakeDead k _ _ | .unlockList k _ _ => k.ownState
  | .killDrop _ | .finish _ | .runNonBlocking _ | .runNonBlockingDrop _ => .dead
  | .decWaitRef _ | .switchDead _ => .dead
  | .switchReady _ | .switchProcess _ | .switchThread _ => .ready
  | _ => .running

/-- The thread that a core moves from one queue to another. -/
def Pc.hand : Pc → Option ℕ
  | .wakeProcess _ t | .enqueueDrop _ t | .enqueuePush _ t => some t
  | .tryWake _ _ t | .tryWakeDead _ _ t => some t
  | .nextThread t | .nextDrop t => some t
  | _ => none

/-- The state of the thread that a core moves. -/
def Pc.handState : Pc → ThreadState
  | .tryWake _ l _ => .waiting l
  | .tryWakeDead _ _ _ => .dead
  | .nextDrop _ => .running
  | _ => .ready

/-- The places where a thread can be. -/
inductive Place
  | own (c : ℕ)
  | hand (c : ℕ)
  | ready (p : ℕ)
  | waiting (l : ℕ)

/-- A thread is at a place. -/
def State.At (s : State) : Place → ℕ → Prop
  | .own c, t => (s.pc c).own (s.data.current c) = some t
  | .hand c, t => (s.pc c).hand = some t
  | .ready p, t => t ∈ s.data.ready p
  | .waiting l, t => t ∈ s.data.waiting l

/-- The state of the threads at a place. -/
def State.stateAt (s : State) : Place → ThreadState
  | .own c => (s.pc c).ownState
  | .hand c => (s.pc c).handState
  | .ready _ => .ready
  | .waiting l => .waiting l

/-- No thread is at two places, or twice in a queue, and each is in the state that belongs
to its place. -/
structure Placed (s : State) : Prop where
  unique : ∀ {a b t}, s.At a t → s.At b t → a = b
  state : ∀ {a t}, s.At a t → s.data.state t = s.stateAt a
  ready_nodup : ∀ p, (s.data.ready p).Nodup
  waiting_nodup : ∀ l, (s.data.waiting l).Nodup

/-- A thread `t` is moved to the place `b`, or from its place to nowhere, and the other
threads stay where they are. -/
theorem Placed.move (h : Placed s) (t : ℕ) (b : Place)
    (hother : ∀ a x, s'.At a x → x ≠ t → s.At a x ∧ s'.data.state x = s.data.state x ∧
      s'.stateAt a = s.stateAt a)
    (ht : ∀ a, s'.At a t → a = b ∧ s'.data.state t = s'.stateAt b)
    (hready : ∀ p, (s'.data.ready p).Nodup) (hwaiting : ∀ l, (s'.data.waiting l).Nodup) :
    Placed s' := by
  refine ⟨fun {a a' x} ha ha' => ?_, fun {a x} ha => ?_, hready, hwaiting⟩
  · rcases eq_or_ne x t with rfl | hx
    · rw [(ht a ha).1, (ht a' ha').1]
    · exact h.unique (hother a x ha hx).1 (hother a' x ha' hx).1
  · rcases eq_or_ne x t with rfl | hx
    · obtain ⟨rfl, hstate⟩ := ht a ha
      exact hstate
    · obtain ⟨hat, hstate, hplace⟩ := hother a x ha hx
      rw [hstate, hplace, h.state hat]

/-- Every thread stays where it is, or goes nowhere. -/
theorem Placed.keep (h : Placed s)
    (hat : ∀ a x, s'.At a x → s.At a x ∧ s'.stateAt a = s.stateAt a)
    (hstate : s'.data.state = s.data.state) (hready : s'.data.ready = s.data.ready)
    (hwaiting : s'.data.waiting = s.data.waiting) : Placed s' := by
  refine ⟨fun ha hb => h.unique (hat _ _ ha).1 (hat _ _ hb).1, fun ha => ?_, ?_, ?_⟩
  · rw [hstate, (hat _ _ ha).2, h.state (hat _ _ ha).1]
  · rw [hready]
    exact h.ready_nodup
  · rw [hwaiting]
    exact h.waiting_nodup

/-- The core that makes a step, and the place it is put at, are all that changes: the
threads at a place are those of the new place of the core, or those of the old data. -/
structure Moved (s s' : State) (c : ℕ) : Prop where
  pc : ∀ x, x ≠ c → s'.pc x = s.pc x
  current : ∀ x, x ≠ c → s'.data.current x = s.data.current x

/-- A step of a core changes only its own place. -/
theorem moved_put (o : Option ℕ) (hcur : ∀ x, x ≠ c → d.current x = s.data.current x) :
    Moved s (s.put c l o (d, pc)) c :=
  ⟨fun _ hx => Function.update_of_ne hx _ _, hcur⟩

/-- A step that moves one thread `t` to the place `b`. What the core runs and moves apart
from `t`, and what is in the queues apart from `t`, was there before. -/
theorem Placed.step_move (h : Placed s) (hm : Moved s s' c) {t : ℕ} {b : Place}
    (hstate : ∀ x, x ≠ t → s'.data.state x = s.data.state x)
    (hown : ∀ x, s'.At (.own c) x → x ≠ t →
      s.At (.own c) x ∧ (s'.pc c).ownState = (s.pc c).ownState)
    (hhand : ∀ x, s'.At (.hand c) x → x = t)
    (hready : ∀ p, ∀ x ∈ s'.data.ready p, x ≠ t → x ∈ s.data.ready p)
    (hwaiting : ∀ l, ∀ x ∈ s'.data.waiting l, x ≠ t → x ∈ s.data.waiting l)
    (ht : ∀ a, s'.At a t → a = b) (hb : s'.data.state t = s'.stateAt b)
    (hrn : ∀ p, (s'.data.ready p).Nodup) (hwn : ∀ l, (s'.data.waiting l).Nodup) :
    Placed s' := by
  refine h.move t b ?_ (fun a ha => ⟨ht a ha, hb⟩) hrn hwn
  rintro (x | x | p | l) y hy hne
  · rcases eq_or_ne x c with rfl | hx
    · exact ⟨(hown y hy hne).1, hstate y hne, (hown y hy hne).2⟩
    · have hpc := hm.pc x hx
      refine ⟨?_, hstate y hne, by simp only [State.stateAt, hpc]⟩
      simpa only [State.At, hpc, hm.current x hx] using hy
  · rcases eq_or_ne x c with rfl | hx
    · exact absurd (hhand y hy) hne
    · have hpc := hm.pc x hx
      refine ⟨?_, hstate y hne, by simp only [State.stateAt, hpc]⟩
      simpa only [State.At, hpc] using hy
  · exact ⟨hready p y hy hne, hstate y hne, rfl⟩
  · exact ⟨hwaiting l y hy hne, hstate y hne, rfl⟩

/-- A step that moves no thread. -/
theorem Placed.step_keep (h : Placed s) (hm : Moved s s' c)
    (hown : ∀ x, s'.At (.own c) x → s.At (.own c) x ∧ (s'.pc c).ownState = (s.pc c).ownState)
    (hhand : ∀ x, s'.At (.hand c) x → s.At (.hand c) x ∧ (s'.pc c).handState = (s.pc c).handState)
    (hstate : s'.data.state = s.data.state) (hready : s'.data.ready = s.data.ready)
    (hwaiting : s'.data.waiting = s.data.waiting) : Placed s' := by
  refine h.keep ?_ hstate hready hwaiting
  rintro (x | x | p | l) y hy
  · rcases eq_or_ne x c with rfl | hx
    · exact hown y hy
    · have hpc := hm.pc x hx
      refine ⟨?_, by simp only [State.stateAt, hpc]⟩
      simpa only [State.At, hpc, hm.current x hx] using hy
  · rcases eq_or_ne x c with rfl | hx
    · exact hhand y hy
    · have hpc := hm.pc x hx
      refine ⟨?_, by simp only [State.stateAt, hpc]⟩
      simpa only [State.At, hpc] using hy
  · exact ⟨by simpa only [State.At, hready] using hy, rfl⟩
  · exact ⟨by simpa only [State.At, hwaiting] using hy, rfl⟩

/-- A thread that the core `c` has taken is nowhere else: at the place of another core or in
a queue it would have been before. -/
theorem Placed.only (h : Placed s) (hm : Moved s s' c) {t : ℕ} {a₀ b : Place}
    (hold : s.At a₀ t)
    (hother : ∀ x, x ≠ c → a₀ ≠ .own x ∧ a₀ ≠ .hand x)
    (hown : s'.At (.own c) t → b = .own c) (hhand : s'.At (.hand c) t → b = .hand c)
    (hready : ∀ p, s'.At (.ready p) t → b = .ready p ∨ (s.At (.ready p) t ∧ a₀ ≠ .ready p))
    (hwaiting : ∀ l, s'.At (.waiting l) t →
      b = .waiting l ∨ (s.At (.waiting l) t ∧ a₀ ≠ .waiting l)) :
    ∀ a, s'.At a t → a = b := by
  rintro (x | x | p | l) ha
  · rcases eq_or_ne x c with rfl | hx
    · exact (hown ha).symm
    · have hat : s.At (.own x) t := by
        simpa only [State.At, hm.pc x hx, hm.current x hx] using ha
      exact absurd (h.unique hold hat) (hother x hx).1
  · rcases eq_or_ne x c with rfl | hx
    · exact (hhand ha).symm
    · have hat : s.At (.hand x) t := by simpa only [State.At, hm.pc x hx] using ha
      exact absurd (h.unique hold hat) (hother x hx).2
  · rcases hready p ha with hb | ⟨hat, hne⟩
    · exact hb.symm
    · exact absurd (h.unique hold hat) hne
  · rcases hwaiting l ha with hb | ⟨hat, hne⟩
    · exact hb.symm
    · exact absurd (h.unique hold hat) hne

/-- A step of a core that changes at most the join futures, and after which the core runs
and moves what it did before, or nothing. -/
theorem Placed.put_keep (h : Placed s) {o : Option ℕ}
    (hown : pc.own (d.current c) = none ∨ (pc.own (d.current c) =
      (s.pc c).own (s.data.current c) ∧ pc.ownState = (s.pc c).ownState))
    (hhand : pc.hand = none ∨ (pc.hand = (s.pc c).hand ∧ pc.handState = (s.pc c).handState))
    (hcur : ∀ x, x ≠ c → d.current x = s.data.current x) (hstate : d.state = s.data.state)
    (hready : d.ready = s.data.ready) (hwaiting : d.waiting = s.data.waiting) :
    Placed (s.put c l o (d, pc)) := by
  refine h.step_keep (moved_put o hcur) (fun x hx => ?_) (fun x hx => ?_) hstate hready hwaiting
  · simp only [State.At, State.put, Function.update_self] at hx ⊢
    rcases hown with hnone | ⟨hsame, hst⟩
    · rw [hnone] at hx
      cases hx
    · exact ⟨hsame ▸ hx, hst⟩
  · simp only [State.At, State.put, Function.update_self] at hx ⊢
    rcases hhand with hnone | ⟨hsame, hst⟩
    · rw [hnone] at hx
      cases hx
    · exact ⟨hsame ▸ hx, hst⟩

/-- A thread that is suspended is nowhere. -/
theorem Placed.not_at (h : Placed s) {t : ℕ} (ht : s.data.state t = .suspended) (a : Place) :
    ¬ s.At a t := by
  intro ha
  have hst := h.state ha
  rw [ht] at hst
  cases a with
  | own c => cases hpc : s.pc c with
    | wakeProcess k t | enqueueDrop k t | enqueuePush k t =>
        cases k with
        | tryWake k l =>
            cases k <;>
              simp [State.stateAt, hpc, Pc.ownState, Enqueuer.ownState, Caller.ownState] at hst
        | _ => simp [State.stateAt, hpc, Pc.ownState, Enqueuer.ownState] at hst
    | dequeue k l | tryWake k l t | tryWakeDead k l t | unlockList k l again =>
        cases k <;> simp [State.stateAt, hpc, Pc.ownState, Caller.ownState] at hst
    | _ => simp [State.stateAt, hpc, Pc.ownState] at hst
  | hand c => cases hpc : s.pc c <;> simp [State.stateAt, hpc, Pc.handState] at hst
  | ready p => cases hst
  | waiting l => cases hst

/-- The step of `ThreadLock::wake` up to the lock of the process, on a suspended thread. -/
theorem Placed.wake (h : Placed s) {t : ℕ} {o : Option ℕ} (hpc : s.pc c = .wakeThread t) :
    Placed (s.put c l o (wake s.data .wake t)) := by
  rw [Locks.wake]
  split
  · rename_i ht
    have hm : Moved s (s.put c l o (s.data.setState t .ready, .wakeProcess .wake t)) c :=
      moved_put o fun _ _ => rfl
    refine h.step_move hm (t := t) (b := .hand c) ?_ ?_ ?_ ?_ ?_ ?_ ?_ h.ready_nodup h.waiting_nodup
    · exact fun x hx => Function.update_of_ne hx _ _
    · intro x hx _
      simp only [State.At, State.put, Function.update_self, hpc] at hx ⊢
      exact ⟨hx, rfl⟩
    · intro x hx
      simpa [State.At, State.put, Pc.hand] using hx.symm
    · exact fun p x hx _ => hx
    · exact fun l x hx _ => hx
    · rintro (x | x | p | l) ha
      · rcases eq_or_ne x c with rfl | hx
        · simp only [State.At, State.put, Function.update_self] at ha
          exact absurd (by rw [State.At, hpc]; exact ha) (h.not_at ht (.own x))
        · refine absurd ?_ (h.not_at ht (.own x))
          simpa only [State.At, hm.pc x hx, hm.current x hx] using ha
      · rcases eq_or_ne x c with rfl | hx
        · rfl
        · refine absurd ?_ (h.not_at ht (.hand x))
          simpa only [State.At, hm.pc x hx] using ha
      · exact absurd ha (h.not_at ht (.ready p))
      · exact absurd ha (h.not_at ht (.waiting l))
    · simp [State.stateAt, State.put, Pc.handState, Data.setState]
  · refine h.put_keep (.inl rfl) (.inl rfl) (fun _ _ => rfl) rfl rfl rfl

/-- A step of a core on a thread that it runs or moves already, which leaves the queues as
they are. -/
theorem Placed.put_core (h : Placed s) {o : Option ℕ} {t : ℕ} {a₀ b : Place} (hold : s.At a₀ t)
    (ha₀ : a₀ = .own c ∨ a₀ = .hand c)
    (hcur : ∀ x, x ≠ c → d.current x = s.data.current x)
    (hstate : ∀ x, x ≠ t → d.state x = s.data.state x)
    (hready : d.ready = s.data.ready) (hwaiting : d.waiting = s.data.waiting)
    (hown : ∀ x, pc.own (d.current c) = some x → (x = t ∧ b = .own c) ∨ (x ≠ t ∧
      (s.pc c).own (s.data.current c) = some x ∧ pc.ownState = (s.pc c).ownState))
    (hhand : ∀ x, pc.hand = some x → x = t ∧ b = .hand c)
    (hb : d.state t = (s.put c l o (d, pc)).stateAt b) :
    Placed (s.put c l o (d, pc)) := by
  have hm : Moved s (s.put c l o (d, pc)) c := moved_put o hcur
  have hown' : ∀ x, (s.put c l o (d, pc)).At (.own c) x → pc.own (d.current c) = some x := by
    intro x hx
    simpa only [State.At, State.put, Function.update_self] using hx
  have hhand' : ∀ x, (s.put c l o (d, pc)).At (.hand c) x → pc.hand = some x := by
    intro x hx
    simpa only [State.At, State.put, Function.update_self] using hx
  have hqueue : (∀ p, a₀ ≠ .ready p) ∧ (∀ l, a₀ ≠ .waiting l) := by
    rcases ha₀ with rfl | rfl <;> simp
  refine h.step_move hm (t := t) (b := b) hstate ?_ ?_ ?_ ?_ ?_ hb ?_ ?_
  · intro x hx hne
    rcases hown x (hown' x hx) with ⟨rfl, -⟩ | ⟨-, hat, hst⟩
    · exact absurd rfl hne
    · refine ⟨hat, ?_⟩
      simpa only [State.put, Function.update_self] using hst
  · exact fun x hx => (hhand x (hhand' x hx)).1
  · intro p x hx _
    simpa only [State.put, hready] using hx
  · intro p x hx _
    simpa only [State.put, hwaiting] using hx
  · refine h.only hm hold ?_ ?_ ?_ ?_ ?_
    · intro x hx
      rcases ha₀ with rfl | rfl <;> simp [hx.symm]
    · intro ht
      rcases hown t (hown' t ht) with ⟨-, hb⟩ | ⟨hne, -⟩
      · exact hb
      · exact absurd rfl hne
    · exact fun ht => (hhand t (hhand' t ht)).2
    · exact fun p hp => .inr ⟨by simpa only [State.At, State.put, hready] using hp, hqueue.1 p⟩
    · exact fun p hp => .inr ⟨by simpa only [State.At, State.put, hwaiting] using hp, hqueue.2 p⟩
  · intro p
    rw [State.put, hready]
    exact h.ready_nodup p
  · intro p
    rw [State.put, hwaiting]
    exact h.waiting_nodup p

/-- What a core runs is not what it moves. -/
theorem Placed.own_ne_hand (h : Placed s) {t x : ℕ} (ht : (s.pc c).hand = some t)
    (hx : (s.pc c).own (s.data.current c) = some x) : x ≠ t := by
  rintro rfl
  have ha : s.At (.own c) x := hx
  have hb : s.At (.hand c) x := ht
  cases h.unique ha hb

/-- The step of `try_wake`: the thread waits on the list, so that it is woken. -/
theorem Placed.tryWake (h : Placed s) {k : Caller} {m t : ℕ} {o : Option ℕ}
    (hpc : s.pc c = .tryWake k m t) :
    Placed (s.put c l o (tryWake s.data k m t)) ∧
      (Locks.tryWake s.data k m t).2 = .wakeProcess (.tryWake k m) t := by
  have hhand : (s.pc c).hand = some t := by rw [hpc]; rfl
  have hat : s.At (.hand c) t := hhand
  have hst : s.data.state t = .waiting m := by
    rw [h.state hat, State.stateAt, hpc]
    rfl
  have hwake : Locks.tryWake s.data k m t = ((s.data.setState t .suspended).setState t .ready,
      .wakeProcess (.tryWake k m) t) := by
    simp [Locks.tryWake, hst, Locks.wake, Data.setState]
  rw [hwake]
  refine ⟨?_, rfl⟩
  refine h.put_core hat (.inr rfl) (b := .hand c) (fun _ _ => rfl) ?_ rfl rfl ?_ ?_ ?_
  · intro x hx
    simp [Data.setState, Function.update_of_ne hx]
  · intro x hx
    have hx' : (s.pc c).own (s.data.current c) = some x := by
      rw [hpc]
      exact hx
    refine .inr ⟨h.own_ne_hand hhand hx', hx', ?_⟩
    rw [hpc]
    rfl
  · intro x hx
    exact ⟨(Option.some.inj hx).symm, rfl⟩
  · simp [Data.setState, State.stateAt, State.put, Pc.handState]

/-- A core changes the state of the thread that it runs. -/
theorem Placed.put_ownState (h : Placed s) {o : Option ℕ} {t : ℕ} (hat : s.At (.own c) t)
    (hstate : d.state = Function.update s.data.state t pc.ownState)
    (hcur : d.current = s.data.current) (hready : d.ready = s.data.ready)
    (hwaiting : d.waiting = s.data.waiting) (hown : pc.own (d.current c) = some t)
    (hhand : pc.hand = none) : Placed (s.put c l o (d, pc)) := by
  refine h.put_core hat (.inl rfl) (b := .own c) (fun x _ => by rw [hcur]) ?_ hready hwaiting
    ?_ ?_ ?_
  · intro x hx
    rw [hstate, Function.update_of_ne hx]
  · intro x hx
    rw [hown] at hx
    exact .inl ⟨(Option.some.inj hx).symm, rfl⟩
  · intro x hx
    rw [hhand] at hx
    cases hx
  · simp [hstate, State.stateAt, State.put]

/-- The step of `kill_current` that kills the thread. -/
theorem Placed.killThread (h : Placed s) {t : ℕ} {o : Option ℕ}
    (hpc : s.pc c = .killThread t) : Placed (s.put c l o (killThread s.data t)) := by
  have hat : s.At (.own c) t := by
    rw [State.At, hpc]
    rfl
  rw [Locks.killThread]
  split
  · exact h.put_ownState hat rfl rfl rfl rfl rfl rfl
  · exact h.put_keep (.inl rfl) (.inl rfl) (fun _ _ => rfl) rfl rfl rfl

/-- The step of `yield_current`. -/
theorem Placed.yieldThread (h : Placed s) {t : ℕ} {o : Option ℕ}
    (hpc : s.pc c = .yieldThread t) : Placed (s.put c l o (yieldThread s.data t)) := by
  have hat : s.At (.own c) t := by
    rw [State.At, hpc]
    rfl
  rw [Locks.yieldThread]
  split
  · exact h.put_ownState hat rfl rfl rfl rfl rfl rfl
  · exact h.put_keep (.inl rfl) (.inl rfl) (fun _ _ => rfl) rfl rfl rfl

/-- The step of a context switch that locks the old thread again. -/
theorem Placed.switchThread (h : Placed s) {t : ℕ} {o : Option ℕ}
    (hpc : s.pc c = .switchThread t) :
    Placed (s.put c l o (enqueueReadyThread s.data .contextSwitch t)) := by
  have hat : s.At (.own c) t := by
    rw [State.At, hpc]
    rfl
  have hst : s.data.state t = .ready := by
    rw [h.state hat, State.stateAt, hpc]
    rfl
  rw [enqueueReadyThread]
  split
  · refine h.put_core hat (.inl rfl) (b := .hand c) (fun _ _ => rfl) (fun _ _ => rfl) rfl rfl
      (fun x hx => by cases hx) ?_ ?_
    · exact fun x hx => ⟨(Option.some.inj hx).symm, rfl⟩
    · simp [State.stateAt, State.put, Pc.handState, hst]
  · exact h.put_keep (.inl rfl) (.inl rfl) (fun _ _ => rfl) rfl rfl rfl

/-- The step of a context switch that locks the new thread. -/
theorem Placed.nextThread (h : Placed s) {t : ℕ} {o : Option ℕ}
    (hpc : s.pc c = .nextThread t) : Placed (s.put c l o (nextThread s.data t)) := by
  have hat : s.At (.hand c) t := by
    rw [State.At, hpc]
    rfl
  rw [Locks.nextThread]
  split
  · refine h.put_core hat (.inr rfl) (b := .hand c) (fun _ _ => rfl) ?_ rfl rfl
      (fun x hx => by cases hx) ?_ ?_
    · exact fun x hx => Function.update_of_ne hx _ _
    · exact fun x hx => ⟨(Option.some.inj hx).symm, rfl⟩
    · simp [Data.setState, State.stateAt, State.put, Pc.handState]
  · exact h.put_keep (.inl rfl) (.inl rfl) (fun _ _ => rfl) rfl rfl rfl

/-- The step of a context switch after which the new thread runs. -/
theorem Placed.nextDrop (h : Placed s) {t : ℕ} {o : Option ℕ} (hpc : s.pc c = .nextDrop t) :
    Placed (s.put c l o (s.data.setCurrent c (some t), .idle)) := by
  have hat : s.At (.hand c) t := by
    rw [State.At, hpc]
    rfl
  have hst : s.data.state t = .running := by
    rw [h.state hat, State.stateAt, hpc]
    rfl
  refine h.put_core hat (.inr rfl) (b := .own c) ?_ (fun _ _ => rfl) rfl rfl ?_
    (fun x hx => by cases hx) ?_
  · exact fun x hx => Function.update_of_ne hx _ _
  · intro x hx
    simp only [Pc.own, Data.setCurrent, Function.update_self] at hx
    exact .inl ⟨(Option.some.inj hx).symm, rfl⟩
  · simpa [State.stateAt, State.put, Pc.ownState, Data.setCurrent] using hst

/-- What runs after `enqueue_ready_thread` is what ran before. -/
theorem own_next (k : Enqueuer) (current : Option ℕ) :
    (k.next.own current = k.own current ∧ k.next.ownState = k.ownState ∨
      k.next.own current = none) ∧ k.next.hand = none := by
  cases k with
  | wake => exact ⟨.inl ⟨rfl, rfl⟩, rfl⟩
  | tryWake k l => cases k <;> exact ⟨.inl ⟨rfl, rfl⟩, rfl⟩
  | contextSwitch => exact ⟨.inr rfl, rfl⟩

/-- The step of `enqueue_ready_thread` that puts the thread on the queue. -/
theorem Placed.enqueuePush (h : Placed s) {k : Enqueuer} {t p : ℕ} {o : Option ℕ}
    (hpc : s.pc c = .enqueuePush k t) :
    Placed (s.put c l o (s.data.setReady p (s.data.ready p ++ [t]), k.next)) := by
  have hhand : (s.pc c).hand = some t := by
    rw [hpc]
    rfl
  have hat : s.At (.hand c) t := hhand
  have hst : s.data.state t = .ready := by
    rw [h.state hat, State.stateAt, hpc]
    rfl
  have hnot : t ∉ s.data.ready p := by
    intro hmem
    have hat' : s.At (.ready p) t := hmem
    cases h.unique hat hat'
  have hm : Moved s (s.put c l o (s.data.setReady p (s.data.ready p ++ [t]), k.next)) c :=
    moved_put o fun _ _ => rfl
  have hown : ∀ x, (s.put c l o (s.data.setReady p (s.data.ready p ++ [t]), k.next)).At (.own c) x →
      s.At (.own c) x ∧ k.next.ownState = (s.pc c).ownState := by
    intro x hx
    simp only [State.At, State.put, Function.update_self, Data.setReady] at hx
    obtain ⟨⟨hsame, hstate⟩ | hnone, -⟩ := own_next k (s.data.current c)
    · rw [hsame] at hx
      rw [State.At, hpc]
      exact ⟨hx, hstate⟩
    · rw [hnone] at hx
      cases hx
  have hnohand : ∀ x, ¬ (s.put c l o
      (s.data.setReady p (s.data.ready p ++ [t]), k.next)).At (.hand c) x := by
    intro x hx
    simp only [State.At, State.put, Function.update_self, (own_next k none).2] at hx
    cases hx
  refine h.step_move hm (t := t) (b := .ready p) (fun _ _ => rfl) ?_ ?_ ?_ (fun _ _ hx _ => hx) ?_
    hst ?_ h.waiting_nodup
  · intro x hx _
    refine ⟨(hown x hx).1, ?_⟩
    simpa only [State.put, Function.update_self] using (hown x hx).2
  · exact fun x hx => absurd hx (hnohand x)
  · intro q x hx hne
    simp only [State.put, Data.setReady, Function.update_apply] at hx
    split at hx
    · rename_i hq
      subst hq
      simpa [hne] using hx
    · exact hx
  · refine h.only hm hat ?_ ?_ ?_ ?_ ?_
    · intro x hx
      simp [hx.symm]
    · exact fun ht => absurd rfl (h.own_ne_hand hhand (hown t ht).1)
    · exact fun ht => absurd ht (hnohand t)
    · intro q ht
      simp only [State.At, State.put, Data.setReady, Function.update_apply] at ht
      split at ht
      · rename_i hq
        exact .inl (by rw [hq])
      · exact .inr ⟨ht, by simp⟩
    · exact fun m ht => .inr ⟨ht, by simp⟩
  · intro q
    simp only [State.put, Data.setReady, Function.update_apply]
    split
    · rename_i hq
      subst hq
      rw [List.nodup_append]
      exact ⟨h.ready_nodup q, List.nodup_singleton t, fun x hx y hy hxy => hnot (by
        rw [List.mem_singleton] at hy
        rwa [← hy, ← hxy])⟩
    · exact h.ready_nodup q

/-- The step of `wake_one` or `wake_all` that takes a thread off the wait list. -/
theorem Placed.dequeue (h : Placed s) {k : Caller} {m : ℕ} {o : Option ℕ}
    (hpc : s.pc c = .dequeue k m) : Placed (s.put c l o (dequeue s.data k m)) := by
  rw [Locks.dequeue]
  split
  · refine h.put_keep (.inr ⟨?_, ?_⟩) (.inl rfl) (fun _ _ => rfl) rfl rfl rfl
    · rw [hpc]
      rfl
    · rw [hpc]
      rfl
  · rename_i t ts hq
    have hat : s.At (.waiting m) t := by
      rw [State.At, hq]
      exact List.mem_cons_self
    have hst : s.data.state t = .waiting m := h.state hat
    have hnodup := h.waiting_nodup m
    rw [hq] at hnodup
    obtain ⟨hnot, htail⟩ := List.nodup_cons.mp hnodup
    have hm : Moved s (s.put c l o (s.data.setWaiting m ts, .tryWake k m t)) c :=
      moved_put o fun _ _ => rfl
    have hown : ∀ x, (s.put c l o (s.data.setWaiting m ts, .tryWake k m t)).At (.own c) x →
        s.At (.own c) x := by
      intro x hx
      simp only [State.At, State.put, Function.update_self] at hx
      rw [State.At, hpc]
      exact hx
    refine h.step_move hm (t := t) (b := .hand c) (fun _ _ => rfl) ?_ ?_ (fun _ _ hx _ => hx) ?_ ?_
      ?_ h.ready_nodup ?_
    · intro x hx _
      refine ⟨hown x hx, ?_⟩
      simp only [State.put, Function.update_self, hpc]
      rfl
    · intro x hx
      simp only [State.At, State.put, Function.update_self, Pc.hand, Option.some.injEq] at hx
      exact hx.symm
    · intro q x hx _
      simp only [State.put, Data.setWaiting, Function.update_apply] at hx
      split at hx
      · rename_i hqm
        rw [hqm, hq]
        exact List.mem_cons_of_mem t hx
      · exact hx
    · refine h.only hm hat (by simp) ?_ (fun _ => rfl) ?_ ?_
      · intro ht
        cases h.unique hat (hown t ht)
      · exact fun q ht => .inr ⟨ht, by simp⟩
      · intro q ht
        simp only [State.At, State.put, Data.setWaiting, Function.update_apply] at ht
        split at ht
        · exact absurd ht hnot
        · rename_i hqm
          exact .inr ⟨ht, by simpa using Ne.symm hqm⟩
    · simpa [State.stateAt, State.put, Pc.handState, Data.setWaiting] using hst
    · intro q
      simp only [State.put, Data.setWaiting, Function.update_apply]
      split
      · exact htail
      · exact h.waiting_nodup q

/-- The step of a context switch that takes the next thread off the queue. -/
theorem Placed.nextDequeue (h : Placed s) {o : Option ℕ} :
    Placed (s.put c l o (nextDequeue s.data c)) := by
  rw [Locks.nextDequeue]
  split
  · refine h.put_keep (.inl ?_) (.inl rfl) ?_ rfl rfl rfl
    · simp [Pc.own, Data.setCurrent]
    · exact fun x hx => Function.update_of_ne hx _ _
  · rename_i t ts hq
    have hat : s.At (.ready 0) t := by
      rw [State.At, hq]
      exact List.mem_cons_self
    have hst : s.data.state t = .ready := h.state hat
    have hnodup := h.ready_nodup 0
    rw [hq] at hnodup
    obtain ⟨hnot, htail⟩ := List.nodup_cons.mp hnodup
    have hm : Moved s (s.put c l o (s.data.setReady 0 ts, .nextThread t)) c :=
      moved_put o fun _ _ => rfl
    have hown : ∀ x, ¬ (s.put c l o (s.data.setReady 0 ts, .nextThread t)).At (.own c) x := by
      intro x hx
      simp only [State.At, State.put, Function.update_self] at hx
      cases hx
    refine h.step_move hm (t := t) (b := .hand c) (fun _ _ => rfl) ?_ ?_ ?_ (fun _ _ hx _ => hx) ?_
      ?_ ?_ h.waiting_nodup
    · exact fun x hx _ => absurd hx (hown x)
    · intro x hx
      simp only [State.At, State.put, Function.update_self, Pc.hand, Option.some.injEq] at hx
      exact hx.symm
    · intro q x hx _
      simp only [State.put, Data.setReady, Function.update_apply] at hx
      split at hx
      · rename_i hqm
        rw [hqm, hq]
        exact List.mem_cons_of_mem t hx
      · exact hx
    · refine h.only hm hat (by simp) (fun ht => absurd ht (hown t)) (fun _ => rfl) ?_ ?_
      · intro q ht
        simp only [State.At, State.put, Data.setReady, Function.update_apply] at ht
        split at ht
        · exact absurd ht hnot
        · rename_i hqm
          exact .inr ⟨ht, by simpa using Ne.symm hqm⟩
      · exact fun q ht => .inr ⟨ht, by simp⟩
    · simpa [State.stateAt, State.put, Pc.handState, Data.setReady] using hst
    · intro q
      simp only [State.put, Data.setReady, Function.update_apply]
      split
      · exact htail
      · exact h.ready_nodup q

/-- The data and the place after a step. -/
def Action.next : Action → Option (Data × Pc)
  | .acquire _ next | .release _ next | .suspend _ next => some next
  | .stop => none

/-- A step leads to what the action of the core says, or to a panic. -/
theorem step_next (h : Locks.step s c w = some s') : (∃ l o next,
    (action s.data c w (s.pc c)).next = some next ∧ s' = s.put c l o next) ∨
    (s.Faults c w ∧ s' = s.panic c) := by
  obtain ⟨l, d, pc, ⟨ha, -, rfl⟩ | ⟨ha | ⟨t, rfl, ha⟩, rfl⟩⟩ | ⟨hfaults, rfl⟩ := step_cases h
  · exact .inl ⟨l, _, (d, pc), by rw [ha]; rfl, rfl⟩
  · exact .inl ⟨l, _, (d, pc), by rw [ha]; rfl, rfl⟩
  · exact .inl ⟨.thread t, _, (d, pc), by rw [ha]; rfl, rfl⟩
  · exact .inr ⟨hfaults, rfl⟩

/-- No step changes the process of a thread. -/
theorem process_next (h : (action d c w pc).next = some (d', pc')) : d'.process = d.process := by
  cases ha : action d c w pc with
  | acquire l next =>
      rw [ha] at h
      cases h
      exact (held_acquire ha).2
  | release l next =>
      rw [ha] at h
      cases h
      exact (held_release ha).2
  | suspend t next =>
      rw [ha] at h
      cases h
      rw [(held_suspend ha).2]
  | stop =>
      rw [ha] at h
      cases h

/-- An assertion of the code of a core fails in its next step. -/
def Data.Bad (d : Data) : Pc → Prop
  | .wakeThread t => d.state t ≠ .suspended
  | .wakeProcess _ t | .switchThread t => ¬ (d.state t = .ready ∧ t ∉ d.ready (d.process t))
  | .tryWake _ l t => d.state t ≠ .dead ∧ d.state t ≠ .waiting l
  | .killThread t =>
      ¬ (d.state t = .running ∧ t ∈ d.threads (d.process t) ∧ t ∉ d.ready (d.process t))
  | .killDrop t => d.joinWriter t = false
  | .yieldThread t => d.state t ≠ .running
  | .nextThread t => d.state t ≠ .ready
  | _ => False

/-- The data after the join future of a thread was resolved, whose state is `v` then. -/
def Data.finished (d : Data) (t : ℕ) (v : FutureWait Unit) : Data :=
  { d.setJoin t v with resolutions := Function.update d.resolutions t (d.resolutions t + 1) }

/-- `finish` resolves the future and takes its callbacks, and runs them if there are some. -/
theorem finish_eq (d : Data) (t : ℕ) : ∃ v : FutureWait Unit, v.resolved = true ∧ v.actions = [] ∧
    finish d t = (d.finished t v,
      if (d.join t).actions = [] then .dequeue (.finish t) (d.joinList t)
      else .runNonBlocking t) := by
  have hactions : ∀ v : FutureWait Unit, (if v.valRefs ≠ 0 then
      { v with val := some (.orig ()) } else v).actions = v.actions := by
    intro v
    split <;> rfl
  simp only [finish, hactions]
  split
  · rename_i hnil
    rw [if_pos hnil]
    exact ⟨_, rfl, rfl, rfl⟩
  · rename_i hcons
    have hne : (d.join t).actions ≠ [] := by simp [hcons]
    rw [if_neg hne]
    exact ⟨_, rfl, rfl, rfl⟩

/-- What the code of a core can do between two locks, with the conditions under which it does
it. -/
inductive Next (d : Data) (c : ℕ) : Pc → Data → Pc → Prop
  | panic {pc : Pc} {held : List Lock} : d.Bad pc → Next d c pc d (.panicked held)
  | wakeThread {t : ℕ} : d.state t = .suspended →
      Next d c (.wakeThread t) (d.setState t .ready) (.wakeProcess .wake t)
  | wakeProcess {k : Enqueuer} {t : ℕ} : Next d c (.wakeProcess k t) d (.enqueueDrop k t)
  | enqueueDrop {k : Enqueuer} {t : ℕ} : Next d c (.enqueueDrop k t) d (.enqueuePush k t)
  | enqueuePush {k : Enqueuer} {t : ℕ} :
      Next d c (.enqueuePush k t) (d.setReady (d.process t) (d.ready (d.process t) ++ [t])) k.next
  | dequeueNone {k : Caller} {l : ℕ} : d.waiting l = [] →
      Next d c (.dequeue k l) d (.unlockList k l false)
  | dequeueSome {k : Caller} {l t : ℕ} {ts : List ℕ} : d.waiting l = t :: ts →
      Next d c (.dequeue k l) (d.setWaiting l ts) (.tryWake k l t)
  | tryWake {k : Caller} {l t : ℕ} : d.state t = .waiting l →
      Next d c (.tryWake k l t) ((d.setState t .suspended).setState t .ready)
        (.wakeProcess (.tryWake k l) t)
  | tryWakeDead {k : Caller} {l t : ℕ} : d.state t = .dead →
      Next d c (.tryWake k l t) d (.tryWakeDead k l t)
  | dropDead {k : Caller} {l t : ℕ} : Next d c (.tryWakeDead k l t) d (.unlockList k l true)
  | again {k : Caller} {l : ℕ} : Next d c (.unlockList k l true) d (.dequeue k l)
  | woken {k : Caller} {l : ℕ} : Next d c (.unlockList k l false) d k.next
  | killProcess {t : ℕ} : Next d c (.killProcess t) d (.killThread t)
  | killThread {t : ℕ} : d.state t = .running → t ∈ d.threads (d.process t) →
      Next d c (.killThread t)
        { d.setState t .dead with
          threads := Function.update d.threads (d.process t) ((d.threads (d.process t)).erase t) }
        (.killDrop t)
  | killDrop {t : ℕ} : d.joinWriter t = true → Next d c (.killDrop t)
      { d with joinWriter := Function.update d.joinWriter t false } (.finish t)
  | finish {t : ℕ} {v : FutureWait Unit} : v.resolved = true → v.actions = [] →
      (d.join t).actions = [] →
      Next d c (.finish t) (d.finished t v) (.dequeue (.finish t) (d.joinList t))
  | finishActions {t : ℕ} {v : FutureWait Unit} : v.resolved = true → v.actions = [] →
      (d.join t).actions ≠ [] → Next d c (.finish t) (d.finished t v) (.runNonBlocking t)
  | runNonBlocking {t : ℕ} :
      Next d c (.runNonBlocking t) (d.setErrOnBlock t true) (.runNonBlockingDrop t)
  | runNonBlockingDrop {t : ℕ} :
      Next d c (.runNonBlockingDrop t) d (.dequeue (.finish t) (d.joinList t))
  | decWaitRef {t : ℕ} : Next d c (.decWaitRef t)
      (d.setJoin t { d.join t with waitRefs := (d.join t).waitRefs - 1 }) (.switchDead t)
  | switchDead {t : ℕ} : Next d c (.switchDead t) d .nextProcess
  | yieldThread {t : ℕ} : d.state t = .running →
      Next d c (.yieldThread t) (d.setState t .ready) (.switchReady t)
  | switchReady {t : ℕ} : Next d c (.switchReady t) d (.switchProcess t)
  | switchProcess {t : ℕ} : Next d c (.switchProcess t) d (.switchThread t)
  | switchThread {t : ℕ} : Next d c (.switchThread t) d (.enqueueDrop .contextSwitch t)
  | nextProcess : Next d c .nextProcess d .nextDequeue
  | nextNone : d.ready 0 = [] → Next d c .nextDequeue (d.setCurrent c none) .idle
  | nextSome {t : ℕ} {ts : List ℕ} : d.ready 0 = t :: ts →
      Next d c .nextDequeue (d.setReady 0 ts) (.nextThread t)
  | nextThread {t : ℕ} : d.state t = .ready →
      Next d c (.nextThread t) (d.setState t .running) (.nextDrop t)
  | nextDrop {t : ℕ} : Next d c (.nextDrop t) (d.setCurrent c (some t)) .idle
  | listProcesses {p : ℕ} : Next d c (.listProcesses p) d (.listProcess p)
  | listNoProcess {p : ℕ} : Next d c (.listProcesses p) d .listEnd
  | listProcess {p : ℕ} : Next d c (.listProcess p) d (.listThreads p (d.threads p))
  | listThreads {p t : ℕ} {ts : List ℕ} :
      Next d c (.listThreads p (t :: ts)) d (.listThread p t ts)
  | listThread {p t : ℕ} {ts ts' : List ℕ} : ts' = ts ∨ ts' = [] →
      Next d c (.listThread p t ts) d (.listThreads p ts')
  | listNoThread {p : ℕ} : Next d c (.listThreads p []) d .listEnd
  | listEnd : Next d c .listEnd d .idle

/-- The assertions of `enqueue_ready_thread` hold, or it panics. -/
theorem enqueueReadyThread_cases {k : Enqueuer} (h : enqueueReadyThread d k t = (d', pc')) :
    d' = d ∧ ((d.state t = .ready ∧ t ∉ d.ready (d.process t)) ∧ pc' = .enqueueDrop k t ∨
      ¬ (d.state t = .ready ∧ t ∉ d.ready (d.process t)) ∧ ∃ held, pc' = .panicked held) := by
  rw [enqueueReadyThread] at h
  split at h
  · cases h
    exact ⟨rfl, .inl ⟨‹_›, rfl⟩⟩
  · cases h
    exact ⟨rfl, .inr ⟨‹_›, _, rfl⟩⟩

/-- **Every step of a core is one of these.** -/
theorem next_of_action (h : (action d c w pc).next = some (d', pc')) : Next d c pc d' pc' := by
  cases pc with
  | idle | panicked => cases h
  | wakeThread t =>
      simp only [action, Action.next, wake, Option.some.injEq] at h
      split at h <;> cases h
      · exact .wakeThread ‹_›
      · exact .panic ‹_›
  | wakeProcess k t =>
      obtain ⟨rfl, ⟨-, rfl⟩ | ⟨hbad, held, rfl⟩⟩ := enqueueReadyThread_cases (Option.some.inj h)
      · exact .wakeProcess
      · exact .panic hbad
  | dequeue k m =>
      simp only [action, Action.next, dequeue, Option.some.injEq] at h
      split at h <;> cases h
      · exact .dequeueNone ‹_›
      · exact .dequeueSome ‹_›
  | tryWake k m t =>
      simp only [action, Action.next, tryWake, Option.some.injEq] at h
      split at h
      · cases h
        exact .tryWakeDead ‹_›
      · rename_i list hst
        split at h
        · rename_i hlist
          subst hlist
          have hwake : (d.setState t .suspended).state t = .suspended := by simp [Data.setState]
          rw [wake, if_pos hwake] at h
          cases h
          exact .tryWake hst
        · rename_i hlist
          cases h
          exact .panic ⟨by simp [hst], by simpa [hst] using hlist⟩
      · rename_i hdead hwaiting
        cases h
        exact .panic ⟨hdead, hwaiting m⟩
  | unlockList k m again =>
      cases h
      cases again
      · exact .woken
      · exact .again
  | killThread t =>
      simp only [action, Action.next, killThread, Option.some.injEq] at h
      split at h <;> cases h
      · rename_i hgood
        exact .killThread hgood.1 hgood.2.1
      · exact .panic ‹_›
  | killDrop t =>
      simp only [action, Action.next, takeJoinWriter, Option.some.injEq] at h
      split at h <;> cases h
      · exact .killDrop ‹_›
      · exact .panic (eq_false_of_ne_true ‹_›)
  | finish t =>
      obtain ⟨v, hresolved, hactions, heq⟩ := finish_eq d t
      cases heq.symm.trans (Option.some.inj h)
      split
      · exact .finish hresolved hactions ‹_›
      · exact .finishActions hresolved hactions ‹_›
  | yieldThread t =>
      simp only [action, Action.next, yieldThread, Option.some.injEq] at h
      split at h <;> cases h
      · exact .yieldThread ‹_›
      · exact .panic ‹_›
  | switchThread t =>
      obtain ⟨rfl, ⟨-, rfl⟩ | ⟨hbad, held, rfl⟩⟩ := enqueueReadyThread_cases (Option.some.inj h)
      · exact .switchThread
      · exact .panic hbad
  | nextDequeue =>
      simp only [action, Action.next, nextDequeue, Option.some.injEq] at h
      split at h <;> cases h
      · exact .nextNone ‹_›
      · exact .nextSome ‹_›
  | nextThread t =>
      simp only [action, Action.next, nextThread, Option.some.injEq] at h
      split at h <;> cases h
      · exact .nextThread ‹_›
      · exact .panic ‹_›
  | listProcesses p =>
      simp only [action, Action.next, Option.some.injEq, Prod.mk.injEq] at h
      obtain ⟨rfl, rfl⟩ := h
      split
      · exact .listProcesses
      · exact .listNoProcess
  | listThreads p ts =>
      cases ts <;> cases h
      · exact .listNoThread
      · exact .listThreads
  | listThread p t ts =>
      cases h
      refine .listThread ?_
      split
      · exact .inl rfl
      · exact .inr rfl
  | _ =>
      cases h
      constructor

/-- A panic moves no thread. -/
theorem Placed.panic (h : Placed s) : Placed (s.panic c) := by
  have hm : Moved s (s.panic c) c := ⟨fun x hx => panic_pc_of_ne hx, fun _ _ => rfl⟩
  refine h.step_keep hm (fun x hx => ?_) (fun x hx => ?_) rfl rfl rfl
  · rw [State.At, panic_pc_self] at hx
    cases hx
  · rw [State.At, panic_pc_self] at hx
    cases hx

/-- The code between the operations moves no thread. -/
theorem Placed.quiet (h : Placed s) (hq : Quiet s s') : Placed s' := by
  have hstate : s'.data.state = s.data.state := by rw [hq.data]
  refine h.keep (fun a x hx => ?_) hstate (by rw [hq.data]) (by rw [hq.data])
  have hat : s'.At a x = s.At a x := by
    cases a <;> simp only [State.At, hq.pc] <;> rw [hq.data]
  have hstateAt : s'.stateAt a = s.stateAt a := by
    cases a <;> simp only [State.stateAt, hq.pc]
  exact ⟨hat ▸ hx, hstateAt⟩

/-- Beginning an operation moves no thread. -/
theorem Placed.begin (h : Placed s) {op : Op} (hs : begin s c op = some s') : Placed s' := by
  obtain ⟨pc, hidle, hentry, rfl⟩ := begin_cases hs
  have hm : Moved s { s with pc := Function.update s.pc c pc } c :=
    ⟨fun x hx => Function.update_of_ne hx _ _, fun _ _ => rfl⟩
  have hpc : pc.own (s.data.current c) = s.data.current c ∧ pc.ownState = .running ∧
      pc.hand = none := by
    cases op with
    | killCurrent | yieldCurrent =>
        obtain ⟨t, ht, rfl⟩ := Option.map_eq_some_iff.mp hentry
        exact ⟨ht.symm, rfl, rfl⟩
    | _ =>
        cases hentry
        exact ⟨rfl, rfl, rfl⟩
  refine h.step_keep hm (fun x hx => ?_) (fun x hx => ?_) rfl rfl rfl
  · simp only [State.At, Function.update_self, hpc.1, hidle] at hx ⊢
    exact ⟨hx, hpc.2.1⟩
  · simp only [State.At, Function.update_self, hpc.2.2] at hx
    cases hx

/-- A step of a core leaves every thread at one place. -/
theorem Placed.put (h : Placed s) {o : Option ℕ} {next : Data × Pc}
    (hnext : (action s.data c w (s.pc c)).next = some next) : Placed (s.put c l o next) := by
  cases hpc : s.pc c with
  | idle | panicked =>
      rw [hpc] at hnext
      cases hnext
  | wakeThread t =>
      rw [hpc] at hnext
      cases hnext
      exact h.wake hpc
  | wakeProcess k t =>
      rw [hpc] at hnext
      simp only [action, Action.next, enqueueReadyThread, Option.some.injEq] at hnext
      split at hnext
      · subst hnext
        exact h.put_keep (.inr ⟨by rw [hpc]; rfl, by rw [hpc]; rfl⟩)
          (.inr ⟨by rw [hpc]; rfl, by rw [hpc]; rfl⟩) (fun _ _ => rfl) rfl rfl rfl
      · subst hnext
        exact h.put_keep (.inl rfl) (.inl rfl) (fun _ _ => rfl) rfl rfl rfl
  | enqueueDrop k t =>
      rw [hpc] at hnext
      cases hnext
      exact h.put_keep (.inr ⟨by rw [hpc]; rfl, by rw [hpc]; rfl⟩)
        (.inr ⟨by rw [hpc]; rfl, by rw [hpc]; rfl⟩) (fun _ _ => rfl) rfl rfl rfl
  | enqueuePush k t =>
      rw [hpc] at hnext
      cases hnext
      exact h.enqueuePush hpc
  | dequeue k m =>
      rw [hpc] at hnext
      cases hnext
      exact h.dequeue hpc
  | tryWake k m t =>
      rw [hpc] at hnext
      cases hnext
      exact (h.tryWake hpc).1
  | unlockList k m again =>
      rw [hpc] at hnext
      cases hnext
      refine h.put_keep (.inr ?_) (.inl ?_) (fun _ _ => rfl) rfl rfl rfl
      · rw [hpc]
        cases again <;> cases k <;> exact ⟨rfl, rfl⟩
      · cases again <;> cases k <;> rfl
  | killThread t =>
      rw [hpc] at hnext
      cases hnext
      exact h.killThread hpc
  | killDrop t =>
      rw [hpc] at hnext
      simp only [action, Action.next, takeJoinWriter, Option.some.injEq] at hnext
      split at hnext
      · subst hnext
        exact h.put_keep (.inr ⟨by rw [hpc]; rfl, by rw [hpc]; rfl⟩) (.inl rfl)
          (fun _ _ => rfl) rfl rfl rfl
      · subst hnext
        exact h.put_keep (.inl rfl) (.inl rfl) (fun _ _ => rfl) rfl rfl rfl
  | finish t =>
      rw [hpc] at hnext
      simp only [action, Action.next, Locks.finish, Option.some.injEq] at hnext
      split at hnext <;>
      · subst hnext
        exact h.put_keep (.inr ⟨by rw [hpc]; rfl, by rw [hpc]; rfl⟩) (.inl rfl)
          (fun _ _ => rfl) rfl rfl rfl
  | yieldThread t =>
      rw [hpc] at hnext
      cases hnext
      exact h.yieldThread hpc
  | switchThread t =>
      rw [hpc] at hnext
      cases hnext
      exact h.switchThread hpc
  | nextDequeue =>
      rw [hpc] at hnext
      cases hnext
      exact h.nextDequeue
  | nextThread t =>
      rw [hpc] at hnext
      cases hnext
      exact h.nextThread hpc
  | nextDrop t =>
      rw [hpc] at hnext
      cases hnext
      exact h.nextDrop hpc
  | listProcesses p =>
      rw [hpc] at hnext
      cases hnext
      refine h.put_keep (.inr ?_) (.inl ?_) (fun _ _ => rfl) rfl rfl rfl
      · rw [hpc]
        split <;> exact ⟨rfl, rfl⟩
      · split <;> rfl
  | listThreads p ts =>
      rw [hpc] at hnext
      cases ts <;>
      · cases hnext
        exact h.put_keep (.inr ⟨by rw [hpc]; rfl, by rw [hpc]; rfl⟩) (.inl rfl)
          (fun _ _ => rfl) rfl rfl rfl
  | switchDead t =>
      rw [hpc] at hnext
      cases hnext
      exact h.put_keep (.inl rfl) (.inl rfl) (fun _ _ => rfl) rfl rfl rfl
  | _ =>
      rw [hpc] at hnext
      cases hnext
      exact h.put_keep (.inr ⟨by rw [hpc]; rfl, by rw [hpc]; rfl⟩) (.inl rfl)
        (fun _ _ => rfl) rfl rfl rfl

/-- Every step leaves every thread at one place. -/
theorem Placed.step {a : Label} (h : Placed s) (hstep : Step s a s') : Placed s' := by
  cases a with
  | start c op => exact h.begin hstep
  | go c w =>
      obtain ⟨l, o, next, hnext, rfl⟩ | ⟨-, rfl⟩ := step_next hstep
      · exact h.put hnext
      · exact h.panic
  | consume t v => exact h.quiet (quiet_consume hstep)
  | prepare c n err => exact h.quiet (prepare_cases hstep).2.2.2.2

end HydroxKernel.Locks
