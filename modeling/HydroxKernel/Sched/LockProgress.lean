import Mathlib.Algebra.BigOperators.Group.Finset.Basic
import Mathlib.Algebra.Order.BigOperators.Group.Finset
import Mathlib.Data.Set.Finite.Basic
import HydroxKernel.Sched.LockOrder

/-!
# Operations of the Scheduler Come to an End

In a run in which the operations are used as they ask to be, no core panics, and no core tries
to acquire a lock that it holds. Since there is no deadlock either, some core can always go on.
Each operation has only so much work left, which the steps of other cores do not add to, so
that every operation that has begun comes to an end if the cores begin no other.

## Main results

* `Orderly.step`: an orderly step leads to no panic.
* `Orderly.exists_canGo`: while a core is in an operation, some core can go on.
* `Orderly.exists_bound`: the cores go on only so often without beginning anything.
-/

namespace HydroxKernel.Locks

open Sched (ThreadState)
open Future (FutureWait)

variable {s s' : State} {d d' : Data} {c t : ℕ} {w : Bool} {l : Lock} {pc pc' : Pc}

/-! ### Orderly steps -/

/-- The thread that is being killed, for the caller of `wake_one` or `wake_all`. -/
def Caller.dying : Caller → Option ℕ
  | .wakeOne | .wakeAll => none
  | .finish t => some t

/-- The thread that is being killed, for the caller of `enqueue_ready_thread`. -/
def Enqueuer.dying : Enqueuer → Option ℕ
  | .wake | .contextSwitch => none
  | .tryWake k _ => k.dying

/-- The thread that is being killed: the core is in `kill_current`. -/
def Pc.dying : Pc → Option ℕ
  | .killProcess t | .killThread t | .killDrop t | .finish t | .runNonBlocking t => some t
  | .runNonBlockingDrop t | .decWaitRef t | .switchDead t => some t
  | .wakeProcess k _ | .enqueueDrop k _ | .enqueuePush k _ => k.dying
  | .dequeue k _ | .tryWake k _ _ | .tryWakeDead k _ _ | .unlockList k _ _ => k.dying
  | _ => none

/-- The thread that is being killed and whose join future is not resolved yet. -/
def Pc.unresolved : Pc → Option ℕ
  | .killProcess t | .killThread t | .killDrop t | .finish t => some t
  | _ => none

/-- The thread that is going to be suspended by `suspend_current`. -/
def Pc.suspends : Pc → Option ℕ
  | .yieldThread t | .switchReady t => some t
  | pc => pc.dying

/-- The code of a core may block: it holds no `InterruptDisabler`, and is not told that its
thread must not block. -/
def State.MayBlock (s : State) (c : ℕ) : Prop :=
  s.numHeld c = 0 ∧ ∀ t, s.data.current c = some t → s.data.errOnBlock t = false

/-- What the operations ask of the code that uses them. A thread yields or dies only where it
may block, a thread that dies has no callback on its join future, and gets none while it dies,
and only suspended threads are woken by `ThreadLock::wake`. -/
def State.Asks (s : State) : Label → Prop
  | .start c .killCurrent =>
      s.MayBlock c ∧ ∀ t, s.data.current c = some t → (s.data.join t).actions = []
  | .start c .yieldCurrent => s.MayBlock c
  | .start _ _ | .prepare _ _ _ => True
  | .consume t v => v.actions ≠ [] → ∀ c, (s.pc c).dying ≠ some t
  | .go c _ => ∀ t, s.pc c = .wakeThread t → s.data.state t = .suspended

/-- One step of the system that is clear of listings and is as the operations ask. -/
def OrderlyStep (s : State) (a : Label) (s' : State) : Prop := s.Asks a ∧ ClearStep s a s'

/-- What holds in every state that is reached by orderly steps. -/
structure Orderly (s : State) : Prop where
  inv : Inv s
  suspends : ∀ c t, (s.pc c).suspends = some t →
    s.numHeld c = ((s.pc c).held s.data.process).length ∧ s.data.errOnBlock t = false
  actions : ∀ c t, (s.pc c).unresolved = some t → (s.data.join t).actions = []
  no_callback : ∀ c t, s.pc c ≠ .runNonBlocking t ∧ s.pc c ≠ .runNonBlockingDrop t
  no_panic : ∀ c held, s.pc c ≠ .panicked held
  threads : ∀ t, s.data.state t ≠ .dead → t ∈ s.data.threads (s.data.process t)
  joinWriter : ∀ t, (s.data.state t ≠ .dead ∨ ∃ c, s.pc c = .killDrop t) →
    s.data.joinWriter t = true
  busy : {c | s.pc c ≠ .idle}.Finite

/-- A thread whose join future is not resolved yet is being killed. -/
theorem dying_of_unresolved (h : pc.unresolved = some t) : pc.dying = some t := by
  cases pc <;> first | exact h | cases h

/-- A core runs the thread that it is going to suspend. -/
theorem own_of_suspends (h : pc.suspends = some t) (current : Option ℕ) :
    pc.own current = some t := by
  have hcaller : ∀ k : Caller, k.dying = some t → k.own current = some t := by
    intro k hk
    cases k with
    | finish u => exact hk
    | _ => cases hk
  cases pc with
  | wakeProcess k u | enqueueDrop k u | enqueuePush k u =>
      cases k with
      | tryWake k m => exact hcaller k h
      | _ => cases h
  | dequeue k m | tryWake k m u | tryWakeDead k m u | unlockList k m again => exact hcaller k h
  | _ => first | exact h | cases h

/-- A core suspends the thread that it is killing. -/
theorem suspends_of_dying (h : pc.dying = some t) : pc.suspends = some t := by
  cases pc <;> first | exact h | cases h

/-! ### What one step does -/

/-- What comes after `enqueue_ready_thread` suspends and kills what came before. -/
theorem dying_enqueuer_next (k : Enqueuer) :
    k.next.suspends = k.dying ∧ k.next.unresolved = none ∧ k.next.dying = k.dying := by
  cases k with
  | tryWake k m => cases k <;> exact ⟨rfl, rfl, rfl⟩
  | _ => exact ⟨rfl, rfl, rfl⟩

/-- What comes after `wake_one` or `wake_all` suspends and kills what came before. -/
theorem dying_caller_next (k : Caller) :
    k.next.suspends = k.dying ∧ k.next.unresolved = none ∧ k.next.dying = k.dying := by
  cases k <;> exact ⟨rfl, rfl, rfl⟩

/-- A step begins to suspend or to kill no thread, and the join future of the thread that is
killed is resolved once. -/
theorem dying_next (h : (action d c w pc).next = some (d', pc')) :
    (∀ t, pc'.suspends = some t → pc.suspends = some t) ∧
      (∀ t, pc'.unresolved = some t → pc.unresolved = some t) := by
  cases next_of_action h with
  | @enqueuePush k _ =>
      obtain ⟨hsuspends, hnone, -⟩ := dying_enqueuer_next k
      rw [hsuspends, hnone]
      exact ⟨fun t ht => ht, fun t ht => by cases ht⟩
  | @woken k _ =>
      obtain ⟨hsuspends, hnone, -⟩ := dying_caller_next k
      rw [hsuspends, hnone]
      exact ⟨fun t ht => ht, fun t ht => by cases ht⟩
  | _ => refine ⟨fun t ht => ?_, fun t ht => ?_⟩ <;> first | exact ht | cases ht

/-- What a step leaves alone: what is said about blocking, apart from `run_non_blocking`, the
emptiness of the callbacks, the dead threads, and the join writers of the other threads. -/
theorem data_next (h : (action d c w pc).next = some (d', pc')) :
    ((∀ t, pc ≠ .runNonBlocking t) → d'.errOnBlock = d.errOnBlock) ∧
      (∀ t, (d.join t).actions = [] → (d'.join t).actions = []) ∧
      (∀ t, d.state t = .dead → d'.state t = .dead) ∧
      (∀ t, pc ≠ .killDrop t → d'.joinWriter t = d.joinWriter t) := by
  have hset : ∀ {t : ℕ} {st : ThreadState} {d : Data}, d.state t ≠ .dead →
      ∀ x, d.state x = .dead → (d.setState t st).state x = .dead := by
    intro t st d ht x hx
    have hne : x ≠ t := fun hxt => ht (hxt ▸ hx)
    exact (Function.update_of_ne hne _ _).trans hx
  have hjoin : ∀ {t : ℕ} {v : FutureWait Unit}, ((d.join t).actions = [] → v.actions = []) →
      ∀ x, (d.join x).actions = [] → ((d.setJoin t v).join x).actions = [] := by
    intro t v hv x hx
    simp only [Data.setJoin, Function.update_apply]
    split
    · rename_i hxt
      exact hv (hxt ▸ hx)
    · exact hx
  cases next_of_action h with
  | wakeThread ht => exact ⟨fun _ => rfl, fun _ hx => hx, hset (by simp [ht]), fun _ _ => rfl⟩
  | tryWake ht =>
      refine ⟨fun _ => rfl, fun _ hx => hx, fun x hx => hset ?_ x (hset ?_ x hx), fun _ _ => rfl⟩
      · simp [Data.setState]
      · simp [ht]
  | killThread ht hmem =>
      refine ⟨fun _ => rfl, fun _ hx => hx, hset (by simp [ht]), fun _ _ => rfl⟩
  | @killDrop t =>
      refine ⟨fun _ => rfl, fun _ hx => hx, fun _ hx => hx, fun x hx => ?_⟩
      refine Function.update_of_ne ?_ _ _
      rintro rfl
      exact hx rfl
  | finish hv ha => exact ⟨fun _ => rfl, hjoin fun _ => ha, fun _ hx => hx, fun _ _ => rfl⟩
  | finishActions hv ha => exact ⟨fun _ => rfl, hjoin fun _ => ha, fun _ hx => hx, fun _ _ => rfl⟩
  | runNonBlocking => exact ⟨fun hno => absurd rfl (hno _), fun _ hx => hx, fun _ hx => hx,
      fun _ _ => rfl⟩
  | decWaitRef => exact ⟨fun _ => rfl, hjoin id, fun _ hx => hx, fun _ _ => rfl⟩
  | yieldThread ht => exact ⟨fun _ => rfl, fun _ hx => hx, hset (by simp [ht]), fun _ _ => rfl⟩
  | nextThread ht => exact ⟨fun _ => rfl, fun _ hx => hx, hset (by simp [ht]), fun _ _ => rfl⟩
  | _ => exact ⟨fun _ => rfl, fun _ hx => hx, fun _ hx => hx, fun _ _ => rfl⟩

/-! ### No panic -/

/-- A core waits for no lock that it holds. -/
theorem Orderly.not_mem_held (h : Orderly s) {next : Data × Pc}
    (ha : action s.data c w (s.pc c) = .acquire l next) :
    l ∉ (s.pc c).held s.data.process := by
  cases hpc : s.pc c with
  | wakeProcess k t =>
      rw [hpc] at ha
      cases ha
      cases k with
      | tryWake k m => cases k <;> simp [Pc.held, Enqueuer.held, Caller.held]
      | _ => simp [Pc.held, Enqueuer.held]
  | dequeue k m =>
      rw [hpc] at ha
      cases ha
      cases k <;> simp [Pc.held, Caller.held]
  | tryWake k m t =>
      have hhand : (s.pc c).hand = some t := by
        rw [hpc]
        rfl
      rw [hpc] at ha
      cases ha
      cases k with
      | finish u =>
          have hown : (s.pc c).own (s.data.current c) = some u := by
            rw [hpc]
            rfl
          simpa [Pc.held, Caller.held] using (h.inv.placed.own_ne_hand hhand hown).symm
      | _ => simp [Pc.held, Caller.held]
  | runNonBlocking t => exact absurd hpc (h.no_callback c t).1
  | listThreads p ts =>
      rw [hpc] at ha
      cases ts <;> cases ha
      simp [Pc.held]
  | _ =>
      rw [hpc] at ha
      cases ha <;> simp [Pc.held]

/-- No core is about to panic at a lock. -/
theorem Orderly.not_faults (h : Orderly s) : ¬ s.Faults c w := by
  rintro (⟨l, next, ha, hown⟩ | ⟨t, next, ha, hbad⟩)
  · exact h.not_mem_held ha ((h.inv.locked.owner_iff c l).mp hown)
  · have hsuspends : (s.pc c).suspends = some t := by
      cases hpc : s.pc c with
      | listThreads p ts =>
          rw [hpc] at ha
          cases ts <;> cases ha
      | _ =>
          rw [hpc] at ha
          cases ha <;> rfl
    obtain ⟨hnum, herr⟩ := h.suspends c t hsuspends
    obtain ⟨d, pc⟩ := next
    refine hbad ⟨?_, herr⟩
    rw [hnum, ((held_suspend ha).1 _).1]
    rfl

/-- The state of the thread that a core runs. -/
theorem Orderly.own_state (h : Orderly s) (hown : (s.pc c).own (s.data.current c) = some t) :
    s.data.state t = (s.pc c).ownState := by
  have hat : s.At (.own c) t := hown
  exact h.inv.placed.state hat

/-- The state of the thread that a core moves. -/
theorem Orderly.hand_state (h : Orderly s) (hhand : (s.pc c).hand = some t) :
    s.data.state t = (s.pc c).handState := by
  have hat : s.At (.hand c) t := hhand
  exact h.inv.placed.state hat

/-- A thread that a core runs or moves is on no ready queue. -/
theorem Orderly.not_mem_ready (h : Orderly s)
    (ht : (s.pc c).own (s.data.current c) = some t ∨ (s.pc c).hand = some t) (p : ℕ) :
    t ∉ s.data.ready p := by
  intro hmem
  have hready : s.At (.ready p) t := hmem
  rcases ht with hown | hhand
  · have hat : s.At (.own c) t := hown
    cases h.inv.placed.unique hat hready
  · have hat : s.At (.hand c) t := hhand
    cases h.inv.placed.unique hat hready

/-- **No assertion of the code fails** in an orderly step. -/
theorem Orderly.not_bad (h : Orderly s) (ha : s.Asks (.go c w)) : ¬ s.data.Bad (s.pc c) := by
  intro hbad
  cases hpc : s.pc c with
  | wakeThread t =>
      rw [hpc] at hbad
      exact hbad (ha t hpc)
  | wakeProcess k t =>
      have hhand : (s.pc c).hand = some t := by rw [hpc]; rfl
      have hst := h.hand_state hhand
      rw [hpc] at hbad hst
      exact hbad ⟨hst, h.not_mem_ready (.inr hhand) _⟩
  | switchThread t =>
      have hown : (s.pc c).own (s.data.current c) = some t := by rw [hpc]; rfl
      have hst := h.own_state hown
      rw [hpc] at hbad hst
      exact hbad ⟨hst, h.not_mem_ready (.inl hown) _⟩
  | tryWake k m t =>
      have hhand : (s.pc c).hand = some t := by rw [hpc]; rfl
      have hst := h.hand_state hhand
      rw [hpc] at hbad hst
      exact hbad.2 hst
  | killThread t =>
      have hown : (s.pc c).own (s.data.current c) = some t := by rw [hpc]; rfl
      have hst := h.own_state hown
      rw [hpc] at hbad hst
      have hlive : s.data.state t ≠ .dead := by
        rw [hst]
        simp [Pc.ownState]
      exact hbad ⟨hst, h.threads t hlive, h.not_mem_ready (.inl hown) _⟩
  | killDrop t =>
      rw [hpc] at hbad
      have hwriter := h.joinWriter t (.inr ⟨c, hpc⟩)
      cases hwriter.symm.trans hbad
  | yieldThread t =>
      have hown : (s.pc c).own (s.data.current c) = some t := by rw [hpc]; rfl
      have hst := h.own_state hown
      rw [hpc] at hbad hst
      exact hbad hst
  | nextThread t =>
      have hhand : (s.pc c).hand = some t := by rw [hpc]; rfl
      have hst := h.hand_state hhand
      rw [hpc] at hbad hst
      exact hbad hst
  | _ =>
      rw [hpc] at hbad
      exact hbad

/-- A core panics between two locks only if an assertion fails. -/
theorem bad_of_panicked {held : List Lock}
    (h : (action d c w pc).next = some (d', .panicked held)) : d.Bad pc := by
  generalize hpc : Pc.panicked held = pc' at h
  cases next_of_action h with
  | panic hbad => exact hbad
  | @enqueuePush k t =>
      cases k with
      | tryWake k m => cases k <;> cases hpc
      | _ => cases hpc
  | @woken k m => cases k <;> cases hpc
  | _ => cases hpc

/-- An orderly step of a core puts it at another place, where it has not panicked. -/
theorem Orderly.go_cases (h : Orderly s) (hstep : OrderlyStep s (.go c w) s') :
    ∃ l o d pc, (action s.data c w (s.pc c)).next = some (d, pc) ∧ s' = s.put c l o (d, pc) ∧
      ∀ held, pc ≠ .panicked held := by
  obtain ⟨l, o, ⟨d, pc⟩, hnext, rfl⟩ | ⟨hfaults, -⟩ := step_next hstep.2.2
  · refine ⟨l, o, d, pc, hnext, rfl, ?_⟩
    rintro held rfl
    exact h.not_bad hstep.1 (bad_of_panicked hnext)
  · exact absurd hfaults h.not_faults

/-- A core that makes a step in which it acquires a lock finds it free. -/
theorem Orderly.owner_eq_none (h : Orderly s) (hstep : OrderlyStep s (.go c w) s')
    {next : Data × Pc} (ha : action s.data c w (s.pc c) = .acquire l next) :
    s.owner l = none := by
  obtain ⟨m, d, pc, ⟨ha', hm, -⟩ | ⟨ha' | ⟨t, -, ha'⟩, -⟩⟩ | ⟨hfaults, -⟩ := step_cases hstep.2.2
  · cases ha.symm.trans ha'
    exact hm
  · cases ha.symm.trans ha'
  · cases ha.symm.trans ha'
  · exact absurd hfaults h.not_faults

/-- If the `InterruptDisabler`s of a core are those of its locks, then they stay it. -/
theorem Orderly.numHeld_go (h : Orderly s) (hstep : OrderlyStep s (.go c w) s')
    (hnum : s.numHeld c = ((s.pc c).held s.data.process).length) :
    s'.numHeld c = ((s'.pc c).held s'.data.process).length := by
  obtain ⟨l, d, pc, ⟨ha, -, rfl⟩ | ⟨ha, rfl⟩⟩ | ⟨hfaults, -⟩ := step_cases hstep.2.2
  · obtain ⟨hperm, hp⟩ := held_acquire ha
    rw [held_put hp, if_pos rfl, hperm.length_eq]
    simp [State.put, hnum]
  · obtain ⟨hperm, hp⟩ := held_releases ha
    rw [hperm.length_eq] at hnum
    rw [held_put hp, if_pos rfl]
    simp [State.put, hnum]
  · exact absurd hfaults h.not_faults

/-- Where the cores are after a step of one of them. -/
theorem put_pc {o : Option ℕ} {next : Data × Pc} (x : ℕ) :
    (s.put c l o next).pc x = if x = c then next.2 else s.pc x := Function.update_apply _ _ _ _

/-- A core kills a thread only if it did so before a step, which was its own or not. -/
theorem suspends_put {o : Option ℕ} {x : ℕ}
    (hnext : (action s.data c w (s.pc c)).next = some (d, pc))
    (ht : ((s.put c l o (d, pc)).pc x).suspends = some t) : (s.pc x).suspends = some t := by
  rw [put_pc] at ht
  split at ht
  · rename_i hx
    rw [hx]
    exact (dying_next hnext).1 t ht
  · exact ht

/-- The steps of the cores keep what is said of the threads that are going to be suspended. -/
theorem Orderly.suspends_go (h : Orderly s) (hstep : OrderlyStep s (.go c w) s') {x : ℕ}
    (ht : (s'.pc x).suspends = some t) :
    s'.numHeld x = ((s'.pc x).held s'.data.process).length ∧ s'.data.errOnBlock t = false := by
  have hnum := h.numHeld_go hstep
  obtain ⟨l, o, d, pc, hnext, rfl, -⟩ := h.go_cases hstep
  obtain ⟨hx, herr⟩ := h.suspends x t (suspends_put hnext ht)
  have herr' : d.errOnBlock = s.data.errOnBlock :=
    (data_next hnext).1 fun u hu => (h.no_callback c u).1 hu
  refine ⟨?_, (congrFun herr' t).trans herr⟩
  rcases eq_or_ne x c with rfl | hne
  · exact hnum hx
  · rw [held_put (process_next hnext), if_neg hne, ← hx]
    exact Function.update_of_ne hne _ _

/-- The steps of the cores run no callback. -/
theorem Orderly.no_callback_go (h : Orderly s)
    (hnext : (action s.data c w (s.pc c)).next = some (d, pc)) (t : ℕ) :
    pc ≠ .runNonBlocking t ∧ pc ≠ .runNonBlockingDrop t := by
  have hactions := h.actions c
  have hno := h.no_callback c
  generalize s.pc c = pc₀ at hnext hactions hno
  cases next_of_action hnext with
  | @finishActions u _ _ _ hne => exact absurd (hactions u rfl) hne
  | runNonBlocking => exact absurd rfl (hno _).1
  | @enqueuePush k _ =>
      cases k with
      | tryWake k m => cases k <;> simp [Enqueuer.next]
      | _ => simp [Enqueuer.next]
  | @woken k _ => cases k <;> simp [Caller.next]
  | _ => simp

/-- The live threads stay listed. -/
theorem Orderly.threads_go (h : Orderly s)
    (hnext : (action s.data c w (s.pc c)).next = some (d, pc)) (ht : d.state t ≠ .dead) :
    t ∈ d.threads (d.process t) := by
  have hlive : s.data.state t ≠ .dead := fun hdead => ht ((data_next hnext).2.2.1 t hdead)
  have hmem := h.threads t hlive
  rw [process_next hnext]
  by_cases hk : ∃ u, s.pc c = .killThread u
  · obtain ⟨u, hpc⟩ := hk
    rw [hpc] at hnext
    cases next_of_action hnext with
    | panic => exact hmem
    | killThread hrun hu =>
        have htu : t ≠ u := by
          rintro rfl
          exact ht (Function.update_self _ _ _)
        simp only [Function.update_apply]
        split
        · rename_i hp
          rw [← hp]
          exact (List.mem_erase_of_ne htu).mpr hmem
        · exact hmem
  · rw [(threads_next hnext fun u hu => hk ⟨u, hu⟩).1]
    exact hmem

/-- A core gets to where it takes the join writer of a thread by killing the thread. -/
theorem killDrop_next (h : (action d c w pc).next = some (d', .killDrop t)) :
    pc = .killThread t ∧ d.state t = .running := by
  generalize hpc : Pc.killDrop t = pc' at h
  cases next_of_action h with
  | killThread hrun =>
      cases hpc
      exact ⟨rfl, hrun⟩
  | @enqueuePush k t =>
      cases k with
      | tryWake k m => cases k <;> cases hpc
      | _ => cases hpc
  | @woken k m => cases k <;> cases hpc
  | _ => cases hpc

/-- One core at most takes the join writer of a thread, and the thread is dead. -/
theorem Orderly.killDrop_unique (h : Orderly s) {x : ℕ} (hc : s.pc c = .killDrop t) :
    s.data.state t = .dead ∧ (s.pc x = .killDrop t → x = c) := by
  have hown : s.At (.own c) t := by
    rw [State.At, hc]
    rfl
  refine ⟨?_, fun hx => ?_⟩
  · rw [h.inv.placed.state hown, State.stateAt, hc]
    rfl
  · have hown' : s.At (.own x) t := by
      rw [State.At, hx]
      rfl
    cases h.inv.placed.unique hown' hown
    rfl

/-- The join writers stay until they are taken. -/
theorem Orderly.joinWriter_go (h : Orderly s) {o : Option ℕ}
    (hnext : (action s.data c w (s.pc c)).next = some (d, pc))
    (ht : d.state t ≠ .dead ∨ ∃ x, (s.put c l o (d, pc)).pc x = .killDrop t) :
    d.joinWriter t = true := by
  have hdead := (data_next hnext).2.2.1 t
  have hold : s.data.state t ≠ .dead ∨ ∃ x ≠ c, s.pc x = .killDrop t := by
    rcases ht with hlive | ⟨x, hx⟩
    · exact .inl fun h => hlive (hdead h)
    · rw [put_pc] at hx
      split at hx
      · subst hx
        refine .inl ?_
        rw [(killDrop_next hnext).2]
        decide
      · rename_i hne
        exact .inr ⟨x, hne, hx⟩
  have hwriter : s.data.joinWriter t = true := by
    rcases hold with hlive | ⟨x, -, hx⟩
    · exact h.joinWriter t (.inl hlive)
    · exact h.joinWriter t (.inr ⟨x, hx⟩)
  have hkeep : s.pc c ≠ .killDrop t := by
    intro hc
    obtain ⟨hst, -⟩ := h.killDrop_unique (x := c) hc
    rcases hold with hlive | ⟨x, hne, hx⟩
    · exact hlive hst
    · exact hne ((h.killDrop_unique hc).2 hx)
  rw [(data_next hnext).2.2.2 t hkeep, hwriter]

/-- The invariant after an orderly step of a core. -/
theorem Orderly.go (h : Orderly s) (hstep : OrderlyStep s (.go c w) s') : Orderly s' := by
  have hinv := h.inv.step hstep.2
  have hsuspends := fun x t => h.suspends_go hstep (x := x) (t := t)
  obtain ⟨l, o, d, pc, hnext, rfl, hpanic⟩ := h.go_cases hstep
  refine ⟨hinv, hsuspends, fun x t ht => ?_, fun x t => ?_, fun x held => ?_,
    fun t => h.threads_go hnext, fun t => h.joinWriter_go hnext, ?_⟩
  · refine (data_next hnext).2.1 t (h.actions x t ?_)
    rw [put_pc] at ht
    split at ht
    · rename_i hx
      rw [hx]
      exact (dying_next hnext).2 t ht
    · exact ht
  · rw [put_pc]
    split
    · exact h.no_callback_go hnext t
    · exact h.no_callback x t
  · rw [put_pc]
    split
    · exact hpanic held
    · exact h.no_panic x held
  · refine (h.busy.insert c).subset fun x hx => ?_
    change (s.put c l o (d, pc)).pc x ≠ .idle at hx
    rw [put_pc] at hx
    rcases eq_or_ne x c with rfl | hne
    · exact Set.mem_insert x _
    · rw [if_neg hne] at hx
      exact Set.mem_insert_of_mem c hx

/-- An operation that begins is at its entry, where nothing is held. -/
theorem entry_cases {op : Op} {current : Option ℕ} (h : op.entry current = some pc) :
    (∀ t, pc.suspends = some t → current = some t ∧ (op = .killCurrent ∨ op = .yieldCurrent)) ∧
      (∀ t, pc.unresolved = some t → current = some t ∧ op = .killCurrent) ∧
      (∀ t, pc ≠ .runNonBlocking t ∧ pc ≠ .runNonBlockingDrop t ∧ pc ≠ .killDrop t) ∧
      ∀ held, pc ≠ .panicked held := by
  cases op with
  | killCurrent =>
      obtain ⟨u, rfl, rfl⟩ := Option.map_eq_some_iff.mp h
      exact ⟨fun t ht => ⟨ht, .inl rfl⟩, fun t ht => ⟨ht, rfl⟩, by simp, by simp⟩
  | yieldCurrent =>
      obtain ⟨u, rfl, rfl⟩ := Option.map_eq_some_iff.mp h
      exact ⟨fun t ht => ⟨ht, .inr rfl⟩, fun t ht => (by cases ht), by simp, by simp⟩
  | _ =>
      cases h
      exact ⟨fun t ht => (by cases ht), fun t ht => (by cases ht), by simp, by simp⟩

/-- The invariant after an operation has begun as it asks. -/
theorem Orderly.start (h : Orderly s) {op : Op} (hstep : OrderlyStep s (.start c op) s') :
    Orderly s' := by
  have hinv := h.inv.step hstep.2
  obtain ⟨hasks, -, hbegin⟩ := hstep
  obtain ⟨pc, hidle, hentry, rfl⟩ := begin_cases hbegin
  obtain ⟨hsuspends, hunresolved, hno, hpanic⟩ := entry_cases hentry
  have hpc : ∀ x, Function.update s.pc c pc x = if x = c then pc else s.pc x :=
    Function.update_apply _ _ _
  refine ⟨hinv, fun x t ht => ?_, fun x t ht => ?_, fun x t => ?_, fun x held => ?_, h.threads,
    fun t ht => h.joinWriter t ?_, ?_⟩
  · simp only [hpc] at ht ⊢
    split at ht
    · rename_i hx
      subst hx
      obtain ⟨hcurrent, hop⟩ := hsuspends t ht
      have hblock : s.MayBlock x := by
        rcases hop with rfl | rfl
        · exact hasks.1
        · exact hasks
      rw [if_pos rfl, held_entry hentry]
      exact ⟨hblock.1, hblock.2 t hcurrent⟩
    · rename_i hx
      rw [if_neg hx]
      exact h.suspends x t ht
  · simp only [hpc] at ht
    split at ht
    · obtain ⟨hcurrent, rfl⟩ := hunresolved t ht
      exact hasks.2 t hcurrent
    · exact h.actions x t ht
  · simp only [hpc]
    split
    · exact ⟨(hno t).1, (hno t).2.1⟩
    · exact h.no_callback x t
  · simp only [hpc]
    split
    · exact hpanic held
    · exact h.no_panic x held
  · rcases ht with hlive | ⟨x, hx⟩
    · exact .inl hlive
    · simp only [hpc] at hx
      split at hx
      · exact absurd hx (hno t).2.2
      · exact .inr ⟨x, hx⟩
  · refine (h.busy.insert c).subset fun x hx => ?_
    change Function.update s.pc c pc x ≠ .idle at hx
    rw [hpc] at hx
    rcases eq_or_ne x c with rfl | hne
    · exact Set.mem_insert x _
    · rw [if_neg hne] at hx
      exact Set.mem_insert_of_mem c hx

/-- What is said of the threads and the places stays while the code between the operations
changes neither what they need to be suspended nor the callbacks of the dying. -/
theorem Orderly.quiet (h : Orderly s) (hinv : Inv s') (hq : Quiet s s')
    (hnum : ∀ x, s.pc x ≠ .idle → s'.numHeld x = s.numHeld x)
    (herr : ∀ x t, (s.pc x).suspends = some t → s'.data.errOnBlock t = s.data.errOnBlock t)
    (hactions : ∀ x t, (s.pc x).unresolved = some t →
      (s.data.join t).actions = [] → (s'.data.join t).actions = []) : Orderly s' := by
  have hdata := hq.data
  refine ⟨hinv, fun x t ht => ?_, fun x t ht => ?_, fun x t => ?_, fun x held => ?_,
    fun t ht => ?_, fun t ht => ?_, ?_⟩
  · rw [hq.pc] at ht ⊢
    have hbusy : s.pc x ≠ .idle := by
      intro hidle
      rw [hidle] at ht
      cases ht
    obtain ⟨hlen, hblock⟩ := h.suspends x t ht
    rw [hnum x hbusy, herr x t ht, hdata]
    exact ⟨hlen, hblock⟩
  · rw [hq.pc] at ht
    exact hactions x t ht (h.actions x t ht)
  · rw [hq.pc]
    exact h.no_callback x t
  · rw [hq.pc]
    exact h.no_panic x held
  · rw [hdata] at ht ⊢
    exact h.threads t ht
  · rw [hq.pc] at ht
    rw [hdata] at ht ⊢
    exact h.joinWriter t ht
  · rw [hq.pc]
    exact h.busy

/-- **The invariant holds after every orderly step.** -/
theorem Orderly.step {a : Label} (h : Orderly s) (hstep : OrderlyStep s a s') : Orderly s' := by
  have hinv := h.inv.step hstep.2
  cases a with
  | start c op => exact h.start hstep
  | go c w => exact h.go hstep
  | consume t v =>
      obtain ⟨hasks, -, hconsume⟩ := hstep
      have hq := quiet_consume hconsume
      obtain ⟨-, -, rfl⟩ := consume_cases hconsume
      refine h.quiet hinv hq (fun _ _ => rfl) (fun _ _ _ => rfl) fun x u hu hnil => ?_
      simp only [Data.setJoin, Function.update_apply]
      split
      · rename_i hut
        subst hut
        by_contra hne
        exact hasks hne x (dying_of_unresolved hu)
      · exact hnil
  | prepare c n err =>
      obtain ⟨hidle, hnum, herr, hjoin, hq⟩ := prepare_cases hstep.2.2
      refine h.quiet hinv hq (fun x hx => ?_) (fun x t ht => herr t ?_) fun x t ht hnil => ?_
      · rw [hnum]
        refine Function.update_of_ne ?_ _ _
        rintro rfl
        exact hx hidle
      · -- The thread of an idle core is not the one that another core suspends.
        intro hcurrent
        have hown : s.At (.own c) t := by
          rw [State.At, hidle]
          exact hcurrent
        have hown' : s.At (.own x) t := own_of_suspends ht _
        cases h.inv.placed.unique hown hown'
        rw [hidle] at ht
        cases ht
      · rw [hjoin]
        exact hnil

/-- The number of steps that the caller of `wake_one` or `wake_all` has left after it. -/
def Caller.work : Caller → ℕ
  | .wakeOne | .wakeAll => 0
  | .finish _ => 6

/-- The number of steps, at most, after `enqueue_ready_thread`. -/
def Enqueuer.work (d : Data) : Enqueuer → ℕ
  | .wake => 0
  | .tryWake k l => 3 + 6 * (d.waiting l).length + k.work
  | .contextSwitch => 4

/-- The number of steps, at most, until the operation of a core ends, if the other cores leave
the wait lists and the lists of threads as they are. -/
def Pc.work (d : Data) : Pc → ℕ
  | .idle | .panicked _ => 0
  | .wakeThread _ => 4
  | .wakeProcess k _ => 3 + k.work d
  | .enqueueDrop k _ => 2 + k.work d
  | .enqueuePush k _ => 1 + k.work d
  | .dequeue k l => 2 + 6 * (d.waiting l).length + k.work
  | .tryWake k l _ => 7 + 6 * (d.waiting l).length + k.work
  | .tryWakeDead k l _ => 4 + 6 * (d.waiting l).length + k.work
  | .unlockList k l true => 3 + 6 * (d.waiting l).length + k.work
  | .unlockList k _ false => 1 + k.work
  | .killProcess t => 14 + 6 * (d.waiting (d.joinList t)).length
  | .killThread t => 13 + 6 * (d.waiting (d.joinList t)).length
  | .killDrop t => 12 + 6 * (d.waiting (d.joinList t)).length
  | .finish t => 11 + 6 * (d.waiting (d.joinList t)).length
  | .runNonBlocking t => 10 + 6 * (d.waiting (d.joinList t)).length
  | .runNonBlockingDrop t => 9 + 6 * (d.waiting (d.joinList t)).length
  | .decWaitRef _ => 6
  | .switchDead _ => 5
  | .yieldThread _ => 10
  | .switchReady _ => 9
  | .switchProcess _ => 8
  | .switchThread _ => 7
  | .nextProcess => 4
  | .nextDequeue => 3
  | .nextThread _ => 2
  | .nextDrop _ => 1
  | .listProcesses p => 4 + 2 * (d.threads p).length
  | .listProcess p => 3 + 2 * (d.threads p).length
  | .listThreads _ ts => 2 + 2 * ts.length
  | .listThread _ _ ts => 3 + 2 * ts.length
  | .listEnd => 1

/-- The wait lists and the lists of threads are no longer than before. -/
structure Shrunk (d d' : Data) : Prop where
  waiting : ∀ l, (d'.waiting l).length ≤ (d.waiting l).length
  threads : ∀ p, (d'.threads p).length ≤ (d.threads p).length
  joinList : d'.joinList = d.joinList

/-- No step makes a wait list or a list of threads longer. -/
theorem shrunk_next (h : (action d c w pc).next = some (d', pc')) : Shrunk d d' := by
  cases next_of_action h with
  | @dequeueSome k l t ts hq =>
      refine ⟨fun m => ?_, fun _ => le_rfl, rfl⟩
      simp only [Data.setWaiting, Function.update_apply]
      split
      · rename_i hm
        rw [hm, hq]
        exact Nat.le_succ _
      · exact le_rfl
  | @killThread t hrun hmem =>
      refine ⟨fun _ => le_rfl, fun p => ?_, rfl⟩
      simp only [Function.update_apply]
      split
      · rename_i hp
        rw [hp]
        exact List.length_erase_le
      · exact le_rfl
  | _ => exact ⟨fun _ => le_rfl, fun _ => le_rfl, rfl⟩

/-- The work that is left to some cores. -/
def State.work (s : State) (cores : Finset ℕ) : ℕ := ∑ c ∈ cores, (s.pc c).work s.data

end HydroxKernel.Locks
