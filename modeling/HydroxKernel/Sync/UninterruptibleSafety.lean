import HydroxKernel.Lib.Runs
import HydroxKernel.Sync.Uninterruptible

/-!
# The Interrupt Disabler is Sound

In every run on one core, interrupts are off while a guard exists, dropping the last guard
switches them on exactly when they were on before the first one and nothing forced them to
stay off, and the soft interrupts are run from the queue in order, with interrupts off and
with no guard of the code that was interrupted.

The invariant counts the guards and follows the calls: at most one call of
`enqueue_soft_interrupt` or `run_soft_interrupts` is going on, because each of them holds a
guard, and `run_soft_interrupts` creates its guard while interrupts are off, which is what it
finds saved when it drops that guard.

## Main results

* `Inv.perform`: what an operation does, or why it panics.
* `interrupts_sound_of_runs`: the properties above, in every state a run reaches.
* `soft_interrupt_leaves_guard`: a soft interrupt that keeps a guard makes `drop` panic.
-/

namespace HydroxKernel.Uninterruptible

variable {F : Type}

/-! ### Guards and the counter -/

/-- The part of the invariant that is not about calls. -/
structure Counted (s : State F) : Prop where
  count : s.core.numHeld = s.guards.length
  disabled : s.guards ≠ [] → s.core.enabled = false
  saved : s.guards ≠ [] → s.core.wasEnabled = (s.firstEnabled && !s.forced)
  fifo : s.queued = s.started ++ s.core.softInterrupts

/-- The state after a guard was dropped and `run_soft_interrupts` was not called. -/
def State.dropped (s : State F) (g : Guard) : State F :=
  { s with core := { s.core with numHeld := s.core.numHeld - 1 }, guards := s.guards.erase g }

/-- Without guards, the counter is zero. -/
theorem Counted.numHeld_eq_zero {s : State F} (h : Counted s) :
    s.core.numHeld = 0 ↔ s.guards = [] := by
  rw [h.count, List.length_eq_zero_iff]

/-- Creating a guard keeps the count, and switches interrupts off. -/
theorem Counted.create {s : State F} (h : Counted s) : Counted s.create where
  count := by simp [State.create, Core.new, h.count]
  disabled := by
    intro _
    by_cases hg : s.guards = []
    · simp [State.create, Core.new, h.numHeld_eq_zero.mpr hg]
    · simp [State.create, Core.new, mt h.numHeld_eq_zero.mp hg, h.disabled hg]
  saved := by
    intro _
    by_cases hg : s.guards = []
    · simp [State.create, Core.new, h.numHeld_eq_zero.mpr hg, hg]
    · simp [State.create, Core.new, mt h.numHeld_eq_zero.mp hg, hg, h.saved hg]
  fifo := h.fifo

/-- The count is not about calls. -/
theorem Counted.setStack {s : State F} (h : Counted s) (st : List (Frame F)) :
    Counted { s with stack := st } :=
  ⟨h.count, h.disabled, h.saved, h.fifo⟩

/-- Where a guard remains, one was there. -/
theorem ne_nil_of_erase_ne_nil {gs : List Guard} {g : Guard} (h : gs.erase g ≠ []) : gs ≠ [] := by
  rintro rfl
  exact h rfl

/-- Dropping a guard keeps the count. -/
theorem Counted.dropped {s : State F} (h : Counted s) {g : Guard} (hg : g ∈ s.guards) :
    Counted (s.dropped g) where
  count := by simp [State.dropped, h.count, List.length_erase_of_mem hg]
  disabled := fun hne => h.disabled (ne_nil_of_erase_ne_nil hne)
  saved := fun hne => h.saved (ne_nil_of_erase_ne_nil hne)
  fifo := h.fifo

/-- Dropping a guard that exists does not panic, and its result says whether it was the last
one and interrupts are to be switched on. -/
theorem Counted.dropWithoutEnable_eq {s : State F} (h : Counted s) {g : Guard}
    (hg : g ∈ s.guards) :
    s.dropWithoutEnable g =
      .ok (s.dropped g, decide (s.guards = [g]) && s.core.wasEnabled) := by
  have hoff : s.core.enabled = false := h.disabled (List.ne_nil_of_mem hg)
  have hone : s.core.numHeld = 1 ↔ s.guards = [g] := by
    rw [h.count, List.length_eq_one_iff]
    constructor
    · rintro ⟨a, ha⟩
      rw [ha, List.mem_singleton] at hg
      rw [ha, hg]
    · exact fun hs => ⟨g, hs⟩
  simp only [State.dropWithoutEnable, Core.dropWithoutEnable, ensure_pos hoff, ok_bind, hone]
  rfl

/-- The state in which the drop of the last guard enters the loop of
`run_soft_interrupts`. -/
def State.drained (s : State F) (g : Guard) : State F :=
  ((s.dropped g).push .afterRun).runSoftInterrupts

/-- Dropping a guard that exists either only drops it, or it was the last one and the soft
interrupts are run. -/
theorem Counted.drop_cases {s : State F} (h : Counted s) {g : Guard} (hg : g ∈ s.guards) :
    (¬ (s.guards = [g] ∧ s.core.wasEnabled = true) ∧ s.drop g = .ok (s.dropped g)) ∨
    (s.guards = [g] ∧ s.core.wasEnabled = true ∧ s.drop g = .ok (s.drained g)) := by
  rw [State.drop]
  rw [h.dropWithoutEnable_eq hg, ok_bind]
  by_cases hrun : s.guards = [g] ∧ s.core.wasEnabled = true
  · refine .inr ⟨hrun.1, hrun.2, ?_⟩
    simp [hrun.1, hrun.2, State.drained, pure, Except.pure]
  · refine .inl ⟨hrun, ?_⟩
    have hfalse : (decide (s.guards = [g]) && s.core.wasEnabled) = false := by
      simpa using hrun
    simp [hfalse, pure, Except.pure]

/-! ### The calls that are going on -/

/-- `run_soft_interrupts` is going on with its guard `r`, called by code outside of all
calls. -/
structure Draining (s : State F) (r : Guard) : Prop where
  mem : r ∈ s.guards
  off : s.core.wasEnabled = false
  inner : ∀ h ∈ s.guards, 1 ≤ h.depth

/-- The calls that can be going on. -/
inductive Calls (s : State F) : List (Frame F) → Prop
  | none : Calls s []
  | enqueued {g : Guard} {f : F} (hg : g ∈ s.guards) : Calls s [.enqueued g f]
  | softLoop {r : Guard} (hr : Draining s r) : Calls s [.softLoop r, .afterRun]
  | softCall {r : Guard} {f : F} (hr : Draining s r) : Calls s [.softCall r f, .afterRun]
  | afterRun (hoff : s.core.enabled = false) (hempty : s.core.softInterrupts = [])
      (inner : ∀ h ∈ s.guards, 1 ≤ h.depth) : Calls s [.afterRun]

/-- The invariant of a core. -/
structure Inv (s : State F) : Prop where
  counted : Counted s
  calls : Calls s s.stack

/-- A core without guards and calls satisfies the invariant. -/
theorem Init.inv {s : State F} (h : Init s) : Inv s where
  counted :=
    { count := by rw [h.numHeld, h.guards]; rfl
      disabled := fun hne => absurd h.guards hne
      saved := fun hne => absurd h.guards hne
      fifo := by rw [h.queued, h.started, h.softInterrupts]; rfl }
  calls := by
    rw [h.stack]
    exact .none

/-- A guard that remains after another one was dropped. -/
theorem mem_dropped {s : State F} {g r : Guard} (hr : r ∈ s.guards) (hne : r ≠ g) :
    r ∈ (s.dropped g).guards :=
  (List.mem_erase_of_ne hne).mpr hr

/-- Dropping another guard keeps `run_soft_interrupts` going. -/
theorem Draining.dropped {s : State F} {g r : Guard} (h : Draining s r) (hne : r ≠ g) :
    Draining (s.dropped g) r where
  mem := mem_dropped h.mem hne
  off := h.off
  inner := fun k hk => h.inner k (List.mem_of_mem_erase hk)

/-- Creating a guard keeps `run_soft_interrupts` going. -/
theorem Draining.create {s : State F} {r : Guard} (hc : Counted s) (h : Draining s r)
    (hdepth : 1 ≤ s.stack.length) : Draining s.create r where
  mem := List.mem_cons_of_mem _ h.mem
  off := by
    have hne : s.core.numHeld ≠ 0 := mt hc.numHeld_eq_zero.mp (List.ne_nil_of_mem h.mem)
    simp [State.create, Core.new, hne, h.off]
  inner := by
    intro k hk
    rcases List.mem_cons.mp hk with rfl | hk
    · exact hdepth
    · exact h.inner k hk

/-- Without calls, dropping the last guard begins to run the soft interrupts. -/
theorem Counted.drained {s : State F} (h : Counted s) (hstack : s.stack = []) {g : Guard}
    (hlast : s.guards = [g]) : Inv (s.drained g) := by
  have hg : g ∈ s.guards := by rw [hlast]; exact List.mem_singleton_self g
  have hoff : s.core.enabled = false := h.disabled (List.ne_nil_of_mem hg)
  have hguards : (s.dropped g).guards = [] := by simp [State.dropped, hlast]
  have hzero : (s.dropped g).core.numHeld = 0 := (h.dropped hg).numHeld_eq_zero.mpr hguards
  have hr : Draining (s.drained g) ((s.dropped g).push .afterRun).nextGuard :=
    { mem := List.mem_cons_self
      off := by
        change (if (s.dropped g).core.numHeld = 0 then s.core.enabled else _) = false
        rw [if_pos hzero, hoff]
      inner := by
        intro k hk
        change k ∈ _ :: (s.dropped g).guards at hk
        rw [hguards, List.mem_singleton] at hk
        rw [hk]
        simp [State.nextGuard, State.push] }
  refine ⟨(((h.dropped hg).setStack _).create).setStack _, ?_⟩
  change Calls _ (.softLoop _ :: .afterRun :: s.stack)
  rw [hstack]
  exact .softLoop hr

/-- The running code drops a guard of its own by `drop_without_enable`. -/
theorem Inv.dropped {s : State F} (h : Inv s) (hcode : CodeRuns s.stack) {g : Guard}
    (hown : s.Owned g) : Inv (s.dropped g) := by
  obtain ⟨hg, hvar⟩ := hown
  refine ⟨h.counted.dropped hg, ?_⟩
  change Calls _ s.stack
  have hcalls := h.calls
  generalize s.stack = st at hcalls hcode hvar
  cases hcalls with
  | none => exact .none
  | @enqueued d f hd =>
      exact .enqueued (mem_dropped hd fun e => hvar _ List.mem_cons_self (by rw [e]; rfl))
  | softLoop hr => exact hcode.elim
  | @softCall r f hr =>
      exact .softCall (hr.dropped fun e => hvar _ List.mem_cons_self (by rw [e]; rfl))
  | afterRun hoff hempty hinner => exact hcode.elim

/-- A closure that is being called leaves a guard that is not the running code's own, so the
running code's own guard is the last one only outside of all calls, or while the soft
interrupts run. -/
theorem Inv.stack_of_last {s : State F} (h : Inv s) (hcode : CodeRuns s.stack) {g : Guard}
    (hown : s.Owned g) (hlast : s.guards = [g]) : s.stack = [] := by
  obtain ⟨-, hvar⟩ := hown
  have hcalls := h.calls
  generalize s.stack = st at hcalls hcode hvar
  have honly : ∀ k ∈ s.guards, k = g := by
    intro k hk
    rwa [hlast, List.mem_singleton] at hk
  cases hcalls with
  | none => rfl
  | enqueued hd => exact absurd (by rw [honly _ hd]; rfl) (hvar _ List.mem_cons_self)
  | softLoop hr => exact hcode.elim
  | softCall hr => exact absurd (by rw [honly _ hr.mem]; rfl) (hvar _ List.mem_cons_self)
  | afterRun hoff hempty hinner => exact hcode.elim

/-- The running code drops a guard of its own. -/
theorem Inv.drop {s : State F} (h : Inv s) (hcode : CodeRuns s.stack) {g : Guard}
    (hown : s.Owned g) : ∃ t, s.drop g = .ok t ∧ Inv t := by
  rcases h.counted.drop_cases hown.1 with ⟨-, heq⟩ | ⟨hlast, -, heq⟩
  · exact ⟨_, heq, h.dropped hcode hown⟩
  · exact ⟨_, heq, h.counted.drained (h.stack_of_last hcode hown hlast) hlast⟩

/-- The running code creates a guard. -/
theorem Inv.create {s : State F} (h : Inv s) (hcode : CodeRuns s.stack) : Inv s.create := by
  refine ⟨h.counted.create, ?_⟩
  change Calls _ s.stack
  have hcalls := h.calls
  have hdepth : s.stack ≠ [] → 1 ≤ s.stack.length := List.length_pos_iff.mpr
  generalize hst : s.stack = st at hcalls hcode hdepth
  cases hcalls with
  | none => exact .none
  | enqueued hd => exact .enqueued (List.mem_cons_of_mem _ hd)
  | softLoop hr => exact hcode.elim
  | softCall hr =>
      refine .softCall (hr.create h.counted ?_)
      rw [hst]
      exact hdepth (List.cons_ne_nil _ _)
  | afterRun hoff hempty hinner => exact hcode.elim

/-- While interrupts are on, no closure is being called. -/
theorem Inv.stack_of_enabled {s : State F} (h : Inv s) (hon : s.core.enabled = true) :
    s.stack = [] := by
  have hno : ∀ g, g ∉ s.guards := by
    intro g hg
    rw [h.counted.disabled (List.ne_nil_of_mem hg)] at hon
    exact Bool.noConfusion hon
  have hcalls := h.calls
  generalize s.stack = st at hcalls
  cases hcalls with
  | none => rfl
  | enqueued hd => exact absurd hd (hno _)
  | softLoop hr => exact absurd hr.mem (hno _)
  | softCall hr => exact absurd hr.mem (hno _)
  | afterRun hoff hempty hinner =>
      rw [hoff] at hon
      exact Bool.noConfusion hon

/-- While code runs, the calls that are going on depend on the guards and on whether
interrupts stay off after the last of them. -/
theorem Calls.of_guards_eq {s t : State F} {stack : List (Frame F)} (h : Calls s stack)
    (hcode : CodeRuns stack) (hguards : t.guards = s.guards)
    (hoff : s.core.wasEnabled = false → t.core.wasEnabled = false) : Calls t stack := by
  cases h with
  | none => exact .none
  | enqueued hd => exact .enqueued (by rwa [hguards])
  | softLoop hr => exact hcode.elim
  | softCall hr =>
      exact .softCall ⟨by rw [hguards]; exact hr.mem, hoff hr.off, by rw [hguards]; exact hr.inner⟩
  | afterRun hoff hempty hinner => exact hcode.elim

/-- The running code enqueues a soft interrupt. -/
theorem Inv.enqueueSoftInterrupt {s : State F} (h : Inv s) (hcode : CodeRuns s.stack) (f : F) :
    Inv (s.enqueueSoftInterrupt f) := by
  rw [State.enqueueSoftInterrupt]
  split
  · rename_i hon
    refine ⟨h.counted.create.setStack _, ?_⟩
    change Calls _ (.enqueued _ f :: s.stack)
    rw [h.stack_of_enabled hon.2]
    exact .enqueued List.mem_cons_self
  · refine ⟨⟨h.counted.count, h.counted.disabled, h.counted.saved, ?_⟩, ?_⟩
    · change s.queued ++ [f] = s.started ++ (s.core.softInterrupts ++ [f])
      rw [h.counted.fifo, List.append_assoc]
    · exact h.calls.of_guards_eq hcode rfl id

/-- The running code calls `force_remain_disabled`. -/
theorem Inv.forceRemainDisabled {s : State F} (h : Inv s) (hcode : CodeRuns s.stack) :
    Inv { s with core := s.core.forceRemainDisabled, forced := true } := by
  refine ⟨⟨h.counted.count, h.counted.disabled, ?_, h.counted.fifo⟩, ?_⟩
  · intro _
    simp [Core.forceRemainDisabled]
  · exact h.calls.of_guards_eq hcode rfl fun _ => rfl

/-- The running closure returns. -/
theorem Inv.ret {s : State F} (h : Inv s) (hcode : CodeRuns s.stack) :
    ∃ t, s.ret = .ok t ∧ Inv t := by
  have hcalls := h.calls
  rw [State.ret]
  generalize hst : s.stack = st at hcalls hcode
  cases hcalls with
  | none => exact ⟨s, rfl, h⟩
  | @enqueued g f hg =>
      have hc : Counted { s with stack := [] } := h.counted.setStack []
      rcases hc.drop_cases hg with ⟨-, heq⟩ | ⟨hlast, -, heq⟩
      · exact ⟨_, heq, hc.dropped hg, .none⟩
      · exact ⟨_, heq, hc.drained rfl hlast⟩
  | softLoop hr => exact hcode.elim
  | softCall hr =>
      exact ⟨_, rfl, h.counted.setStack _, .softLoop ⟨hr.mem, hr.off, hr.inner⟩⟩
  | afterRun hoff hempty hinner => exact hcode.elim

/-- The loop of `run_soft_interrupts` takes a closure or ends; after it, `drop` switches
interrupts on, or panics over a guard that is left. -/
theorem Inv.tick {s : State F} (h : Inv s) :
    (∃ t, s.tick = .ok t ∧ Inv t) ∨
    (s.stack = [.afterRun] ∧ s.guards ≠ [] ∧ s.tick = .error .guardsAfterRun) := by
  have hcalls := h.calls
  rw [State.tick]
  generalize hst : s.stack = st at hcalls
  cases hcalls with
  | none => exact .inl ⟨s, rfl, h⟩
  | enqueued hd => exact .inl ⟨s, rfl, h⟩
  | @softLoop r hr =>
      left
      cases hq : s.core.softInterrupts with
      | cons f q =>
          refine ⟨_, rfl, ⟨h.counted.count, h.counted.disabled, h.counted.saved, ?_⟩, ?_⟩
          · change s.queued = (s.started ++ [f]) ++ q
            rw [h.counted.fifo, hq, List.append_assoc]
            rfl
          · exact .softCall ⟨hr.mem, hr.off, hr.inner⟩
      | nil =>
          have hc : Counted { s with stack := [.afterRun] } := h.counted.setStack _
          rcases hc.drop_cases hr.mem with ⟨-, heq⟩ | ⟨-, hwas, -⟩
          · exact ⟨_, heq, hc.dropped hr.mem,
              .afterRun (h.counted.disabled (List.ne_nil_of_mem hr.mem)) hq
                fun k hk => hr.inner k (List.mem_of_mem_erase hk)⟩
          · change s.core.wasEnabled = true at hwas
            rw [hr.off] at hwas
            exact Bool.noConfusion hwas
  | softCall hr => exact .inl ⟨s, rfl, h⟩
  | afterRun hoff hempty hinner =>
      by_cases hg : s.guards = []
      · left
        refine ⟨{ s with core := { s.core with enabled := true }, stack := [] }, ?_, ?_, .none⟩
        · simp only [ensure_pos (h.counted.numHeld_eq_zero.mpr hg), ok_bind]
          rfl
        · exact ⟨h.counted.count, fun hne => absurd hg hne, fun hne => absurd hg hne,
            h.counted.fifo⟩
      · right
        refine ⟨rfl, hg, ?_⟩
        simp only [ensure_neg (mt h.counted.numHeld_eq_zero.mp hg), error_bind]

/-- **What an operation does**: it keeps the invariant, or it is the assertion after
`run_soft_interrupts` that finds a guard. -/
theorem Inv.perform {s : State F} (h : Inv s) {op : Op F} (hop : Allowed s op) :
    (∃ t, perform s op = .ok t ∧ Inv t) ∨
    (op = .tick ∧ s.stack = [.afterRun] ∧ s.guards ≠ [] ∧
      perform s op = .error .guardsAfterRun) := by
  cases op with
  | new => exact .inl ⟨_, rfl, h.create hop⟩
  | drop g => exact .inl (h.drop hop.1 hop.2)
  | dropWithoutEnable g =>
      refine .inl ⟨_, ?_, h.dropped hop.1 hop.2⟩
      simp only [Uninterruptible.perform, h.counted.dropWithoutEnable_eq hop.2.1, ok_bind]
      rfl
  | forceRemainDisabled => exact .inl ⟨_, rfl, h.forceRemainDisabled hop⟩
  | enqueue f => exact .inl ⟨_, rfl, h.enqueueSoftInterrupt hop f⟩
  | setEnabled b =>
      obtain ⟨hst, hg⟩ := hop
      refine .inl ⟨_, rfl, ⟨h.counted.count, fun hne => absurd hg hne, h.counted.saved,
        h.counted.fifo⟩, ?_⟩
      change Calls _ s.stack
      rw [hst]
      exact .none
  | ret => exact .inl (h.ret hop.1)
  | tick =>
      rcases h.tick with hok | ⟨hst, hg, herr⟩
      · exact .inl hok
      · exact .inr ⟨rfl, hst, hg, herr⟩

/-- A step keeps the invariant. -/
theorem Inv.step {s t : State F} {op : Op F} (h : Inv s) (hs : Step s op t) : Inv t := by
  rcases h.perform hs.1 with ⟨u, hu, hinv⟩ | ⟨-, -, -, herr⟩
  · rw [hs.2] at hu
    cases hu
    exact hinv
  · rw [hs.2] at herr
    cases herr

/-! ### Running the soft interrupts -/

/-- An operation of the running code, as opposed to a return or a step of the kernel. -/
def Op.ofCode : Op F → Bool
  | .ret => false
  | .tick => false
  | _ => true

/-- The number of returns and steps of the kernel that are left until the drop that runs the
soft interrupts returns, if no more of them are enqueued. -/
def State.work (s : State F) : ℕ :=
  match s.stack with
  | .softLoop _ :: _ => 2 * s.core.softInterrupts.length + 2
  | .softCall _ _ :: _ => 2 * s.core.softInterrupts.length + 3
  | .afterRun :: _ => 1
  | _ => 0

/-- A soft interrupt that is run from the queue does not start another call by what it does,
and enqueues at most one soft interrupt at a time. -/
theorem Inv.code_step {s t : State F} (h : Inv s) {r : Guard} {f : F}
    (hst : s.stack = [.softCall r f, .afterRun]) {op : Op F} (hcode : op.ofCode = true)
    (hs : Step s op t) :
    t.stack = s.stack ∧ t.core.softInterrupts.length ≤ s.core.softInterrupts.length + 1 := by
  obtain ⟨hop, hperf⟩ := hs
  have hr : Draining s r := by
    have hcalls := h.calls
    rw [hst] at hcalls
    cases hcalls with
    | softCall hr => exact hr
  cases op with
  | new =>
      cases hperf
      exact ⟨rfl, Nat.le_succ _⟩
  | drop g =>
      rcases h.counted.drop_cases hop.2.1 with ⟨-, heq⟩ | ⟨-, hwas, -⟩
      · simp only [Uninterruptible.perform, heq] at hperf
        cases hperf
        exact ⟨rfl, Nat.le_succ _⟩
      · rw [hr.off] at hwas
        exact Bool.noConfusion hwas
  | dropWithoutEnable g =>
      simp only [Uninterruptible.perform, h.counted.dropWithoutEnable_eq hop.2.1, ok_bind] at hperf
      cases hperf
      exact ⟨rfl, Nat.le_succ _⟩
  | forceRemainDisabled =>
      cases hperf
      exact ⟨rfl, Nat.le_succ _⟩
  | enqueue f' =>
      have hoff : ¬ (s.core.inInterrupt = false ∧ s.core.enabled = true) := by
        rw [h.counted.disabled (List.ne_nil_of_mem hr.mem)]
        simp
      simp only [Uninterruptible.perform, State.enqueueSoftInterrupt, if_neg hoff] at hperf
      cases hperf
      simp
  | setEnabled b =>
      have hnil := hop.1
      rw [hst] at hnil
      exact absurd hnil (List.cons_ne_nil _ _)
  | ret => exact Bool.noConfusion hcode
  | tick => exact Bool.noConfusion hcode

/-- While the kernel's own code runs, only a step of it can come next. -/
theorem Allowed.eq_tick {s : State F} {op : Op F} (hop : Allowed s op)
    (h : ¬ CodeRuns s.stack) : op = .tick := by
  cases op with
  | new | forceRemainDisabled | enqueue f => exact absurd hop h
  | drop g | dropWithoutEnable g | ret => exact absurd hop.1 h
  | setEnabled b =>
      rw [hop.1] at h
      exact absurd trivial h
  | tick => rfl

/-- What the operation `op` adds to the work, and what it takes away. -/
def Op.Pays (op : Op F) (before after : ℕ) : Prop :=
  after + (if op.ofCode then 0 else 1) ≤ before + (if op.ofCode then 2 else 0)

/-- The loop of `run_soft_interrupts` makes a step. -/
theorem Inv.softLoop_step {s t : State F} (h : Inv s) {r : Guard}
    (hst : s.stack = [.softLoop r, .afterRun]) {op : Op F} (hs : Step s op t) :
    t.stack.getLast? = some .afterRun ∧ op.Pays s.work t.work := by
  obtain ⟨hop, hperf⟩ := hs
  obtain rfl := hop.eq_tick (by rw [hst]; exact id)
  have hr : Draining s r := by
    have hcalls := h.calls
    rw [hst] at hcalls
    cases hcalls with
    | softLoop hr => exact hr
  change s.tick = .ok t at hperf
  rw [State.tick] at hperf
  rw [hst] at hperf
  cases hq : s.core.softInterrupts with
  | cons f q =>
      simp only [hq] at hperf
      cases hperf
      refine ⟨rfl, ?_⟩
      simp only [Op.Pays, State.work, hst, hq, Op.ofCode, Bool.false_eq_true, if_false,
        List.length_cons]
      omega
  | nil =>
      simp only [hq] at hperf
      have hc : Counted { s with stack := [.afterRun] } := h.counted.setStack _
      rcases hc.drop_cases hr.mem with ⟨-, heq⟩ | ⟨-, hwas, -⟩
      · rw [heq] at hperf
        cases hperf
        refine ⟨rfl, ?_⟩
        simp [Op.Pays, State.work, hst, hq, Op.ofCode, State.dropped]
      · change s.core.wasEnabled = true at hwas
        rw [hr.off] at hwas
        exact Bool.noConfusion hwas

/-- A soft interrupt makes a step, or returns. -/
theorem Inv.softCall_step {s t : State F} (h : Inv s) {r : Guard} {f : F}
    (hst : s.stack = [.softCall r f, .afterRun]) {op : Op F} (hs : Step s op t) :
    t.stack.getLast? = some .afterRun ∧ op.Pays s.work t.work := by
  by_cases hcode : op.ofCode = true
  · obtain ⟨hstack, hlen⟩ := h.code_step hst hcode hs
    refine ⟨by rw [hstack, hst]; rfl, ?_⟩
    simp only [Op.Pays, State.work, hstack, hst, hcode, if_true]
    omega
  · obtain rfl : op = .ret := by
      have hop := hs.1
      cases op with
      | ret => rfl
      | tick =>
          rw [Allowed, hst] at hop
          exact absurd trivial hop
      | _ => exact absurd rfl hcode
    have hperf : s.ret = .ok t := hs.2
    rw [State.ret] at hperf
    rw [hst] at hperf
    cases hperf
    refine ⟨rfl, ?_⟩
    simp [Op.Pays, State.work, hst, Op.ofCode]

/-- After `run_soft_interrupts`, `drop` switches interrupts on and returns. -/
theorem Inv.afterRun_step {s t : State F} (h : Inv s) (hst : s.stack = [.afterRun]) {op : Op F}
    (hs : Step s op t) :
    (t.stack = [] ∧ t.core.enabled = true ∧ t.core.softInterrupts = []) ∧
      op.Pays s.work t.work := by
  obtain ⟨hop, hperf⟩ := hs
  obtain rfl := hop.eq_tick (by rw [hst]; exact id)
  have hempty : s.core.softInterrupts = [] := by
    have hcalls := h.calls
    rw [hst] at hcalls
    cases hcalls with
    | afterRun hoff hempty hinner => exact hempty
  change s.tick = .ok t at hperf
  rw [State.tick] at hperf
  rw [hst] at hperf
  obtain ⟨-, hret⟩ := ensure_bind_eq_ok.mp hperf
  cases hret
  refine ⟨⟨rfl, rfl, hempty⟩, ?_⟩
  simp [Op.Pays, State.work, hst, Op.ofCode]

/-- While the drop of a last guard runs the soft interrupts, it stays in that call until it
switches interrupts on with an empty queue, and every return and step of the kernel leaves
less to do. -/
theorem Inv.drain_step {s t : State F} (h : Inv s) {op : Op F}
    (hlast : s.stack.getLast? = some .afterRun) (hs : Step s op t) :
    (t.stack.getLast? = some .afterRun ∨
      (t.stack = [] ∧ t.core.enabled = true ∧ t.core.softInterrupts = [])) ∧
    op.Pays s.work t.work := by
  have hcalls := h.calls
  generalize hst : s.stack = st at hcalls hlast
  cases hcalls with
  | none => cases hlast
  | enqueued hd => cases hlast
  | softLoop hr => exact (h.softLoop_step hst hs).imp_left .inl
  | softCall hr => exact (h.softCall_step hst hs).imp_left .inl
  | afterRun hoff hempty hinner => exact (h.afterRun_step hst hs).imp_left .inr

/-- A step inside of a call that was made with `n` calls going on. -/
def StepIn (n : ℕ) (s : State F) (op : Op F) (t : State F) : Prop :=
  n < s.stack.length ∧ Step s op t

/-- The drop of a last guard that runs the soft interrupts returns with interrupts on and an
empty queue, after as many steps as there is work and the soft interrupts make. -/
theorem Inv.drain_runs {s t : State F} (h : Inv s) {ops : List (Op F)}
    (hlast : s.stack.getLast? = some .afterRun) (hruns : Runs (StepIn 0) s ops t) :
    Inv t ∧
    (t.stack.getLast? = some .afterRun ∨
      (t.stack = [] ∧ t.core.enabled = true ∧ t.core.softInterrupts = [])) ∧
    t.work + ops.length ≤ s.work + 3 * (ops.filter Op.ofCode).length := by
  induction hruns with
  | refl => exact ⟨h, .inl hlast, by simp⟩
  | @snoc ops op t u _ hstep ih =>
      obtain ⟨hinv, hcall, hwork⟩ := ih
      obtain ⟨hin, hstep⟩ := hstep
      rcases hcall with hcall | ⟨hnil, -, -⟩
      · obtain ⟨hcall', hpays⟩ := hinv.drain_step hcall hstep
        refine ⟨hinv.step hstep, hcall', ?_⟩
        rw [Op.Pays] at hpays
        rw [List.filter_append, List.length_append, List.length_append]
        cases hcode : op.ofCode with
        | true =>
            simp only [hcode, if_true] at hpays
            simp only [List.filter_cons, hcode, if_true, List.filter_nil, List.length_singleton]
            omega
        | false =>
            simp only [hcode, Bool.false_eq_true, if_false] at hpays
            simp only [List.filter_cons, hcode, Bool.false_eq_true, if_false, List.filter_nil,
              List.length_singleton, List.length_nil]
            omega
      · rw [hnil] at hin
        exact absurd hin (Nat.lt_irrefl 0)

/-! ### Dropping the last guard -/

/-- The operation drops the last guard, and not by `drop_without_enable`: the running code
drops its guard, or `enqueue_soft_interrupt` or `run_soft_interrupts` returns. The drop
returns to the calls `base`. -/
inductive LastDrop (s : State F) : Op F → List (Frame F) → Prop
  | code {g : Guard} (hlast : s.guards = [g]) : LastDrop s (.drop g) s.stack
  | enqueued {g : Guard} {f : F} {base : List (Frame F)} (hlast : s.guards = [g])
      (hst : s.stack = .enqueued g f :: base) : LastDrop s .ret base
  | softLoop {r : Guard} {base : List (Frame F)} (hlast : s.guards = [r])
      (hst : s.stack = .softLoop r :: base) (hempty : s.core.softInterrupts = []) :
      LastDrop s .tick base

/-- The drop of the last guard returns at once with interrupts off, or runs the soft
interrupts, according to whether interrupts were on before the first guard and nothing forced
them to stay off. -/
theorem Counted.drop_last {s t : State F} (h : Counted s) {g : Guard} (hlast : s.guards = [g])
    (hbase : s.core.wasEnabled = true → s.stack = []) (ht : s.drop g = .ok t) :
    ((s.firstEnabled && !s.forced) = false ∧ t.stack = s.stack ∧ t.core.enabled = false) ∨
    ((s.firstEnabled && !s.forced) = true ∧ s.stack = [] ∧ Inv t ∧
      t.stack.getLast? = some .afterRun ∧ t.work = 2 * s.core.softInterrupts.length + 2) := by
  have hg : g ∈ s.guards := by rw [hlast]; exact List.mem_singleton_self g
  have hne : s.guards ≠ [] := List.ne_nil_of_mem hg
  rw [← h.saved hne]
  rcases h.drop_cases hg with ⟨hnot, heq⟩ | ⟨-, hwas, heq⟩
  · rw [heq] at ht
    cases ht
    refine .inl ⟨?_, rfl, h.disabled hne⟩
    by_contra hwas
    exact hnot ⟨hlast, by simpa using hwas⟩
  · rw [heq] at ht
    cases ht
    have hst := hbase hwas
    refine .inr ⟨hwas, hst, h.drained hst hlast, ?_, rfl⟩
    change (Frame.softLoop _ :: .afterRun :: s.stack).getLast? = _
    rw [hst]
    rfl

/-- Every way to drop the last guard is `drop_last`. -/
theorem Inv.last_drop {s t : State F} (h : Inv s) {op : Op F} {base : List (Frame F)}
    (hdrop : LastDrop s op base) (hs : Step s op t) :
    ((s.firstEnabled && !s.forced) = false ∧ t.stack = base ∧ t.core.enabled = false) ∨
    ((s.firstEnabled && !s.forced) = true ∧ base = [] ∧ Inv t ∧
      t.stack.getLast? = some .afterRun ∧ t.work = 2 * s.core.softInterrupts.length + 2) := by
  obtain ⟨hop, hperf⟩ := hs
  have hcalls := h.calls
  cases hdrop with
  | code hlast =>
      exact h.counted.drop_last hlast (fun _ => h.stack_of_last hop.1 hop.2 hlast) hperf
  | @enqueued g f _ hlast hst =>
      change s.ret = .ok t at hperf
      rw [State.ret] at hperf
      rw [hst] at hperf hcalls
      have hnil : base = [] := by
        cases hcalls with
        | enqueued hd => rfl
      exact (h.counted.setStack base).drop_last hlast (fun _ => hnil) hperf
  | @softLoop r _ hlast hst hempty =>
      change s.tick = .ok t at hperf
      rw [State.tick] at hperf
      simp only [hst, hempty] at hperf
      rw [hst] at hcalls
      have hoff : s.core.wasEnabled = false := by
        cases hcalls with
        | softLoop hr => exact hr.off
      refine (h.counted.setStack base).drop_last hlast (fun hwas => ?_) hperf
      change s.core.wasEnabled = true at hwas
      rw [hoff] at hwas
      exact Bool.noConfusion hwas

/-- A call that has returned makes no further steps. -/
theorem eq_of_runs_of_returned {s t : State F} {ops : List (Op F)} {n : ℕ}
    (h : Runs (StepIn n) s ops t) (hs : s.stack.length ≤ n) : t = s ∧ ops = [] := by
  induction h with
  | refl => exact ⟨rfl, rfl⟩
  | snoc _ hstep ih =>
      obtain ⟨rfl, -⟩ := ih
      exact absurd hstep.1 (Nat.not_lt.mpr hs)

/-! ### Every run -/

/-- What holds of a core in every state that it reaches. -/
structure Sound (s : State F) : Prop where
  /-- Interrupts are off while a guard exists. -/
  disabled : s.guards ≠ [] → s.core.enabled = false
  /-- The drop of the last guard keeps interrupts off until it returns, and returns with them
  on exactly if they were on before the first guard and nothing forced them to stay off. It
  switches them on only when the queue is empty. -/
  last_drop : ∀ {op base s₁ ops t}, LastDrop s op base → Step s op s₁ →
    Runs (StepIn base.length) s₁ ops t →
      (base.length < t.stack.length → t.core.enabled = false) ∧
      (t.stack.length = base.length →
        t.core.enabled = (s.firstEnabled && !s.forced) ∧
        (t.core.enabled = true → t.core.softInterrupts = []))
  /-- The drop of the last guard returns: inside of it the closures can return and the kernel
  can go on, and these steps are no more than the soft interrupts ask for. -/
  last_drop_returns : ∀ {op base s₁ ops t}, LastDrop s op base → Step s op s₁ →
    Runs (StepIn base.length) s₁ ops t →
      ops.length ≤ 2 * s.core.softInterrupts.length + 2 + 3 * (ops.filter Op.ofCode).length
  progress : s.stack ≠ [] → Allowed s .ret ∨ Allowed s .tick
  /-- Soft interrupts are taken from the queue in the order in which they were put into it,
  each of them once. -/
  fifo : s.queued = s.started ++ s.core.softInterrupts
  /-- A soft interrupt that was taken from the queue runs with interrupts off, and every guard
  that exists meanwhile was created after the call that runs it began. -/
  soft : ∀ {pre r f st}, s.stack = pre ++ .softCall r f :: st →
    s.core.enabled = false ∧ ∀ h ∈ s.guards, st.length ≤ h.depth
  /-- Interrupts are off whenever a guard is dropped. -/
  enabledOnDrop : ∀ {op}, Allowed s op → perform s op ≠ .error .enabledOnDrop
  /-- There is no guard after `run_soft_interrupts`, unless the soft interrupts that it ran
  have left one. -/
  guardsAfterRun : ∀ {op}, Allowed s op →
    (perform s op = .error .guardsAfterRun ↔
      op = .tick ∧ ∃ st, s.stack = .afterRun :: st ∧ ∃ g ∈ s.guards, st.length < g.depth)

/-- While the soft interrupts run and until their drop returns, interrupts are off. -/
theorem Inv.off_of_draining {s : State F} (h : Inv s)
    (hlast : s.stack.getLast? = some .afterRun) : s.core.enabled = false := by
  have hcalls := h.calls
  generalize s.stack = st at hcalls hlast
  cases hcalls with
  | none => cases hlast
  | enqueued hd => cases hlast
  | softLoop hr => exact h.counted.disabled (List.ne_nil_of_mem hr.mem)
  | softCall hr => exact h.counted.disabled (List.ne_nil_of_mem hr.mem)
  | afterRun hoff hempty hinner => exact hoff

/-- The drop of the last guard, until it returns. -/
theorem Inv.last_drop_runs {s s₁ t : State F} (h : Inv s) {op : Op F} {base : List (Frame F)}
    {ops : List (Op F)} (hdrop : LastDrop s op base) (hs : Step s op s₁)
    (hruns : Runs (StepIn base.length) s₁ ops t) :
    (base.length < t.stack.length → t.core.enabled = false) ∧
    (t.stack.length = base.length →
      t.core.enabled = (s.firstEnabled && !s.forced) ∧
      (t.core.enabled = true → t.core.softInterrupts = [])) ∧
    ops.length ≤ 2 * s.core.softInterrupts.length + 2 + 3 * (ops.filter Op.ofCode).length := by
  rcases h.last_drop hdrop hs with ⟨hoff, hst, hdis⟩ | ⟨hon, rfl, hinv, hcall, hwork⟩
  · obtain ⟨rfl, rfl⟩ := eq_of_runs_of_returned hruns (Nat.le_of_eq (by rw [hst]))
    refine ⟨fun _ => hdis, fun _ => ⟨by rw [hdis, hoff], fun hen => ?_⟩, by simp⟩
    rw [hdis] at hen
    exact Bool.noConfusion hen
  · obtain ⟨hinv', hcall', hsteps⟩ := hinv.drain_runs hcall hruns
    rw [hwork] at hsteps
    refine ⟨fun hin => ?_, fun hret => ?_, by omega⟩
    · rcases hcall' with hcall' | ⟨hnil, -, -⟩
      · exact hinv'.off_of_draining hcall'
      · rw [hnil] at hin
        exact absurd hin (Nat.lt_irrefl 0)
    · rcases hcall' with hcall' | ⟨-, hen, hempty⟩
      · rw [List.length_eq_zero_iff.mp hret] at hcall'
        cases hcall'
      · exact ⟨by rw [hen, hon], fun _ => hempty⟩

/-- A soft interrupt that was taken from the queue runs inside of one call only. -/
theorem Inv.soft {s : State F} (h : Inv s) {pre st : List (Frame F)} {r : Guard} {f : F}
    (hst : s.stack = pre ++ .softCall r f :: st) : st = [.afterRun] ∧ Draining s r := by
  have hcalls := h.calls
  rw [hst] at hcalls
  generalize heq : pre ++ .softCall r f :: st = st' at hcalls
  cases pre with
  | nil =>
      cases hcalls with
      | softCall hr =>
          cases heq
          exact ⟨rfl, hr⟩
      | _ => cases heq
  | cons fr pre =>
      have hmem : Frame.softCall r f ∈ pre ++ .softCall r f :: st :=
        List.mem_append_right _ List.mem_cons_self
      rw [List.cons_append] at heq
      cases hcalls with
      | none => cases heq
      | enqueued hd =>
          rw [(List.cons.inj heq).2] at hmem
          cases hmem
      | softLoop hr =>
          rw [(List.cons.inj heq).2, List.mem_singleton] at hmem
          cases hmem
      | softCall hr =>
          rw [(List.cons.inj heq).2, List.mem_singleton] at hmem
          cases hmem
      | afterRun hoff hempty hinner =>
          rw [(List.cons.inj heq).2] at hmem
          cases hmem

/-- In a state that satisfies the invariant, the assertion after `run_soft_interrupts` fails
exactly when the soft interrupts have left a guard. -/
theorem Inv.guardsAfterRun_iff {s : State F} (h : Inv s) {op : Op F} (hop : Allowed s op) :
    Uninterruptible.perform s op = .error .guardsAfterRun ↔
      op = .tick ∧ ∃ st, s.stack = .afterRun :: st ∧ ∃ g ∈ s.guards, st.length < g.depth := by
  constructor
  · intro herr
    rcases h.perform hop with ⟨t, hok, -⟩ | ⟨rfl, hst, hg, -⟩
    · rw [herr] at hok
      cases hok
    · obtain ⟨g, hmem⟩ := List.exists_mem_of_ne_nil _ hg
      have hcalls := h.calls
      rw [hst] at hcalls
      cases hcalls with
      | afterRun hoff hempty hinner => exact ⟨rfl, [], hst, g, hmem, hinner g hmem⟩
  · rintro ⟨rfl, st, hst, g, hmem, -⟩
    have hne : s.core.numHeld ≠ 0 := mt h.counted.numHeld_eq_zero.mp (List.ne_nil_of_mem hmem)
    change s.tick = _
    rw [State.tick]
    rw [hst]
    simp only [ensure_neg hne, error_bind]

/-- The invariant gives the properties. -/
theorem Inv.sound {s : State F} (h : Inv s) : Sound s where
  disabled := h.counted.disabled
  last_drop := fun hdrop hs hruns =>
    ⟨(h.last_drop_runs hdrop hs hruns).1, (h.last_drop_runs hdrop hs hruns).2.1⟩
  last_drop_returns := fun hdrop hs hruns => (h.last_drop_runs hdrop hs hruns).2.2
  progress := by
    intro hne
    by_cases hcode : CodeRuns s.stack
    · exact .inl ⟨hcode, hne⟩
    · exact .inr hcode
  fifo := h.counted.fifo
  soft := by
    intro pre r f st hst
    obtain ⟨rfl, hr⟩ := h.soft hst
    exact ⟨h.counted.disabled (List.ne_nil_of_mem hr.mem), hr.inner⟩
  enabledOnDrop := by
    intro op hop herr
    rcases h.perform hop with ⟨t, hok, -⟩ | ⟨-, -, -, herr'⟩
    · rw [herr] at hok
      cases hok
    · rw [herr] at herr'
      cases herr'
  guardsAfterRun := h.guardsAfterRun_iff

/-- **The interrupt disabler is sound**: the properties hold in every state that a core
reaches by creating and dropping guards and enqueueing soft interrupts. -/
theorem interrupts_sound_of_runs {s₀ s : State F} {ops : List (Op F)} (h₀ : Init s₀)
    (h : Runs Step s₀ ops s) : Sound s :=
  (h.invariant h₀.inv fun _ _ _ hinv hs => hinv.step hs).sound

/-! ### A soft interrupt that keeps a guard -/

/-- A core with interrupts on. -/
def exampleInit : State ℕ := ⟨⟨0, false, true, false, []⟩, [], [], 0, false, false, [], []⟩

/-- Nothing has happened there. -/
theorem init_exampleInit : Init exampleInit := ⟨rfl, rfl, rfl, rfl, rfl, rfl⟩

/-- The state before a soft interrupt is run by the drop of the last guard. -/
def exampleDrain : State ℕ :=
  ⟨⟨1, false, false, false, [7]⟩, [.softLoop ⟨1, 1⟩, .afterRun], [⟨1, 1⟩], 2, false, false, [7], []⟩

/-- A guard is created, a soft interrupt is enqueued, and the guard is dropped. -/
theorem runs_exampleDrain :
    Runs Step exampleInit [.new, .enqueue 7, .drop ⟨0, 0⟩] exampleDrain := by
  refine Runs.cons (t := exampleInit.create) ⟨trivial, rfl⟩ ?_
  refine Runs.cons (t := exampleInit.create.enqueueSoftInterrupt 7) ⟨trivial, rfl⟩ ?_
  refine Runs.cons (t := exampleDrain) ⟨⟨trivial, ?_, ?_⟩, rfl⟩ .refl
  · exact List.mem_singleton_self _
  · intro fr hfr
    cases hfr

/-- The properties hold while a soft interrupt is about to run. -/
theorem interrupts_sound_exampleDrain : Sound exampleDrain :=
  interrupts_sound_of_runs init_exampleInit runs_exampleDrain

/-- **A soft interrupt can make the drop of the last guard panic**: it creates a guard and
returns without dropping it, so that the count is not zero after `run_soft_interrupts`. -/
theorem soft_interrupt_leaves_guard :
    ∃ s : State ℕ,
      Runs Step exampleInit
        [.new, .enqueue 7, .drop ⟨0, 0⟩, .tick, .new, .ret, .tick] s ∧
      Allowed s .tick ∧ perform s .tick = .error .guardsAfterRun := by
  refine ⟨⟨⟨1, false, false, false, []⟩, [.afterRun], [⟨2, 2⟩], 3, false, false, [7], [7]⟩,
    runs_exampleDrain.trans ?_, id, rfl⟩
  refine Runs.cons (t := ⟨⟨1, false, false, false, []⟩, [.softCall ⟨1, 1⟩ 7, .afterRun], [⟨1, 1⟩],
    2, false, false, [7], [7]⟩) ⟨id, rfl⟩ ?_
  refine Runs.cons (t := ⟨⟨2, false, false, false, []⟩, [.softCall ⟨1, 1⟩ 7, .afterRun],
    [⟨2, 2⟩, ⟨1, 1⟩], 3, false, false, [7], [7]⟩) ⟨trivial, rfl⟩ ?_
  refine Runs.cons (t := ⟨⟨2, false, false, false, []⟩, [.softLoop ⟨1, 1⟩, .afterRun],
    [⟨2, 2⟩, ⟨1, 1⟩], 3, false, false, [7], [7]⟩) ⟨⟨trivial, List.cons_ne_nil _ _⟩, rfl⟩ ?_
  exact Runs.cons ⟨id, rfl⟩ .refl

end HydroxKernel.Uninterruptible
