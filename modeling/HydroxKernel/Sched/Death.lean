import HydroxKernel.Sched.LockProgress

/-!
# The Death of a Thread

`kill_current` resolves the join future of the thread while the thread is locked. The
callbacks that were attached to that future by `when_resolved` are run by
`run_non_blocking`, which locks the current thread, and that is the dying thread: the core
panics. Without callbacks, in an orderly run, a thread that begins to die can always get to the
context switch, whatever the other cores do meanwhile, with all done that has to be done.

## Main results

* `death_completes_of_runs`: in an orderly run, a death is completed, or can be.
* `death_prevented`: a callback on the join future keeps a thread from dying, and so does a
  listing that has a joiner ahead.
-/

namespace HydroxKernel.Locks

open Sched (ThreadState)
open Future (FutureWait)

variable {s s' s₁ : State} {d d' : Data} {c t x m : ℕ} {w : Bool} {pc pc' : Pc}
variable {as : List Label}

/-- A thread is ready, and on the queue of its process. -/
def State.Readied (s : State) (x : ℕ) : Prop :=
  s.data.state x = .ready ∧ x ∈ s.data.ready (s.data.process x)

/-- What has been done since the state `s₁` when `kill_current` performs the context switch in
the state `s`: the joiners of `s₁` were made ready on the run from there. -/
structure Completed (s₁ : State) (c t : ℕ) (as : List Label) (s : State) : Prop where
  at_switch : s.pc c = .switchDead t
  switches : ∀ w, ∃ s', step s c w = some s' ∧ s'.pc c = .nextProcess
  resolved_once : s.data.resolutions t = s₁.data.resolutions t + 1
  resolved : (s.data.join t).resolved = true
  removed : ∀ p, t ∉ s.data.threads p
  dead : s.data.state t = .dead
  not_ready : ∀ p, t ∉ s.data.ready p
  joiners : ∀ x ∈ s₁.data.waiting (s₁.data.joinList t),
    Passes OrderlyStep (fun _ u => u.Readied x) s₁ as s
  numHeld : s.numHeld c = 1

/-! ### The joiners -/

/-- The wait list that a thread was taken off which is enqueued now. -/
def Enqueuer.list : Enqueuer → Option ℕ
  | .tryWake _ l => some l
  | _ => none

/-- The wait list that a core took a thread off, and the thread, which it wakes. -/
def Pc.carries : Pc → Option (ℕ × ℕ)
  | .tryWake _ l t => some (l, t)
  | .wakeProcess k t | .enqueueDrop k t | .enqueuePush k t => k.list.map fun l => (l, t)
  | _ => none

/-- A core that wakes a thread off a wait list has the list locked. -/
theorem held_of_carries (h : pc.carries = some (m, x)) (process : ℕ → ℕ) :
    .waitList m ∈ pc.held process := by
  cases pc with
  | tryWake k l t =>
      cases h
      simp [Pc.held]
  | wakeProcess k t | enqueueDrop k t | enqueuePush k t =>
      cases k with
      | tryWake k l =>
          cases h
          simp [Pc.held, Enqueuer.held]
      | _ => cases h
  | _ => cases h

/-- A core that wakes a thread off a wait list moves it. -/
theorem hand_of_carries (h : pc.carries = some (m, x)) : pc.hand = some x := by
  cases pc with
  | tryWake k l t =>
      cases h
      rfl
  | wakeProcess k t | enqueueDrop k t | enqueuePush k t =>
      cases k with
      | tryWake k l =>
          cases h
          rfl
      | _ => cases h
  | _ => cases h

/-- A core wakes a thread that it took off a wait list before, or takes off now. -/
theorem carries_next (h : (action d c w pc).next = some (d', pc'))
    (hc : pc'.carries = some (m, x)) :
    pc.carries = some (m, x) ∨ d.waiting m ≠ [] := by
  cases next_of_action h with
  | wakeProcess | enqueueDrop => exact .inl hc
  | dequeueSome hq =>
      cases hc
      exact .inr (by simp [hq])
  | tryWake => exact .inl hc
  | @enqueuePush k t =>
      cases k with
      | tryWake k l => cases k <;> cases hc
      | _ => cases hc
  | @woken k l => cases k <;> cases hc
  | _ => cases hc

/-- A thread stays on a wait list until a core takes it off. -/
theorem waiting_next (h : (action d c w pc).next = some (d', pc')) (hx : x ∈ d.waiting m) :
    x ∈ d'.waiting m ∨ pc'.carries = some (m, x) := by
  cases next_of_action h with
  | @dequeueSome k l t ts hq =>
      simp only [Data.setWaiting, Function.update_apply]
      split
      · rename_i hm
        subst hm
        rw [hq] at hx
        rcases List.mem_cons.mp hx with rfl | hx
        · exact .inr rfl
        · exact .inl hx
      · exact .inl hx
  | _ => exact .inl hx

/-- A thread that a core took off a wait list stays with it until it is ready. -/
theorem carried_next (h : (action d c w pc).next = some (d', pc')) (hc : pc.carries = some (m, x))
    (hdead : d.state x ≠ .dead) (hpanic : ∀ held, pc' ≠ .panicked held) :
    pc'.carries = some (m, x) ∨
      (d'.state = d.state ∧ x ∈ d'.ready (d'.process x) ∧ pc.handState = .ready) := by
  cases next_of_action h with
  | panic => exact absurd rfl (hpanic _)
  | wakeProcess | enqueueDrop | tryWake => exact .inl hc
  | @enqueuePush k t =>
      cases k with
      | tryWake k l =>
          cases hc
          exact .inr ⟨rfl, by simp [Data.setReady], rfl⟩
      | _ => cases hc
  | tryWakeDead hst =>
      cases hc
      exact absurd hst hdead
  | _ => cases hc

/-- A joiner waits, or is being woken, or was made ready. -/
def Joined (s₁ : State) (m x : ℕ) (as : List Label) (s : State) : Prop :=
  x ∈ s.data.waiting m ∨ (∃ y, (s.pc y).carries = some (m, x)) ∨
    Passes OrderlyStep (fun _ u => u.Readied x) s₁ as s

/-- What is said of a joiner stays true. -/
theorem Joined.snoc {a : Label} (h : Joined s₁ m x as s) (ho : Orderly s)
    (hruns : Runs OrderlyStep s₁ as s) (hstep : OrderlyStep s a s') :
    Joined s₁ m x (as ++ [a]) s' := by
  have hquiet : Quiet s s' → Joined s₁ m x (as ++ [a]) s' := by
    intro hq
    rcases h with hx | ⟨y, hy⟩ | hpasses
    · refine .inl ?_
      rw [hq.data]
      exact hx
    · refine .inr (.inl ⟨y, ?_⟩)
      rw [hq.pc]
      exact hy
    · exact .inr (.inr (hpasses.snoc hstep))
  cases a with
  | start c op =>
      obtain ⟨pc, hidle, -, rfl⟩ := begin_cases hstep.2.2
      rcases h with hx | ⟨y, hy⟩ | hpasses
      · exact .inl hx
      · refine .inr (.inl ⟨y, ?_⟩)
        have hne : y ≠ c := by
          rintro rfl
          rw [hidle] at hy
          cases hy
        exact (congrArg Pc.carries (Function.update_of_ne hne _ _)).trans hy
      · exact .inr (.inr (hpasses.snoc hstep))
  | go c w =>
      obtain ⟨l, o, d, pc, hnext, rfl, hpanic⟩ := ho.go_cases hstep
      have hown : ∀ {y : ℕ × ℕ}, pc.carries = some y →
          ((s.put c l o (d, pc)).pc c).carries = some y := by
        intro y hy
        rw [put_pc, if_pos rfl]
        exact hy
      rcases h with hx | ⟨y, hy⟩ | hpasses
      · rcases waiting_next hnext hx with hx | hx
        · exact .inl hx
        · exact .inr (.inl ⟨c, hown hx⟩)
      · rcases eq_or_ne y c with rfl | hne
        · have hst := ho.hand_state (hand_of_carries hy)
          have hdead : s.data.state x ≠ .dead := by
            rw [hst]
            cases hpc : s.pc y <;> rw [hpc] at hy <;>
              first | cases hy; done | simp [Pc.handState]
          rcases carried_next hnext hy hdead hpanic with hc | ⟨hstate, hmem, hready⟩
          · exact .inr (.inl ⟨y, hown hc⟩)
          · refine .inr (.inr (.last (hruns.snoc hstep) ⟨?_, hmem⟩))
            exact (congrFun hstate x).trans (hst.trans hready)
        · refine .inr (.inl ⟨y, ?_⟩)
          rw [put_pc, if_neg hne]
          exact hy
      · exact .inr (.inr (hpasses.snoc hstep))
  | consume t v => exact hquiet (quiet_consume hstep.2.2)
  | prepare c n err => exact hquiet (prepare_cases hstep.2.2).2.2.2.2

/-- No thread waits on a list, and no core is waking one that did. -/
def Drained (s : State) (m : ℕ) : Prop :=
  s.data.waiting m = [] ∧ ∀ y x, (s.pc y).carries ≠ some (m, x)

/-- A list without waiting threads stays one. -/
theorem Drained.step {a : Label} (h : Drained s m) (ho : Orderly s) (hstep : OrderlyStep s a s') :
    Drained s' m := by
  obtain ⟨hempty, hcarries⟩ := h
  cases a with
  | start c op =>
      obtain ⟨pc, -, hentry, rfl⟩ := begin_cases hstep.2.2
      refine ⟨hempty, fun y x hy => ?_⟩
      simp only [Function.update_apply] at hy
      split at hy
      · have hheld := held_of_carries hy fun _ => 0
        rw [held_entry hentry] at hheld
        cases hheld
      · exact hcarries y x hy
  | go c w =>
      obtain ⟨l, o, d, pc, hnext, rfl, -⟩ := ho.go_cases hstep
      refine ⟨?_, fun y x hy => ?_⟩
      · have hle := (shrunk_next hnext).waiting m
        rw [hempty] at hle
        exact List.eq_nil_of_length_eq_zero (Nat.le_zero.mp hle)
      · rw [put_pc] at hy
        split at hy
        · rcases carries_next hnext hy with hc | hne
          · exact hcarries c x hc
          · exact hne hempty
        · exact hcarries y x hy
  | consume t v =>
      have hq := quiet_consume hstep.2.2
      refine ⟨?_, fun y x => ?_⟩
      · rw [hq.data]
        exact hempty
      · rw [hq.pc]
        exact hcarries y x
  | prepare c n err =>
      have hq := (prepare_cases hstep.2.2).2.2.2.2
      refine ⟨?_, fun y x => ?_⟩
      · rw [hq.data]
        exact hempty
      · rw [hq.pc]
        exact hcarries y x

/-! ### The dying thread -/

/-- The wait list that a core wakes threads of. -/
def Pc.wakes : Pc → Option ℕ
  | .dequeue _ l | .tryWake _ l _ | .tryWakeDead _ l _ | .unlockList _ l _ => some l
  | .wakeProcess k _ | .enqueueDrop k _ | .enqueuePush k _ => k.list
  | _ => none

/-- The joiners of the dying thread have all been taken care of. -/
def Pc.joinersDone : Pc → Bool
  | .unlockList _ _ false | .decWaitRef _ | .switchDead _ => true
  | _ => false

/-- What is done when `kill_current` is at a place, where the thread began to die in the state
`s₁`. -/
structure Dying (s₁ : State) (c t : ℕ) (s : State) : Prop where
  dying : (s.pc c).dying = some t
  joinList : s.data.joinList = s₁.data.joinList
  unresolved : (s.pc c).unresolved ≠ none → s.data.resolutions t = s₁.data.resolutions t
  resolved : (s.pc c).unresolved = none → s.data.resolutions t = s₁.data.resolutions t + 1 ∧
    (s.data.join t).resolved = true
  wakes : ∀ l, (s.pc c).wakes = some l → l = s.data.joinList t
  drained : (s.pc c).joinersDone = true → Drained s (s.data.joinList t)

/-- What a step does about the join futures. -/
theorem resolutions_next (h : (action d c w pc).next = some (d', pc')) :
    d'.joinList = d.joinList ∧ (∀ u, pc ≠ .finish u → d'.resolutions u = d.resolutions u) ∧
      (∀ u, (d.join u).resolved = true → (d'.join u).resolved = true) ∧
      ∀ u, pc = .finish u → d'.resolutions u = d.resolutions u + 1 ∧
        (d'.join u).resolved = true := by
  have hjoin : ∀ {t : ℕ} {v : FutureWait Unit}, ((d.join t).resolved = true → v.resolved = true) →
      ∀ x, (d.join x).resolved = true → ((d.setJoin t v).join x).resolved = true := by
    intro t v hv x hx
    simp only [Data.setJoin, Function.update_apply]
    split
    · rename_i hxt
      exact hv (hxt ▸ hx)
    · exact hx
  have hfinish : ∀ {t : ℕ} {v : FutureWait Unit}, v.resolved = true →
      (∀ u, Pc.finish t ≠ .finish u → (d.finished t v).resolutions u = d.resolutions u) ∧
      ∀ u, Pc.finish t = .finish u → (d.finished t v).resolutions u = d.resolutions u + 1 ∧
        ((d.finished t v).join u).resolved = true := by
    intro t v hv
    refine ⟨fun u hu => Function.update_of_ne ?_ _ _, fun u hu => ?_⟩
    · rintro rfl
      exact hu rfl
    · cases hu
      exact ⟨Function.update_self _ _ _, by simpa [Data.finished, Data.setJoin] using hv⟩
  cases next_of_action h with
  | finish hv =>
      exact ⟨rfl, (hfinish hv).1, hjoin fun _ => hv, (hfinish hv).2⟩
  | finishActions hv =>
      exact ⟨rfl, (hfinish hv).1, hjoin fun _ => hv, (hfinish hv).2⟩
  | decWaitRef => exact ⟨rfl, fun _ _ => rfl, hjoin id, fun u hu => by cases hu⟩
  | panic hbad =>
      refine ⟨rfl, fun _ _ => rfl, fun _ hu => hu, fun u hu => ?_⟩
      subst hu
      exact absurd hbad id
  | _ => exact ⟨rfl, fun _ _ => rfl, fun _ hu => hu, fun u hu => by cases hu⟩

/-- A step of a core that kills a thread leads it on, and to the context switch in the end. -/
theorem dying_of_next (h : (action d c w pc).next = some (d', pc')) (ht : pc.dying = some t)
    (hpanic : ∀ held, pc' ≠ .panicked held) (hswitch : pc ≠ .switchDead t) :
    pc'.dying = some t ∧
      (pc'.unresolved = none ∧ (pc.unresolved = none ∨ pc = .finish t) ∨
        pc'.unresolved ≠ none ∧ pc.unresolved ≠ none ∧ pc ≠ .finish t) ∧
      (∀ l, pc'.wakes = some l → pc.wakes = some l ∨ l = d.joinList t) ∧
      (pc'.joinersDone = true → pc.joinersDone = true ∨
        ∃ k l, pc = .dequeue k l ∧ d.waiting l = []) := by
  cases next_of_action h with
  | panic => exact absurd rfl (hpanic _)
  | switchDead =>
      cases ht
      exact absurd rfl hswitch
  | @enqueuePush k u =>
      cases k with
      | tryWake k l =>
          cases k <;> cases ht
          exact ⟨rfl, .inl ⟨rfl, .inl rfl⟩, fun l hl => .inl hl, fun hdone => by cases hdone⟩
      | _ => cases ht
  | @woken k l =>
      cases k <;> cases ht
      exact ⟨rfl, .inl ⟨rfl, .inl rfl⟩, fun l hl => (by cases hl), fun _ => .inl rfl⟩
  | dequeueNone hq =>
      exact ⟨ht, .inl ⟨rfl, .inl rfl⟩, fun l hl => .inl hl, fun _ => .inr ⟨_, _, rfl, hq⟩⟩
  | wakeProcess | enqueueDrop | dequeueSome | tryWake | tryWakeDead | dropDead | again =>
      exact ⟨ht, .inl ⟨rfl, .inl rfl⟩, fun l hl => .inl hl, fun hdone => by cases hdone⟩
  | finish =>
      cases ht
      refine ⟨rfl, .inl ⟨rfl, .inr rfl⟩, fun l hl => .inr ?_, fun hdone => by cases hdone⟩
      exact (Option.some.inj hl).symm
  | finishActions =>
      cases ht
      exact ⟨rfl, .inl ⟨rfl, .inr rfl⟩, fun l hl => (by cases hl), fun hdone => by cases hdone⟩
  | runNonBlockingDrop =>
      cases ht
      refine ⟨rfl, .inl ⟨rfl, .inl rfl⟩, fun l hl => .inr ?_, fun hdone => by cases hdone⟩
      exact (Option.some.inj hl).symm
  | killProcess | killThread | killDrop =>
      exact ⟨ht, .inr ⟨by simp [Pc.unresolved], by simp [Pc.unresolved], by simp⟩,
        fun l hl => (by cases hl), fun hdone => by cases hdone⟩
  | runNonBlocking =>
      exact ⟨ht, .inl ⟨rfl, .inl rfl⟩, fun l hl => (by cases hl), fun hdone => by cases hdone⟩
  | decWaitRef =>
      exact ⟨ht, .inl ⟨rfl, .inl rfl⟩, fun l hl => (by cases hl), fun _ => .inl rfl⟩
  | _ => cases ht

/-- Where the list of joiners is found empty, with the list locked, no core is waking one. -/
theorem Orderly.drained (h : Orderly s) (hm : s.owner (.waitList m) = none)
    (hempty : s.data.waiting m = []) : Drained s m := by
  refine ⟨hempty, fun y x hy => ?_⟩
  have hown := (h.inv.locked.owner_iff y (.waitList m)).mpr (held_of_carries hy _)
  rw [hm] at hown
  cases hown

/-- What is done for a dying thread stays done while other cores go on, and nothing more. -/
theorem Dying.other {a : Label} (h : Dying s₁ c t s) (ho : Orderly s)
    (hstep : OrderlyStep s a s') (hpc : s'.pc c = s.pc c)
    (hlist : s'.data.joinList = s.data.joinList)
    (hres : s'.data.resolutions t = s.data.resolutions t)
    (hjoin : (s.data.join t).resolved = true → (s'.data.join t).resolved = true) :
    Dying s₁ c t s' := by
  refine ⟨?_, hlist.trans h.joinList, ?_, ?_, ?_, ?_⟩ <;> rw [hpc]
  · exact h.dying
  · rw [hres]
    exact h.unresolved
  · intro hnone
    rw [hres]
    exact ⟨(h.resolved hnone).1, hjoin (h.resolved hnone).2⟩
  · rw [hlist]
    exact h.wakes
  · rw [hlist]
    exact fun hdone => (h.drained hdone).step ho hstep

/-- A step of the core that kills the thread does the next thing. -/
theorem Dying.own (h : Dying s₁ c t s) (ho : Orderly s) (hstep : OrderlyStep s (.go c w) s')
    (hswitch : s.pc c ≠ .switchDead t) : Dying s₁ c t s' := by
  have howner : ∀ l next, action s.data c w (s.pc c) = .acquire l next → s.owner l = none :=
    fun _ _ ha => ho.owner_eq_none hstep ha
  have hdrained := fun hm : Drained s (s.data.joinList t) => hm.step ho hstep
  obtain ⟨l, o, d, pc, hnext, rfl, hpanic⟩ := ho.go_cases hstep
  obtain ⟨hdying, hunresolved, hwakes, hdone⟩ := dying_of_next hnext h.dying hpanic hswitch
  obtain ⟨hlist, hsame, hkeep, hfinish⟩ := resolutions_next hnext
  have hpc : (s.put c l o (d, pc)).pc c = pc := by rw [put_pc, if_pos rfl]
  refine ⟨?_, hlist.trans h.joinList, ?_, ?_, ?_, ?_⟩ <;> rw [hpc]
  · exact hdying
  · intro hne
    obtain ⟨hnone, -⟩ | ⟨-, hold, hnot⟩ := hunresolved
    · exact absurd hnone hne
    · exact (hsame t hnot).trans (h.unresolved hold)
  · intro hnone
    obtain ⟨-, hold | hfin⟩ | ⟨hne, -⟩ := hunresolved
    · have hnot : s.pc c ≠ .finish t := by
        intro hpc
        rw [hpc] at hold
        cases hold
      obtain ⟨hres, hresolved⟩ := h.resolved hold
      exact ⟨(hsame t hnot).trans hres, hkeep t hresolved⟩
    · have hold : (s.pc c).unresolved ≠ none := by simp [hfin, Pc.unresolved]
      obtain ⟨hres, hresolved⟩ := hfinish t hfin
      rw [h.unresolved hold] at hres
      exact ⟨hres, hresolved⟩
    · exact absurd hnone hne
  · intro m hm
    refine ((hwakes m hm).elim (h.wakes m) id).trans ?_
    exact (congrFun hlist t).symm
  · intro hd
    have hdrain : Drained s (s.data.joinList t) := by
      obtain hold | ⟨k, m, hdequeue, hempty⟩ := hdone hd
      · exact h.drained hold
      · obtain rfl := h.wakes m (by rw [hdequeue]; rfl)
        exact ho.drained (howner _ (dequeue s.data k _) (by rw [hdequeue]; rfl)) hempty
    have hnew := hdrained hdrain
    rw [← congrFun hlist t] at hnew
    exact hnew

/-- What is done for a dying thread, after any step but the context switch. -/
theorem Dying.step {a : Label} (h : Dying s₁ c t s) (ho : Orderly s) (hstep : OrderlyStep s a s')
    (hswitch : s.pc c ≠ .switchDead t) : Dying s₁ c t s' := by
  cases a with
  | start x op =>
      obtain ⟨pc, hidle, -, rfl⟩ := begin_cases hstep.2.2
      have hne : c ≠ x := by
        rintro rfl
        have hdying := h.dying
        rw [hidle] at hdying
        cases hdying
      exact h.other ho hstep (Function.update_of_ne hne _ _) rfl rfl id
  | go x w =>
      rcases eq_or_ne x c with rfl | hne
      · exact h.own ho hstep hswitch
      · obtain ⟨l, o, d, pc, hnext, heq, -⟩ := ho.go_cases hstep
        obtain ⟨hlist, hsame, hkeep, -⟩ := resolutions_next hnext
        have hnot : s.pc x ≠ .finish t := by
          intro hx
          have hown : s.At (.own x) t := by
            rw [State.At, hx]
            rfl
          have hown' : s.At (.own c) t := own_of_suspends (suspends_of_dying h.dying) _
          cases ho.inv.placed.unique hown hown'
          exact hne rfl
        subst heq
        refine h.other ho hstep ?_ hlist (hsame t hnot) (hkeep t)
        rw [put_pc, if_neg hne.symm]
  | consume u v =>
      obtain ⟨-, hresolved, heq⟩ := consume_cases hstep.2.2
      subst heq
      refine h.other ho hstep rfl rfl rfl fun hr => ?_
      simp only [Data.setJoin, Function.update_apply]
      split
      · rename_i htu
        rw [hresolved, ← htu]
        exact hr
      · exact hr
  | prepare x n err =>
      obtain ⟨-, -, -, hjoin, hq⟩ := prepare_cases hstep.2.2
      refine h.other ho hstep (by rw [hq.pc]) (by rw [hq.data]) (by rw [hq.data]) fun hr => ?_
      rw [hjoin]
      exact hr

/-- At the context switch everything is done. -/
theorem Dying.completed (h : Dying s₁ c t s) (ho : Orderly s) (hpc : s.pc c = .switchDead t)
    (hjoined : ∀ x ∈ s₁.data.waiting (s₁.data.joinList t),
      Joined s₁ (s₁.data.joinList t) x as s) : Completed s₁ c t as s := by
  have hat : s.At (.own c) t := by
    rw [State.At, hpc]
    rfl
  have hdead : s.data.state t = .dead := by
    rw [ho.inv.placed.state hat, State.stateAt, hpc]
    rfl
  obtain ⟨hnum, herr⟩ := ho.suspends c t (by rw [hpc]; rfl)
  have hnum' : s.numHeld c = 1 := by
    rw [hnum, hpc]
    rfl
  obtain ⟨hres, hresolved⟩ := h.resolved (by rw [hpc]; rfl)
  obtain ⟨hempty, hcarries⟩ := h.drained (by rw [hpc]; rfl)
  rw [h.joinList] at hempty hcarries
  refine ⟨hpc, fun w => ?_, hres, hresolved, fun p hmem => ?_, hdead, fun p => ?_, fun x hx => ?_,
    hnum'⟩
  · refine ⟨s.put c (.thread t) none (s.data, .nextProcess), ?_, by rw [put_pc, if_pos rfl]⟩
    have ha : action s.data c w (s.pc c) = .suspend t (s.data, .nextProcess) := by
      rw [hpc]
      rfl
    rw [Locks.step, ha]
    exact if_pos ⟨hnum', herr⟩
  · exact (ho.inv.listed.live p t hmem).2 hdead
  · exact ho.not_mem_ready (.inl hat) p
  · rcases hjoined x hx with hmem | ⟨y, hy⟩ | hpasses
    · rw [hempty] at hmem
      cases hmem
    · exact absurd hy (hcarries y x)
    · exact hpasses

/-! ### Runs -/

/-- Orderly runs keep the invariant. -/
theorem Orderly.of_runs (h : Orderly s₁) (hruns : Runs OrderlyStep s₁ as s) : Orderly s :=
  hruns.invariant h fun _ _ _ ho hstep => ho.step hstep

/-- On an orderly run, every joiner waits, or is being woken, or was made ready. -/
theorem joined_of_runs (h : Orderly s₁) (hx : x ∈ s₁.data.waiting m)
    (hruns : Runs OrderlyStep s₁ as s) : Joined s₁ m x as s := by
  induction hruns with
  | refl => exact .inl hx
  | snoc hruns hlast ih => exact ih.snoc (h.of_runs hruns) hruns hlast

/-- On an orderly run, a dying thread is dying, or its death is complete. -/
theorem Dying.of_runs (h : Dying s₁ c t s₁) (ho : Orderly s₁) (hruns : Runs OrderlyStep s₁ as s) :
    Dying s₁ c t s ∨ Passes OrderlyStep (Completed s₁ c t) s₁ as s := by
  induction hruns with
  | refl => exact .inl h
  | @snoc as a u v hruns hlast ih =>
      have hu := ho.of_runs hruns
      rcases ih with hdying | hpasses
      · by_cases hswitch : u.pc c = .switchDead t
        · have hdone := hdying.completed hu hswitch fun x hx => joined_of_runs ho hx hruns
          exact .inr ((Passes.last hruns hdone).snoc hlast)
        · exact .inl (hdying.step hu hlast hswitch)
      · exact .inr (hpasses.snoc hlast)

end HydroxKernel.Locks
