import HydroxKernel.Sync.FutureBlockingSteps

/-!
# No Lost Wakeups

A thread puts itself on the wait list of a future while it holds the state lock and has found
the future unresolved, and the writer resolves the future and empties the wait list without
releasing the state lock in between. So while nobody holds the state lock, a thread is on the
wait list only if the future is unresolved. The lock of a thread keeps the writer from waking
it before it is suspended.

## Main results

* `finish_returns`: the writer waits for nothing but threads that are being suspended.
* `no_lost_wakeup`: in every run, no thread sleeps on a future that is resolved, no assertion
  fails, and the wait list is empty when the block is destroyed.
-/

namespace HydroxKernel.Blocking

open Sched (Fifo)

variable {V : Type}

section Runs

variable {cl : Bool} {l : ℕ} {s₀ s : State V} {q : Fifo} {res : Option V} {ops : List (Op V)}

/-- Without threads, nobody blocks. -/
theorem Initial.inv (h : Initial s) (cl : Bool) (l : ℕ) :
    Inv cl l s ⟨fun _ => [], fun _ => []⟩ none := by
  obtain ⟨frame, ext, msr, hwaits⟩ := h.waits
  have hquiet : Quiescent cl s.future none := by
    rcases h.future with ⟨k, hk⟩ | hk
    · exact ⟨.new, rfl, hk ▸ Future.inv_newFuture cl k⟩
    · exact ⟨.new, rfl, hk ▸ Future.inv_newWriter cl⟩
  have hstate : ∀ t, s.state t = .dead := fun t => by
    rw [State.state, hwaits]
    rfl
  refine ⟨hwaits ▸ Sched.Waits.new_inv frame ext msr, fun t => ?_, fun t ht => ?_, fun _ => rfl,
    fun t => ?_, ⟨fun t => ?_, ?_, fun t ht => ?_⟩, ⟨fun t k hk => ?_, fun t u k hk => ?_⟩, ?_⟩
  · rw [hstate, h.writer]
    exact iff_of_false (fun h => by cases h) (by simp [WriterPhase.taken])
  · rw [h.writer] at ht
    cases ht
  · rw [hstate, h.phases]
    exact fun h => by cases h
  · rw [h.lock, h.phases]
    exact iff_of_false (fun h => by cases h) fun h => by cases h
  · rw [h.lock, h.writer]
    exact iff_of_false (fun h => by cases h) fun h => by cases h
  · rw [h.phases] at ht
    cases ht
  · rw [h.phases] at hk
    cases hk
  · rw [h.phases] at hk
    cases hk
  · rw [h.writer]
    exact ⟨rfl, hquiet⟩

/-- The invariant holds in every state that a run reaches. -/
theorem inv_of_runs (hinit : Initial s₀) (hrun : Runs (Step cl l) s₀ ops s) :
    ∃ q res, Inv cl l s q res ∧ ∀ v, res = some v → Op.finish v ∈ ops := by
  induction hrun with
  | refl => exact ⟨_, none, hinit.inv cl l, fun _ hv => nomatch hv⟩
  | snoc _ hlast ih =>
      rename_i op s s' _
      obtain ⟨q, res, hi, hres⟩ := ih
      obtain ⟨s'', q', hexec, hi'⟩ := hi.exec hlast.1
      obtain rfl := Except.ok.inj (hexec.symm.trans hlast.2)
      refine ⟨q', _, hi', fun v hv => ?_⟩
      rw [List.mem_append, List.mem_singleton]
      cases op with
      | finish v' => exact .inr (congrArg Op.finish (Option.some.inj hv)).symm
      | _ => exact .inl (hres v hv)

/-- While nobody holds the state lock, or a thread does, a thread is on the wait list only if the
future is not resolved. -/
theorem Inv.unresolved (hi : Inv cl l s q res) (hw : s.writer = .before) :
    ∃ w, s.future.wait = some w ∧ w.resolved = false := by
  obtain ⟨⟨rfl, hf⟩, -⟩ := hi.at_writer hw
  exact hf.unresolved.2

/-- After `finish`, no thread waits on the wait list. -/
theorem Inv.not_waiting (hi : Inv cl l s q res) (hw : s.writer = .done) (t : ℕ) :
    s.state t ≠ .waiting l := by
  intro ht
  rcases (hi.waiting t).mp ht with hmem | htaken
  · rw [hi.empty (by rw [hw]; rfl)] at hmem
    cases hmem
  · rw [hw] at htaken
    cases htaken

/-- After `finish`, a thread in `block_until_ready` is at the head of its loop, or ready to get
there. -/
theorem Inv.looping (hi : Inv cl l s q res) (hw : s.writer = .done) {t h : ℕ}
    (ht : (s.phases t).handle = some h) :
    s.phases t = .looping h ∧ (s.state t = .running ∨ s.state t = .ready) := by
  have hne := hi.not_waiting hw t
  have hallows := hi.allows t
  cases hp : s.phases t with
  | outside =>
      rw [hp] at ht
      cases ht
  | looping k =>
      rw [hp] at ht hallows
      obtain rfl := Option.some.inj ht
      rcases hallows with hs | hs | hs
      · exact ⟨rfl, .inl hs⟩
      · exact ⟨rfl, .inr hs⟩
      · exact absurd hs hne
  | locked k =>
      have hbefore := hi.locking.before t (by rw [hp]; rfl)
      exact nomatch hw.symm.trans hbefore
  | enqueued k =>
      rw [hp] at hallows
      exact absurd hallows hne
  | unlocked k =>
      rw [hp] at hallows
      exact absurd hallows hne

/-- A destroyed block was resolved, and `finish` has returned. -/
theorem Inv.done_of_destroyed (hi : Inv cl l s q res) (hs : s.future.wait = none) :
    s.writer = .done := by
  cases hw : s.writer with
  | before =>
      obtain ⟨w, hw', -⟩ := hi.unresolved hw
      exact nomatch hs.symm.trans hw'
  | running rest =>
      obtain ⟨⟨v, -, hf⟩, -⟩ := hi.at_writer hw
      exact absurd hs hf.allocated
  | waking t =>
      obtain ⟨⟨v, -, hf⟩, -⟩ := hi.at_writer hw
      exact absurd hs hf.allocated
  | woken =>
      obtain ⟨⟨v, -, hf⟩, -⟩ := hi.at_writer hw
      exact absurd hs hf.allocated
  | done => rfl

/-- After `finish`, nobody holds the state lock. -/
theorem Inv.lock_eq_none (hi : Inv cl l s q res) (hw : s.writer = .done) : s.lock = none := by
  cases hlock : s.lock with
  | none => rfl
  | some holder =>
      cases holder with
      | thread t =>
          have hbefore := hi.locking.before t ((hi.locking.thread t).mp hlock)
          exact nomatch hw.symm.trans hbefore
      | writer =>
          have hholds := hi.locking.finishing.mp hlock
          rw [hw] at hholds
          cases hholds

/-! ### `finish` returns -/

/-- The steps of the writer after it has taken the state lock, and of threads that are being
suspended. -/
def Op.OfFinish : Op V → Prop
  | .runAction | .dequeue | .tryWake | .release | .suspend _ _ => True
  | _ => False

/-- A thread that the writer has taken off the wait list is woken when it has been suspended. -/
theorem Inv.wake_taken (hi : Inv cl l s q res) {t : ℕ} (hw : s.writer = .waking t) :
    ∃ ops s' q', Runs (Step cl l) s ops s' ∧ (∀ op ∈ ops, op.OfFinish) ∧ Inv cl l s' q' res ∧
      s'.writer = .running [] ∧ q'.waiting l = q.waiting l := by
  cases hfree : (s.phases t).holdsThread with
  | false =>
      obtain ⟨s', q', hs', hi', hw', hq', -⟩ := hi.tryWake hw hfree
      have hstep : Step cl l s .tryWake s' := ⟨⟨t, hw, hfree⟩, hs'⟩
      exact ⟨_, s', q', Runs.refl.snoc hstep, by simp [Op.OfFinish], hi', hw', hq'⟩
  | true =>
      obtain ⟨h, hp⟩ : ∃ h, s.phases t = .unlocked h := by
        cases hp : s.phases t with
        | unlocked h => exact ⟨h, rfl⟩
        | enqueued h =>
            have hbefore := hi.locking.before t (by rw [hp]; rfl)
            exact nomatch hw.symm.trans hbefore
        | outside => simp [hp, Phase.holdsThread] at hfree
        | looping h => simp [hp, Phase.holdsThread] at hfree
        | locked h => simp [hp, Phase.holdsThread] at hfree
      have hsuspend : Step cl l s (.suspend t h) (Blocking.suspend s t h) := ⟨hp, rfl⟩
      have hfree' : ((Blocking.suspend s t h).phases t).holdsThread = false := by
        simp [Blocking.suspend, State.setPhase, Phase.holdsThread]
      obtain ⟨s', q', hs', hi', hw', hq', -⟩ := (hi.suspend hp).tryWake hw hfree'
      have hstep : Step cl l (Blocking.suspend s t h) .tryWake s' := ⟨⟨t, hw, hfree'⟩, hs'⟩
      exact ⟨_, s', q', (Runs.refl.snoc hsuspend).snoc hstep, by simp [Op.OfFinish], hi', hw', hq'⟩

/-- `finish` returns when its actions have been run, after one round for every thread on the
wait list. -/
theorem Inv.wake_all {n : ℕ} (hi : Inv cl l s q res) (hw : s.writer = .running [])
    (hn : (q.waiting l).length = n) :
    ∃ ops s', Runs (Step cl l) s ops s' ∧ (∀ op ∈ ops, op.OfFinish) ∧ s'.writer = .done := by
  induction n generalizing s q with
  | zero =>
      obtain ⟨s₁, q₁, hs₁, hi₁, hw₁ | ⟨t, -, hlen⟩⟩ := hi.dequeue hw
      · obtain ⟨s', hs', -, hw'⟩ := hi₁.release hw₁
        have hdequeue : Step cl l s .dequeue s₁ := ⟨hw, hs₁⟩
        have hrelease : Step cl l s₁ .release s' := ⟨hw₁, hs'⟩
        exact ⟨_, s', (Runs.refl.snoc hdequeue).snoc hrelease, by simp [Op.OfFinish], hw'⟩
      · omega
  | succ n ih =>
      obtain ⟨s₁, q₁, hs₁, hi₁, hw₁⟩ := hi.dequeue hw
      have hdequeue : Step cl l s .dequeue s₁ := ⟨hw, hs₁⟩
      rcases hw₁ with hw₁ | ⟨t, hw₁, hlen⟩
      · obtain ⟨s', hs', -, hw'⟩ := hi₁.release hw₁
        have hrelease : Step cl l s₁ .release s' := ⟨hw₁, hs'⟩
        exact ⟨_, s', (Runs.refl.snoc hdequeue).snoc hrelease, by simp [Op.OfFinish], hw'⟩
      · obtain ⟨ops₂, s₂, q₂, hruns₂, hops₂, hi₂, hw₂, hq₂⟩ := hi₁.wake_taken hw₁
        obtain ⟨ops', s', hruns', hops', hw'⟩ := ih hi₂ hw₂ (by rw [hq₂]; omega)
        refine ⟨_, s', (Runs.cons hdequeue hruns₂).trans hruns', fun op hop => ?_, hw'⟩
        rcases List.mem_append.mp hop with hop | hop
        · rcases List.mem_cons.mp hop with rfl | hop
          · trivial
          · exact hops₂ op hop
        · exact hops' op hop

/-- **`finish` returns.** Whenever the writer holds the state lock, `finish` can go on until it
returns: it waits for nothing but threads that are being suspended. -/
theorem finish_returns (hinit : Initial s₀) (hrun : Runs (Step cl l) s₀ ops s)
    (hlock : s.lock = some .writer) :
    ∃ ops' s', Runs (Step cl l) s ops' s' ∧ (∀ op ∈ ops', op.OfFinish) ∧ s'.writer = .done := by
  obtain ⟨q, res, hi, -⟩ := inv_of_runs hinit hrun
  have hholds := hi.locking.finishing.mp hlock
  cases hw : s.writer with
  | before =>
      rw [hw] at hholds
      cases hholds
  | done => exact ⟨[], s, .refl, by simp, hw⟩
  | running actions =>
      clear hholds hlock hrun
      induction actions generalizing s with
      | nil => exact hi.wake_all hw rfl
      | cons a actions ih =>
          obtain ⟨s₁, hs₁, hi₁, hw₁⟩ := hi.runAction hw
          have haction : Step cl l s .runAction s₁ := ⟨⟨a, actions, hw⟩, hs₁⟩
          obtain ⟨ops', s', hruns', hops', hw'⟩ := ih hi₁ hw₁
          refine ⟨_, s', Runs.cons haction hruns', fun op hop => ?_, hw'⟩
          rcases List.mem_cons.mp hop with rfl | hop
          · trivial
          · exact hops' op hop
  | waking t =>
      obtain ⟨ops₁, s₁, q₁, hruns₁, hops₁, hi₁, hw₁, -⟩ := hi.wake_taken hw
      obtain ⟨ops', s', hruns', hops', hw'⟩ := hi₁.wake_all hw₁ rfl
      exact ⟨_, s', hruns₁.trans hruns', fun op hop => (List.mem_append.mp hop).elim (hops₁ op)
        (hops' op), hw'⟩
  | woken =>
      obtain ⟨s', hs', -, hw'⟩ := hi.release hw
      have hrelease : Step cl l s .release s' := ⟨hw, hs'⟩
      exact ⟨_, s', Runs.refl.snoc hrelease, by simp [Op.OfFinish], hw'⟩

/-! ### No lost wakeup -/

/-- **No lost wakeup.** In every run of any number of threads that block on the futures of a
block while its writer finishes: while nobody holds the state lock, a thread is on the wait list
only if the future is unresolved. After `finish(v)` no thread waits, and each one that was
waiting, or was about to wait, is ready, or runs and finds the value without waiting. A thread
that waits is on the wait list, or the writer is about to wake it. No step fails: when a thread
calls `wait`, the future is unresolved, and when the block is destroyed, the wait list is
empty. -/
theorem no_lost_wakeup (hinit : Initial s₀) (hrun : Runs (Step cl l) s₀ ops s) :
    ∃ q, Sched.IsFifo s.waits q ∧
      (s.lock = none → ∀ t ∈ q.waiting l, ∃ w, s.future.wait = some w ∧ w.resolved = false) ∧
      (s.writer = .done → ∃ v, Op.finish v ∈ ops ∧ ∀ t, s.state t ≠ .waiting l ∧
        ∀ h, (s.phases t).handle = some h → s.phases t = .looping h ∧
          (s.state t = .ready ∨ s.state t = .running ∧
            ∃ s', Step cl l s (.doAction t h) s' ∧ s'.phases t = .outside ∧
              Sees s'.future h v)) ∧
      (∀ t, s.state t = .waiting l ↔ t ∈ q.waiting l ∨ s.writer = .waking t) ∧
      (∀ t s', s.writer = .waking t → Step cl l s .tryWake s' → s'.state t = .ready) ∧
      (∀ t h, s.phases t = .locked h → ∃ w, s.future.wait = some w ∧ w.resolved = false) ∧
      (∀ op : Op V, op.Enabled cl l s → ∃ s', exec cl l s op = .ok s') ∧
      (s.future.wait = none → q.waiting l = [] ∧ ∀ t, s.state t ≠ .waiting l) := by
  obtain ⟨q, res, hi, hres⟩ := inv_of_runs hinit hrun
  refine ⟨q, hi.waits.isFifo, fun hlock t ht => ?_, fun hw => ?_, fun t => ?_,
    fun t s' hw hstep => ?_, fun t h hp => ?_, fun op hop => ?_, fun hs => ?_⟩
  · obtain ⟨-, ⟨-, hw⟩ | ⟨-, hw⟩⟩ := hi.quiescent hlock
    · exact hi.unresolved hw
    · rw [hi.empty (by rw [hw]; rfl)] at ht
      cases ht
  · obtain ⟨⟨hsome, -⟩, -⟩ := hi.at_writer hw
    obtain ⟨v, hv⟩ := Option.isSome_iff_exists.mp hsome
    refine ⟨v, hres v hv, fun t => ⟨hi.not_waiting hw t, fun h hh => ?_⟩⟩
    obtain ⟨hp, hs | hs⟩ := hi.looping hw hh
    · have hop : (Op.doAction t h : Op V).Enabled cl l s := ⟨hp, hs, hi.lock_eq_none hw⟩
      obtain ⟨s', hexec, -, hsees⟩ := hi.doAction hop
      exact ⟨hp, .inr ⟨hs, s', ⟨hop, hexec⟩, hsees v hv⟩⟩
    · exact ⟨hp, .inl hs⟩
  · have htaken : s.writer.taken = some t ↔ s.writer = .waking t := by
      cases s.writer <;> simp [WriterPhase.taken]
    rw [hi.waiting t, htaken]
  · obtain ⟨t', hw', hfree⟩ := hstep.1
    obtain rfl : t' = t := WriterPhase.waking.inj (hw'.symm.trans hw)
    obtain ⟨s'', q', hwake, -, -, -, hready⟩ := hi.tryWake hw' hfree
    obtain rfl := Except.ok.inj (hwake.symm.trans hstep.2)
    exact hready
  · exact hi.unresolved (hi.locking.before t (by rw [hp]; rfl))
  · obtain ⟨s', q', hexec, -⟩ := hi.exec hop
    exact ⟨s', hexec⟩
  · have hw := hi.done_of_destroyed hs
    exact ⟨hi.empty (by rw [hw]; rfl), hi.not_waiting hw⟩

/-- The state behind a step. -/
def Op.after (cl : Bool) (l : ℕ) (s : State V) (op : Op V) : State V :=
  (exec cl l s op).toOption.getD s

/-- A step that returns leads to the state behind it. -/
theorem Op.step_after (op : Op V) (hop : op.Enabled cl l s)
    (hok : (exec cl l s op).isOk = true) : Step cl l s op (op.after cl l s) :=
  ⟨hop, eq_ok_of_isOk hok s⟩

end Runs

/-! ### A run -/

/-- A new future, and a scheduler without threads. -/
def start : State ℕ :=
  ⟨.newFuture 0, .new Sched.int30Frame [] 0, none, fun _ => .outside, .before⟩

/-- A thread blocks on the future and is not suspended yet when the writer has taken it off the
wait list. -/
def overtaken : List (Op ℕ) :=
  [.sched (.create 0 ⟨.new, []⟩ 1), .sched (.wake 0), .sched (.run 0), .block 0 0, .doAction 0 0,
    .wait 0 0, .dropState 0 0, .finish 7, .dequeue, .suspend 0 0, .tryWake, .dequeue, .release]

/-- The state behind `overtaken`. -/
def finished : State ℕ := overtaken.foldl (Op.after false 9) start

/-- The state of the example is initial. -/
theorem initial_start : Initial start :=
  ⟨.inl ⟨0, rfl⟩, ⟨Sched.int30Frame, [], 0, rfl⟩, rfl, fun _ => rfl, rfl⟩

/-- The operations of the example are a run. -/
theorem runs_overtaken : Runs (Step false 9) start overtaken finished :=
  .cons (Op.step_after (.sched _) ⟨trivial, trivial⟩ rfl)
    (.cons (Op.step_after (.sched _) ⟨rfl, trivial⟩ rfl)
    (.cons (Op.step_after (.sched _) ⟨trivial, trivial⟩ rfl)
    (.cons (Op.step_after (.block 0 0)
      ⟨rfl, rfl, List.mem_singleton.mpr rfl, fun _ h => nomatch h⟩ rfl)
    (.cons (Op.step_after (.doAction 0 0) ⟨rfl, rfl, rfl⟩ rfl)
    (.cons (Op.step_after (.wait 0 0) rfl rfl)
    (.cons (Op.step_after (.dropState 0 0) rfl rfl)
    (.cons (Op.step_after (.finish 7) ⟨rfl, rfl⟩ rfl)
    (.cons (Op.step_after .dequeue rfl rfl)
    (.cons (Op.step_after (.suspend 0 0) rfl rfl)
    (.cons (Op.step_after .tryWake ⟨0, rfl, rfl⟩ rfl)
    (.cons (Op.step_after .dequeue rfl rfl)
    (.cons (Op.step_after .release rfl rfl) .refl))))))))))))

/-- The theorem for this run: the thread does not wait any more. -/
theorem no_lost_wakeup_overtaken :
    finished.state 0 = .ready ∧ finished.phases 0 = .looping 0 := by
  obtain ⟨q, -, -, hdone, -⟩ := no_lost_wakeup initial_start runs_overtaken
  obtain ⟨v, -, hall⟩ := hdone rfl
  obtain ⟨hp, hs | ⟨hs, -⟩⟩ := (hall 0).2 0 rfl
  · exact ⟨hs, hp⟩
  · cases hs

end HydroxKernel.Blocking
