import HydroxKernel.Sync.FutureBlocking

/-!
# The Steps of Blocking on a Future

The invariant of the threads that block on a future and of the writer that finishes, and what
each step preserves. The states of the threads say who is on the wait list: a thread that waits
is on it, or the writer has just taken it off. A thread holds the state lock only before
`finish`, and the writer from the resolution until the wait list is empty.

## Main results

* `Inv.doAction`, `Inv.wait`: a thread that finds the future unresolved puts itself on the wait
  list while it is unresolved.
* `Inv.dequeue`, `Inv.tryWake`: the writer empties the wait list.
* `Inv.exec`: every step that can be taken returns and keeps the invariant.
-/

namespace HydroxKernel.Blocking

open Sched (Waits WaitOp Fifo ThreadState Sets)
open Future (Permitted Hist Refs At Settled Delivers unresolved withVals queuedVals)

variable {V : Type}

/-! ### The block -/

/-- What is known of the block between two steps of `finish`, which has resolved it with `v`,
while the actions `rest` are still to be run. -/
structure Finishing (cl : Bool) (s : Future.State V) (v : V) (rest : List (ℕ × Bool)) :
    Prop where
  writer : s.writer = false
  names : s.names.Nodup
  settled : ∀ e ∈ s.handles, Settled (some v) e.2
  delivered : ∃ attached, List.Forall₂ (Delivers v) attached s.log
  block : ∃ w, s.wait = some w ∧ s.destroyed = 0 ∧ w.waitRefs = unresolved s.handles + 1 ∧
    Refs cl none w (some v) (withVals s.handles + queuedVals rest) s.moved

/-- What is known of the block while `finish` does not run. -/
def Quiescent (cl : Bool) (s : Future.State V) (res : Option V) : Prop :=
  ∃ hist : Hist V, hist.res = res ∧ Future.Inv cl s hist

section Block

variable {cl : Bool} {s s' : Future.State V} {res : Option V} {v : V} {rest : List (ℕ × Bool)}

/-- An unresolved block is allocated. -/
theorem Quiescent.unresolved (h : Quiescent cl s none) :
    s.destroyed = 0 ∧ ∃ w, s.wait = some w ∧ w.resolved = false := by
  obtain ⟨hist, hres, hi⟩ := h
  obtain ⟨w, hw, hd, -, hr⟩ := (hres ▸ hi.refs).alive (by simp)
  exact ⟨hd, w, hw, by simpa using hr.resolved⟩

/-- Only `finish` resolves a future. -/
theorem record_res {hist : Hist V} {op : Future.Op V} (hop : ∀ v, op ≠ .finish v) :
    (hist.record s op).res = hist.res := by
  cases op with
  | finish v => exact absurd rfl (hop v)
  | whenResolved h c =>
      rw [Hist.record]
      split <;> rfl
  | _ => rfl

/-- An operation other than `finish`. -/
theorem Quiescent.exec (h : Quiescent cl s res) {op : Future.Op V} (hp : Permitted cl s op)
    (hop : ∀ v, op ≠ .finish v) :
    ∃ s' o, Future.exec cl s op = .ok (s', o) ∧ Quiescent cl s' res ∧
      (∀ h f, op.target = some h → (h, f) ∈ s.handles → Future.Expected res f.hasVal op o) ∧
      ∀ k ∈ s.names, op.target ≠ some k → k ∈ s'.names := by
  obtain ⟨hist, hres, hi⟩ := h
  obtain ⟨s', o, hexec, hi', hout, hmem⟩ := Future.exec_inv hi hp
  refine ⟨s', o, hexec, ⟨_, (record_res hop).trans hres, hi'⟩, hres ▸ hout, fun k hk hne => ?_⟩
  obtain ⟨e, he, rfl⟩ := List.mem_map.mp hk
  exact List.mem_map_of_mem (hmem e he hne)

/-- What a thread finds after `finish(v)`: the future is done, and what it holds is `v` or comes
from `v`, if it is a future with a value. -/
def Sees (s : Future.State V) (h : ℕ) (v : V) : Prop :=
  ∃ f, (h, f) ∈ s.handles ∧ f.isReady = true ∧ Settled (some v) f

/-- `update_readiness` says whether the future is resolved, and if it is, the future is done
afterwards. -/
theorem Quiescent.updateReadiness (h : Quiescent cl s res) {k : ℕ} (hk : k ∈ s.names) :
    ∃ s', Future.exec cl s (.updateReadiness k) = .ok (s', .ready res.isSome) ∧
      Quiescent cl s' res ∧ (∀ j ∈ s.names, j ∈ s'.names) ∧ ∀ v, res = some v → Sees s' k v := by
  have hp : Permitted cl s (.updateReadiness k) := hk
  obtain ⟨s', o, hexec, h', hout, hmem⟩ := h.exec hp fun _ hv => nomatch hv
  obtain ⟨e, he, rfl⟩ := List.mem_map.mp hk
  obtain rfl : o = .ready res.isSome := hout e.1 e.2 rfl he
  obtain ⟨f, hs, htake⟩ := Future.exists_takeHandle hk
  have hready : ∃ f, (e.1, f) ∈ s'.handles ∧ f.isReady = res.isSome := by
    have hexec' := hexec
    simp only [Future.exec, Future.Op.target, htake, Future.execOn] at hexec'
    cases hup : Future.updateState cl { s with handles := hs } f with
    | error e =>
        rw [hup] at hexec'
        cases hexec'
    | ok r =>
        obtain ⟨g, s₁⟩ := r
        rw [hup] at hexec'
        obtain ⟨rfl, hg⟩ := Prod.mk.inj (Except.ok.inj hexec')
        exact ⟨g, List.mem_cons_self, Future.Outcome.ready.inj hg⟩
  obtain ⟨g, hg, hready⟩ := hready
  refine ⟨s', hexec, h', fun j hj => ?_, fun v hv => ⟨g, hg, hready.trans (by rw [hv]; rfl), ?_⟩⟩
  · by_cases hje : j = e.1
    · rw [hje]
      exact List.mem_map.mpr ⟨_, hg, rfl⟩
    · exact hmem j hj fun heq => hje (Option.some.inj heq).symm
  · obtain ⟨hist, hres, hi⟩ := h'
    exact hv ▸ hres ▸ hi.settled _ hg

/-- A future that was not resolved may be resolved. -/
theorem settled_of_none {f : Future.FutureInternal V} (h : Settled none f) :
    Settled (some v) f := by
  cases f with
  | done x =>
      obtain ⟨v', hv', -⟩ := h
      cases hv'
  | doneUnit => rfl
  | withVal => trivial
  | withoutVal => trivial

/-- `finish` begins. -/
theorem Quiescent.beginFinish (h : Quiescent cl s none) (v : V) :
    ∃ actions s', beginFinish s v = .ok (actions, s') ∧ Finishing cl s' v actions ∧
      s'.handles = s.handles := by
  obtain ⟨hist, hres, hi⟩ := h
  have hat := hres ▸ hi.refs
  obtain ⟨w, hw, hd, hwait, hr⟩ := hat.alive (by simp)
  have hderef : s.deref = .ok w := by simp [Future.State.deref, hw]
  have hlog : s.log = [] := (hi.pending hres).1
  have hfin : ∀ m x, (0 < w.valRefs → x = some (.orig v)) →
      m = s.moved + (if w.valRefs = 0 then 1 else 0) →
      Finishing cl (takeActions { s with writer := false, moved := m } { w with val := x }).2 v
        w.actions := by
    intro m x hx hm
    refine ⟨rfl, hi.names, fun e he => settled_of_none ?_, ⟨[], ?_⟩, _, rfl, hd, hwait, ?_⟩
    · exact hres ▸ hi.settled e he
    · simp [takeActions, Future.State.put, hlog]
    · rw [takeActions, Future.State.put, hm]
      exact hr.resolve hx
  by_cases hval : w.valRefs = 0
  · refine ⟨_, _, ?_, hfin (s.moved + 1) w.val (by simp [hval]) (by simp [hval]), rfl⟩
    simp [Blocking.beginFinish, hderef, hval, takeActions]
  · refine ⟨_, _, ?_, hfin s.moved (some (.orig v)) (fun _ => rfl) (by simp [hval]), rfl⟩
    simp [Blocking.beginFinish, hderef, hval, takeActions]

/-- `finish` runs an action. -/
theorem Finishing.runAction {a : ℕ × Bool} (h : Finishing cl s v (a :: rest)) :
    ∃ s', runAction cl s a = .ok s' ∧ Finishing cl s' v rest ∧ s'.handles = s.handles := by
  obtain ⟨w, hw, hd, hwait, hr⟩ := h.block
  rw [queuedVals, List.countP_cons, ← queuedVals] at hr
  have hr' : Refs cl none w (some v) ((withVals s.handles + queuedVals rest) + a.2.toNat)
      s.moved := by
    cases hb : a.2 <;> simpa [hb, Nat.add_assoc] using hr
  obtain ⟨x, s₁, w₁, htake, hx, hr₁, hw₁, hs₁⟩ := Future.takeArg_refs hr'
  obtain ⟨attached, hdel⟩ := h.delivered
  obtain ⟨m, hm⟩ : ∃ m, m = s₁.moved := ⟨_, rfl⟩
  rw [← hm] at hs₁ hr₁
  subst hs₁
  refine ⟨(Future.State.put { s with moved := m } w₁).call a.1 x, ?_, ⟨h.writer, h.names, h.settled,
    ⟨attached ++ [a], List.rel_append hdel (.cons ⟨rfl, hx⟩ .nil)⟩, w₁, rfl, hd, ?_, hr₁⟩, rfl⟩
  · simp [Blocking.runAction, Future.State.deref, hw, htake]
  · rw [hw₁, hwait]
    rfl

/-- `finish` ends. -/
theorem Finishing.endFinish (h : Finishing cl s v []) :
    ∃ s', endFinish s = .ok s' ∧ Quiescent cl s' (some v) ∧ s'.handles = s.handles := by
  obtain ⟨w, hw, hd, hwait, hr⟩ := h.block
  obtain ⟨attached, hdel⟩ := h.delivered
  obtain ⟨s', hdec, hat, hhandles, hlog, -⟩ :=
    Future.decWaitRef_at h.writer hd (Future.withVals_le s.handles) hwait hr
  refine ⟨s', ?_, ⟨⟨some v, attached⟩, rfl, ?_, ?_, ?_, by simp, fun v' hv' => ?_⟩, hhandles⟩
  · simp [Blocking.endFinish, Future.State.deref, hw, hdec]
  · rw [hhandles]
    exact hat
  · rw [hhandles]
    exact h.settled
  · rw [Future.State.names, hhandles]
    exact h.names
  · obtain rfl := Option.some.inj hv'
    rw [hlog]
    exact hdel

/-- The block is allocated while `finish` runs. -/
theorem Finishing.allocated (h : Finishing cl s v rest) : s.wait ≠ none := by
  obtain ⟨w, hw, -⟩ := h.block
  simp [hw]

end Block

/-! ### The invariant -/

/-- The states that a thread can be in, by where it is. -/
def Phase.Allows (l : ℕ) : Phase → ThreadState → Prop
  | .outside, state => state ≠ .waiting l
  | .looping _, state => state = .running ∨ state = .ready ∨ state = .waiting l
  | .locked _, state => state = .running
  | .enqueued _, state | .unlocked _, state => state = .waiting l

/-- The writer has found the wait list empty. -/
def WriterPhase.hasEmptied : WriterPhase → Bool
  | .woken | .done => true
  | _ => false

/-- Who holds the state lock, and that a thread holds it only before `finish`. -/
structure Locking (lock : Option Holder) (phases : ℕ → Phase) (writer : WriterPhase) : Prop where
  thread : ∀ t, lock = some (.thread t) ↔ (phases t).holdsState = true
  finishing : lock = some .writer ↔ writer.holdsState = true
  before : ∀ t, (phases t).holdsState = true → writer = .before

/-- Threads block on live futures, each on another one. -/
structure Borrows (phases : ℕ → Phase) (names : List ℕ) : Prop where
  live : ∀ t h, (phases t).handle = some h → h ∈ names
  inj : ∀ t u h, (phases t).handle = some h → (phases u).handle = some h → t = u

/-- What is known of the block, by where the writer is and by what `finish` was given. -/
def FutureInv (cl : Bool) (s : Future.State V) (res : Option V) : WriterPhase → Prop
  | .before => res = none ∧ Quiescent cl s res
  | .running rest => ∃ v, res = some v ∧ Finishing cl s v rest
  | .waking _ | .woken => ∃ v, res = some v ∧ Finishing cl s v []
  | .done => res.isSome = true ∧ Quiescent cl s res

/-- The invariant, with the threads on the queues and what `finish` was given. -/
structure Inv (cl : Bool) (l : ℕ) (s : State V) (q : Fifo) (res : Option V) : Prop where
  waits : s.waits.Inv q
  waiting : ∀ t, s.state t = .waiting l ↔ t ∈ q.waiting l ∨ s.writer.taken = some t
  taken : ∀ t, s.writer.taken = some t → t ∉ q.waiting l
  empty : s.writer.hasEmptied = true → q.waiting l = []
  allows : ∀ t, (s.phases t).Allows l (s.state t)
  locking : Locking s.lock s.phases s.writer
  borrows : Borrows s.phases s.future.names
  future : FutureInv cl s.future res s.writer

section Places

variable {lock : Option Holder} {phases : ℕ → Phase} {writer writer' : WriterPhase}
  {names names' : List ℕ} {t h : ℕ} {p : Phase}

/-- While nobody holds the state lock, `finish` does not run. -/
theorem Locking.writer_of_free (hl : Locking none phases writer) :
    writer = .before ∨ writer = .done := by
  have hw : writer.holdsState ≠ true := fun hw => nomatch hl.finishing.mpr hw
  cases writer with
  | before => exact .inl rfl
  | done => exact .inr rfl
  | running rest => exact absurd rfl hw
  | waking t => exact absurd rfl hw
  | woken => exact absurd rfl hw

/-- A thread moves without taking or releasing the state lock. -/
theorem Locking.move (hl : Locking lock phases writer)
    (hp : p.holdsState = (phases t).holdsState) :
    Locking lock (Function.update phases t p) writer := by
  have hsame : ∀ x, (Function.update phases t p x).holdsState = (phases x).holdsState := by
    intro x
    by_cases hx : x = t
    · rw [hx, Function.update_self, hp]
    · rw [Function.update_of_ne hx]
  refine ⟨fun x => ?_, hl.finishing, fun x => ?_⟩
  · rw [hsame]
    exact hl.thread x
  · rw [hsame]
    exact hl.before x

/-- A thread takes the state lock. -/
theorem Locking.acquire (hl : Locking none phases .before) (hp : p.holdsState = true) :
    Locking (some (.thread t)) (Function.update phases t p) .before := by
  refine ⟨fun x => ?_, ⟨fun h => (nomatch h), fun h => (nomatch h)⟩, fun _ _ => rfl⟩
  by_cases hx : x = t
  · simp [hx, hp]
  · have hfree : (phases x).holdsState ≠ true := fun hx' => nomatch (hl.thread x).mpr hx'
    rw [Function.update_of_ne hx]
    exact iff_of_false (fun heq => hx (Holder.thread.inj (Option.some.inj heq)).symm) hfree

/-- A thread releases the state lock. -/
theorem Locking.release (hl : Locking lock phases writer) (ht : (phases t).holdsState = true)
    (hp : p.holdsState = false) : Locking none (Function.update phases t p) writer := by
  have hlock := (hl.thread t).mpr ht
  have hfree : ∀ x, (Function.update phases t p x).holdsState = false := by
    intro x
    by_cases hx : x = t
    · rw [hx, Function.update_self, hp]
    · rw [Function.update_of_ne hx, Bool.eq_false_iff]
      intro hx'
      have heq := hlock.symm.trans ((hl.thread x).mpr hx')
      exact hx (Holder.thread.inj (Option.some.inj heq)).symm
  refine ⟨fun x => ?_, ?_, fun x hx => ?_⟩
  · exact iff_of_false (fun h => nomatch h) (by simp [hfree])
  · rw [hl.before t ht]
    exact iff_of_false (fun h => nomatch h) (fun h => nomatch h)
  · rw [hfree] at hx
    cases hx

/-- The writer takes the state lock. -/
theorem Locking.acquireWriter (hl : Locking none phases writer) (hw : writer'.holdsState = true) :
    Locking (some .writer) phases writer' := by
  have hfree : ∀ x, (phases x).holdsState ≠ true := fun x hx => nomatch (hl.thread x).mpr hx
  exact ⟨fun x => iff_of_false (fun h => nomatch h) (hfree x), iff_of_true rfl hw,
    fun x hx => absurd hx (hfree x)⟩

/-- The writer moves on while it holds the state lock. -/
theorem Locking.moveWriter (hl : Locking lock phases writer) (hw : writer.holdsState = true)
    (hw' : writer'.holdsState = true) : Locking lock phases writer' := by
  refine ⟨hl.thread, hl.finishing.trans (iff_of_true hw hw'), fun x hx => ?_⟩
  rw [hl.before x hx] at hw
  cases hw

/-- The writer releases the state lock. -/
theorem Locking.releaseWriter (hl : Locking lock phases writer) (hw : writer.holdsState = true)
    (hw' : writer'.holdsState = false) : Locking none phases writer' := by
  have hfree : ∀ x, (phases x).holdsState ≠ true := fun x hx => by
    rw [hl.before x hx] at hw
    cases hw
  refine ⟨fun x => iff_of_false (fun h => nomatch h) (hfree x), ?_, fun x hx => absurd hx (hfree x)⟩
  exact iff_of_false (fun h => nomatch h) (by simp [hw'])

/-- A thread moves on with its future, or without one. -/
theorem Borrows.move (hb : Borrows phases names)
    (hp : ∀ h, p.handle = some h → (phases t).handle = some h) :
    Borrows (Function.update phases t p) names := by
  have hold : ∀ x h, (Function.update phases t p x).handle = some h →
      (phases x).handle = some h := by
    intro x h hx
    by_cases hxt : x = t
    · rw [hxt, Function.update_self] at hx
      exact hxt ▸ hp h hx
    · rwa [Function.update_of_ne hxt] at hx
  exact ⟨fun x h hx => hb.live x h (hold x h hx),
    fun x y h hx hy => hb.inj x y h (hold x h hx) (hold y h hy)⟩

/-- A thread begins to block on a future that nobody else blocks on. -/
theorem Borrows.start (hb : Borrows phases names) (hh : h ∈ names)
    (hidle : ∀ x, (phases x).handle ≠ some h) :
    Borrows (Function.update phases t (.looping h)) names := by
  have hold : ∀ x k, (Function.update phases t (.looping h) x).handle = some k →
      x = t ∧ k = h ∨ x ≠ t ∧ (phases x).handle = some k := by
    intro x k hx
    by_cases hxt : x = t
    · rw [hxt, Function.update_self] at hx
      exact .inl ⟨hxt, (Option.some.inj hx).symm⟩
    · rw [Function.update_of_ne hxt] at hx
      exact .inr ⟨hxt, hx⟩
  refine ⟨fun x k hx => ?_, fun x y k hx hy => ?_⟩
  · rcases hold x k hx with ⟨-, rfl⟩ | ⟨-, hx'⟩
    · exact hh
    · exact hb.live x k hx'
  · rcases hold x k hx with ⟨rfl, rfl⟩ | ⟨-, hx'⟩
    · rcases hold y k hy with ⟨rfl, -⟩ | ⟨-, hy'⟩
      · rfl
      · exact absurd hy' (hidle y)
    · rcases hold y k hy with ⟨rfl, rfl⟩ | ⟨-, hy'⟩
      · exact absurd hx' (hidle x)
      · exact hb.inj x y k hx' hy'

/-- The futures that threads block on stay. -/
theorem Borrows.mono (hb : Borrows phases names)
    (hn : ∀ t h, (phases t).handle = some h → h ∈ names → h ∈ names') : Borrows phases names' :=
  ⟨fun t h ht => hn t h ht (hb.live t h ht), hb.inj⟩

end Places

/-! ### What a step preserves -/

section Steps

variable {cl : Bool} {l : ℕ} {s s' : State V} {q : Fifo} {res : Option V} {t h : ℕ}

/-- What is known when the writer is at a place. -/
theorem Inv.at_writer (hi : Inv cl l s q res) {writer : WriterPhase} (hw : s.writer = writer) :
    FutureInv cl s.future res writer ∧ Locking s.lock s.phases writer ∧
      ∀ t, s.state t = .waiting l ↔ t ∈ q.waiting l ∨ writer.taken = some t := by
  subst hw
  exact ⟨hi.future, hi.locking, hi.waiting⟩

/-- While nobody holds the state lock, the block is resolved if and only if `finish` has
returned. -/
theorem Inv.quiescent (hi : Inv cl l s q res) (hlock : s.lock = none) :
    Quiescent cl s.future res ∧
      (res = none ∧ s.writer = .before ∨ res.isSome = true ∧ s.writer = .done) := by
  rcases (hlock ▸ hi.locking).writer_of_free with hw | hw
  · obtain ⟨⟨hres, hf⟩, -⟩ := hi.at_writer hw
    exact ⟨hf, .inl ⟨hres, hw⟩⟩
  · obtain ⟨⟨hres, hf⟩, -⟩ := hi.at_writer hw
    exact ⟨hf, .inr ⟨hres, hw⟩⟩

/-- The wait list of the block is empty if no thread is on it. -/
theorem Inv.head_eq_none (hi : Inv cl l s q res) (hq : q.waiting l = []) :
    (s.waits.sched.waitLists l).head = none := by
  rw [hi.waits.isFifo.head, hq]
  rfl

/-- The block is written while nobody holds the state lock. If it is destroyed, its wait list is
empty. -/
theorem Inv.setFuture (hi : Inv cl l s q res) (hlock : s.lock = none) {future : Future.State V}
    (hf : Quiescent cl future res)
    (hn : ∀ t h, (s.phases t).handle = some h → h ∈ s.future.names → h ∈ future.names) :
    s.setFuture l future = .ok { s with future := future } ∧
      Inv cl l { s with future := future } q res := by
  obtain ⟨hf₀, hw⟩ := hi.quiescent hlock
  have hensure : future.destroyed = s.future.destroyed ∨
      (s.waits.sched.waitLists l).head = none := by
    rcases hw with ⟨rfl, -⟩ | ⟨-, hdone⟩
    · exact .inl (hf.unresolved.1.trans hf₀.unresolved.1.symm)
    · exact .inr (hi.head_eq_none (hi.empty (by rw [hdone]; rfl)))
  refine ⟨by rw [State.setFuture, ensure_pos hensure]; rfl, hi.waits, hi.waiting, hi.taken,
    hi.empty, hi.allows, hi.locking, hi.borrows.mono hn, ?_⟩
  rcases hw with ⟨hres, hw⟩ | ⟨hres, hw⟩
  · exact hw.symm ▸ ⟨hres, hf⟩
  · exact hw.symm ▸ ⟨hres, hf⟩

/-- A thread moves on. -/
theorem Inv.move (hi : Inv cl l s q res) {p : Phase} {lock : Option Holder}
    (hlock : Locking lock (Function.update s.phases t p) s.writer)
    (hallows : p.Allows l (s.state t))
    (hb : Borrows (Function.update s.phases t p) s.future.names) :
    Inv cl l { s.setPhase t p with lock := lock } q res := by
  refine ⟨hi.waits, hi.waiting, hi.taken, hi.empty, fun x => ?_, hlock, hb, hi.future⟩
  by_cases hx : x = t
  · rw [hx, State.setPhase]
    dsimp only
    rw [Function.update_self]
    exact hallows
  · rw [State.setPhase]
    dsimp only
    rw [Function.update_of_ne hx]
    exact hi.allows x

/-- **A thread calls `block_until_ready`.** -/
theorem Inv.block (hi : Inv cl l s q res) (hop : (Op.block t h : Op V).Enabled cl l s) :
    Inv cl l (block s t h) q res := by
  obtain ⟨hout, hrun, hh, hidle⟩ := hop
  rw [Blocking.block]
  split
  next f hs htake =>
    split
    · exact hi
    · exact hi.move (hi.locking.move (by rw [hout]; rfl)) (.inl hrun) (hi.borrows.start hh hidle)
  next => exact hi

/-- `do_action` of a future that is not resolved. -/
theorem doAction_unresolved {s s' : State V} {future : Future.State V}
    (hexec : Future.exec cl s.future (.updateReadiness h) = .ok (future, .ready false))
    (hset : s.setFuture l future = .ok s') : Blocking.doAction cl l s t h =
      .ok { s'.setPhase t (.locked h) with lock := some (.thread t) } := by
  rw [Blocking.doAction, hexec]
  simp only [Except.mapError, ok_bind, hset]
  rfl

/-- `do_action` of a resolved future. -/
theorem doAction_resolved {s s' : State V} {future : Future.State V}
    (hexec : Future.exec cl s.future (.updateReadiness h) = .ok (future, .ready true))
    (hset : s.setFuture l future = .ok s') : Blocking.doAction cl l s t h =
      .ok (s'.setPhase t .outside) := by
  rw [Blocking.doAction, hexec]
  simp only [Except.mapError, ok_bind, hset]
  rfl

/-- **A thread looks whether its future is resolved.** If it is, the call returns; otherwise the
thread holds the state lock. -/
theorem Inv.doAction (hi : Inv cl l s q res) (hop : (Op.doAction t h : Op V).Enabled cl l s) :
    ∃ s', doAction cl l s t h = .ok s' ∧ Inv cl l s' q res ∧
      ∀ v, res = some v → s'.phases t = .outside ∧ Sees s'.future h v := by
  obtain ⟨hp, hrun, hlock⟩ := hop
  obtain ⟨hf, hw⟩ := hi.quiescent hlock
  obtain ⟨future, hexec, hf', hnames, hsees⟩ :=
    hf.updateReadiness (hi.borrows.live t h (by rw [hp]; rfl))
  obtain ⟨hset, hi'⟩ := hi.setFuture hlock hf' fun _ k _ hk => hnames k hk
  rcases hw with ⟨rfl, hw⟩ | ⟨hres, hw⟩
  · refine ⟨_, doAction_unresolved hexec hset, hi'.move ?_ hrun (hi'.borrows.move fun k hk => ?_),
      fun _ hv => by cases hv⟩
    · obtain ⟨-, hl, -⟩ := hi.at_writer hw
      rw [hlock] at hl
      exact hw.symm ▸ hl.acquire rfl
    · rw [hp]
      exact hk
  · rw [hres] at hexec
    refine ⟨_, doAction_resolved hexec hset, hi'.move (hi.locking.move (by rw [hp]; rfl)) ?_
      (hi'.borrows.move fun _ hk => by cases hk), fun v hv => ⟨?_, hsees v hv⟩⟩
    · exact hrun.symm ▸ fun heq => by cases heq
    · exact Function.update_self _ _ _

/-- **A thread puts itself on the wait list.** The future is not resolved. -/
theorem Inv.wait (hi : Inv cl l s q res) (hp : s.phases t = .locked h) :
    ∃ s', wait l s t h = .ok s' ∧
      Inv cl l s' (WaitOp.queues s.waits.sched q (.wait t l)) res := by
  have hbefore : s.writer = .before := hi.locking.before t (by rw [hp]; rfl)
  obtain ⟨⟨rfl, hf⟩, -⟩ := hi.at_writer hbefore
  obtain ⟨-, w, hw, hres⟩ := hf.unresolved
  have hrun : s.state t = .running := by
    have hallows := hi.allows t
    rwa [hp] at hallows
  obtain ⟨waits, hwait, hwaits, hsets⟩ := hi.waits.wait hrun l
  have hstate : ∀ x, (waits.sched.threads x).state = if x = t then .waiting l else s.state x :=
    hsets.state
  refine ⟨{ s.setPhase t (.enqueued h) with waits := waits }, ?_, hwaits, fun x => ?_,
    fun x hx => ?_, fun hw => ?_, fun x => ?_, hi.locking.move (by rw [hp]; rfl),
    hi.borrows.move fun k hk => by rw [hp]; exact hk, hi.future⟩
  · simp only [Blocking.wait, Future.State.deref, hw, Except.mapError, ok_bind, ensure_pos hres,
      hwait]
    rfl
  · rw [State.state, hstate, WaitOp.queues, Sched.mem_update_append]
    by_cases hx : x = t
    · simp [hx]
    · simpa [hx, State.setPhase] using hi.waiting x
  · rw [State.setPhase, hbefore] at hx
    cases hx
  · rw [State.setPhase, hbefore] at hw
    cases hw
  · rw [State.state, hstate, State.setPhase]
    dsimp only
    by_cases hx : x = t
    · rw [hx, Function.update_self, if_pos rfl]
      rfl
    · rw [Function.update_of_ne hx, if_neg hx]
      exact hi.allows x

/-- A thread releases the state lock. -/
theorem Inv.dropState (hi : Inv cl l s q res) (hp : s.phases t = .enqueued h) :
    Inv cl l (dropState s t h) q res := by
  have hallows := hi.allows t
  rw [hp] at hallows
  refine hi.move (hi.locking.release (by rw [hp]; rfl) rfl) hallows (hi.borrows.move fun k hk => ?_)
  rw [hp]
  exact hk

/-- A thread is suspended. -/
theorem Inv.suspend (hi : Inv cl l s q res) (hp : s.phases t = .unlocked h) :
    Inv cl l (suspend s t h) q res := by
  have hallows := hi.allows t
  rw [hp] at hallows
  refine hi.move (hi.locking.move (by rw [hp]; rfl)) (.inr (.inr hallows))
    (hi.borrows.move fun k hk => ?_)
  rw [hp]
  exact hk

/-- **The writer resolves the future.** -/
theorem Inv.finish (hi : Inv cl l s q res) {v : V} (hop : (Op.finish v).Enabled cl l s) :
    ∃ s', finish s v = .ok s' ∧ Inv cl l s' q (some v) := by
  obtain ⟨hbefore, hlock⟩ := hop
  obtain ⟨⟨rfl, hf⟩, hl, hwaiting⟩ := hi.at_writer hbefore
  rw [hlock] at hl
  obtain ⟨actions, future, hbegin, hfin, hhandles⟩ := hf.beginFinish v
  refine ⟨{ s with future := future, lock := some .writer, writer := .running actions }, ?_,
    hi.waits, hwaiting, fun _ ht => (nomatch ht), fun h => (nomatch h), hi.allows,
    hl.acquireWriter rfl, ?_, v, rfl, hfin⟩
  · simp only [Blocking.finish, hbegin, Except.mapError, ok_bind]
    rfl
  · rw [Future.State.names, hhandles]
    exact hi.borrows

/-- **The writer runs an action.** -/
theorem Inv.runAction (hi : Inv cl l s q res) {a : ℕ × Bool} {actions : List (ℕ × Bool)}
    (hw : s.writer = .running (a :: actions)) :
    ∃ s', runNextAction cl s = .ok s' ∧ Inv cl l s' q res ∧ s'.writer = .running actions := by
  obtain ⟨⟨v, rfl, hf⟩, hl, hwaiting⟩ := hi.at_writer hw
  obtain ⟨future, hrun, hfin, hhandles⟩ := hf.runAction
  refine ⟨{ s with future := future, writer := .running actions }, ?_, ⟨hi.waits, hwaiting,
    fun _ ht => (nomatch ht), fun h => (nomatch h), hi.allows,
    hl.moveWriter rfl rfl, ?_, v, rfl, hfin⟩, rfl⟩
  · simp only [runNextAction, hw, hrun, Except.mapError, ok_bind]
    rfl
  · rw [Future.State.names, hhandles]
    exact hi.borrows

/-- **The writer takes the next thread off the wait list**, if there is one. -/
theorem Inv.dequeue (hi : Inv cl l s q res) (hw : s.writer = .running []) :
    ∃ s' q', dequeue l s = .ok s' ∧ Inv cl l s' q' res ∧
      (s'.writer = .woken ∨
        ∃ t, s'.writer = .waking t ∧ (q.waiting l).length = (q'.waiting l).length + 1) := by
  obtain ⟨hf, hl, hwaiting⟩ := hi.at_writer hw
  cases hq : q.waiting l with
  | nil =>
      refine ⟨{ s with writer := .woken }, q, ?_, ⟨hi.waits, hwaiting, fun _ ht => (by cases ht),
        fun _ => hq, hi.allows, hl.moveWriter rfl rfl, hi.borrows, hf⟩, .inl rfl⟩
      rw [Blocking.dequeue, hi.waits.dequeue_nil hq]
      rfl
  | cons t rest =>
      obtain ⟨waits, hdeq, hwaits, hcore, hoff, -⟩ := hi.waits.dequeue hq
      have hstate : ∀ x, (waits.sched.threads x).state = s.state x := hcore.state
      refine ⟨{ s with waits := waits, writer := .waking t }, _, ?_, ⟨hwaits, fun x => ?_, ?_,
        fun h => (by cases h), fun x => ?_,
        hl.moveWriter rfl rfl, hi.borrows, hf⟩, .inr ⟨t, rfl, ?_⟩⟩
      · rw [Blocking.dequeue, hdeq]
        rfl
      · rw [State.state, hstate, hwaiting]
        by_cases hx : x = t
        · simp [hx, hq, WriterPhase.taken]
        · simp [hq, hx, WriterPhase.taken, Ne.symm hx]
      · rintro x hx
        obtain rfl := Option.some.inj hx
        exact hoff l
      · rw [State.state, hstate]
        exact hi.allows x
      · simp

/-- **The writer wakes the thread that it has taken off the wait list.** -/
theorem Inv.tryWake (hi : Inv cl l s q res) (hw : s.writer = .waking t)
    (hfree : (s.phases t).holdsThread = false) :
    ∃ s' q', tryWake l s = .ok s' ∧ Inv cl l s' q' res ∧ s'.writer = .running [] ∧
      q'.waiting l = q.waiting l ∧ s'.state t = .ready := by
  obtain ⟨hf, hl, hwaiting⟩ := hi.at_writer hw
  have ht : s.state t = .waiting l := (hwaiting t).mpr (.inr rfl)
  have hoff : ∀ j, t ∉ q.waiting j := by
    intro j hj
    rcases hi.waits.waits.waiting j t hj with hjt | hjt
    · obtain rfl : l = j := ThreadState.waiting.inj (ht.symm.trans hjt)
      exact hi.taken t (by rw [hw]; rfl) hj
    · exact by cases ht.symm.trans hjt
  have hlive : s.state t ≠ .dead := by
    rw [ht]
    exact fun h => by cases h
  obtain ⟨sched, hwake, hwaits, hsets⟩ :=
    hi.waits.waits.tryWake (hi.waits.waits.lt_created hlive) (.inl ht) hoff
  have halive : Sched.alive s.waits.sched t = true := decide_eq_true hlive
  have hstate : ∀ x, (sched.threads x).state = if x = t then .ready else s.state x := by
    rw [halive] at hsets
    exact hsets.state
  refine ⟨{ s with waits := { s.waits with sched := sched }, writer := .running [] }, _, ?_,
    ⟨⟨hwaits, hi.waits.held.congr sched _⟩, fun x => ?_, fun _ h => (by cases h),
      fun h => (by cases h), fun x => ?_,
      hl.moveWriter rfl rfl, hi.borrows, hf⟩, rfl, rfl, ?_⟩
  · simp only [Blocking.tryWake, hw, hwake, Except.mapError, ok_bind]
    rfl
  · rw [State.state, hstate]
    by_cases hx : x = t
    · simp [hx, hoff l, WriterPhase.taken]
    · simp [hx, hwaiting x, WriterPhase.taken, Ne.symm hx]
  · rw [State.state, hstate]
    by_cases hx : x = t
    · rw [if_pos hx, hx]
      have hallows := hi.allows t
      cases hp : s.phases t with
      | outside => exact fun h => by cases h
      | looping h => exact .inr (.inl rfl)
      | locked h =>
          rw [hp] at hallows
          exact by cases ht.symm.trans hallows
      | enqueued h =>
          rw [hp] at hfree
          cases hfree
      | unlocked h =>
          rw [hp] at hfree
          cases hfree
    · rw [if_neg hx]
      exact hi.allows x
  · rw [State.state, hstate, if_pos rfl]

/-- **The writer gives up its reference.** If the block is destroyed, its wait list is empty. -/
theorem Inv.release (hi : Inv cl l s q res) (hw : s.writer = .woken) :
    ∃ s', release l s = .ok s' ∧ Inv cl l s' q res ∧ s'.writer = .done := by
  obtain ⟨⟨v, rfl, hf⟩, hl, hwaiting⟩ := hi.at_writer hw
  obtain ⟨future, hend, hquiet, hhandles⟩ := hf.endFinish
  have hempty := hi.empty (by rw [hw]; rfl)
  refine ⟨{ s with future := future, lock := none, writer := .done }, ?_, ⟨hi.waits, hwaiting,
    fun _ h => (nomatch h), fun _ => hempty, hi.allows, hl.releaseWriter rfl rfl, ?_, rfl, hquiet⟩,
    rfl⟩
  · rw [Blocking.release, hend]
    simp only [Except.mapError, ok_bind, State.setFuture,
      ensure_pos (Or.inr (hi.head_eq_none hempty))]
    rfl
  · rw [Future.State.names, hhandles]
    exact hi.borrows

/-- **Another operation on the block.** -/
theorem Inv.futureOp (hi : Inv cl l s q res) {op : Future.Op V}
    (hop : (Op.future op).Enabled cl l s) :
    ∃ s', exec cl l s (.future op) = .ok s' ∧ Inv cl l s' q res := by
  obtain ⟨hlock, hp, hfin, -, hidle⟩ := hop
  obtain ⟨future, o, hexec, hf, -, hnames⟩ := (hi.quiescent hlock).1.exec hp hfin
  obtain ⟨hset, hi'⟩ := hi.setFuture hlock hf fun t k hk hmem =>
    hnames k hmem fun htarget => hidle k htarget t hk
  refine ⟨_, ?_, hi'⟩
  rw [Blocking.exec, hexec]
  simp only [Except.mapError, ok_bind, hset]

/-- What the scheduler does apart from this does not concern the wait list of the block. -/
theorem Foreign.waiting_eq {op : WaitOp} (hop : Foreign l s.phases op) :
    (op.queues s.waits.sched q).waiting l = q.waiting l := by
  cases op with
  | wait t j => exact Function.update_of_ne hop.2.symm _ _
  | wakeOne j => exact Function.update_of_ne hop.symm _ _
  | wakeAll j => exact Function.update_of_ne hop.symm _ _
  | create p regs join => rfl
  | wake t => rfl
  | run p => rfl
  | die t => rfl

/-- A thread in `block_until_ready` runs, is ready, or waits on the wait list of the block. -/
theorem Phase.Allows.eq_outside {p : Phase} {state : ThreadState} (h : p.Allows l state)
    (hrun : state ≠ .running) (hready : state ≠ .ready) (hwait : state ≠ .waiting l) :
    p = .outside := by
  cases p with
  | outside => rfl
  | looping k => exact absurd h (by simp [Phase.Allows, hrun, hready, hwait])
  | locked k => exact absurd h hrun
  | enqueued k => exact absurd h hwait
  | unlocked k => exact absurd h hwait

/-- What another operation of the scheduler can do to a thread: nothing, or let it run when it is
ready, or something that does not concern the block. -/
theorem Inv.sched_state (hi : Inv cl l s q res) {op : WaitOp} (hen : op.Enabled s.waits)
    (hop : Foreign l s.phases op) (x : ℕ) :
    op.state s.waits.sched q x = s.state x ∨
      s.state x = .ready ∧ op.state s.waits.sched q x = .running ∨
      s.phases x = .outside ∧ s.state x ≠ .waiting l ∧
        op.state s.waits.sched q x ≠ .waiting l := by
  have hidle : ∀ st, s.state x = st → st ≠ .running → st ≠ .ready → st ≠ .waiting l →
      s.phases x = .outside ∧ s.state x ≠ .waiting l := by
    rintro st rfl hrun hready hwait
    exact ⟨(hi.allows x).eq_outside hrun hready hwait, hwait⟩
  have hother : ∀ j, j ≠ l → x ∈ q.waiting j → s.phases x = .outside ∧ s.state x ≠ .waiting l := by
    intro j hj hx
    rcases hi.waits.waits.waiting j x hx with hs | hs
    · exact hidle _ hs (by simp) (by simp) (by simpa using hj)
    · exact hidle _ hs (by simp) (by simp) (by simp)
  cases op with
  | create p regs join =>
      by_cases hx : x = s.waits.sched.created
      · have hdead := (hi.waits.waits.fresh x hx.ge).1
        obtain ⟨hout, hne⟩ := hidle _ hdead (by simp) (by simp) (by simp)
        exact .inr (.inr ⟨hout, hne, by simp [WaitOp.state, hx]⟩)
      · exact .inl (if_neg hx)
  | wake t =>
      by_cases hx : x = t
      · subst hx
        obtain ⟨hout, hne⟩ := hidle _ hen (by simp) (by simp) (by simp)
        exact .inr (.inr ⟨hout, hne, by simp [WaitOp.state, WaitOp.woken]⟩)
      · exact .inl (if_neg (by simpa [WaitOp.woken] using hx))
  | run p =>
      by_cases hx : (q.ready p).head? = some x
      · have hready := (hi.waits.waits.ready_iff p x).mp (List.mem_of_mem_head? hx)
        exact .inr (.inl ⟨hready.1, if_pos hx⟩)
      · exact .inl (if_neg hx)
  | die t =>
      by_cases hx : x = t
      · subst hx
        have hallows := hi.allows x
        have hout : s.phases x = .outside := hop
        rw [hout] at hallows
        exact .inr (.inr ⟨hout, hallows, by simp [WaitOp.state]⟩)
      · exact .inl (if_neg hx)
  | wait t j =>
      by_cases hx : x = t
      · subst hx
        have hrun : s.state x = .running := hen
        exact .inr (.inr ⟨hop.1, by simp [hrun], by simp [WaitOp.state, hop.2]⟩)
      · exact .inl (if_neg hx)
  | wakeOne j =>
      by_cases hx : x ∈ WaitOp.woken s.waits.sched q (.wakeOne j)
      · have hmem : x ∈ q.waiting j := by
          rw [WaitOp.woken, Option.mem_toList] at hx
          exact List.mem_of_find?_eq_some hx
        obtain ⟨hout, hne⟩ := hother j hop hmem
        exact .inr (.inr ⟨hout, hne, by simp [WaitOp.state, hx]⟩)
      · exact .inl (if_neg hx)
  | wakeAll j =>
      by_cases hx : x ∈ WaitOp.woken s.waits.sched q (.wakeAll j)
      · have hmem : x ∈ q.waiting j := List.mem_of_mem_filter hx
        obtain ⟨hout, hne⟩ := hother j hop hmem
        exact .inr (.inr ⟨hout, hne, by simp [WaitOp.state, hx]⟩)
      · exact .inl (if_neg hx)

/-- **Another operation of the scheduler.** -/
theorem Inv.sched (hi : Inv cl l s q res) {op : WaitOp}
    (hop : (Op.sched op : Op V).Enabled cl l s) :
    ∃ s', exec cl l s (.sched op) = .ok s' ∧ Inv cl l s' (op.queues s.waits.sched q) res := by
  obtain ⟨hen, hforeign⟩ := hop
  obtain ⟨waits, hexec, hwaits, hstate⟩ := hi.waits.exec hen
  have hq : (op.queues s.waits.sched q).waiting l = q.waiting l := hforeign.waiting_eq
  have hchange := hi.sched_state hen hforeign
  refine ⟨{ s with waits := waits }, ?_, hwaits, fun x => ?_, ?_, ?_, fun x => ?_, hi.locking,
    hi.borrows, hi.future⟩
  · rw [Blocking.exec, hexec]
    rfl
  · rw [hq, ← hi.waiting x, State.state, hstate]
    rcases hchange x with hs | ⟨hr, hs⟩ | ⟨-, hne, hs⟩
    · rw [hs]
    · rw [hs, hr]
      exact iff_of_false (fun h => by cases h) fun h => by cases h
    · exact iff_of_false hs hne
  · rw [hq]
    exact hi.taken
  · rw [hq]
    exact hi.empty
  · have hallows := hi.allows x
    rw [State.state, hstate]
    rcases hchange x with hs | ⟨hr, hs⟩ | ⟨hout, hne, hs⟩
    · rw [hs]
      exact hallows
    · rw [hr] at hallows
      rw [hs]
      cases hp : s.phases x with
      | outside => exact fun h => by cases h
      | looping k => exact .inl rfl
      | locked k => rfl
      | enqueued k =>
          rw [hp] at hallows
          cases hallows
      | unlocked k =>
          rw [hp] at hallows
          cases hallows
    · simp only [hout]
      exact hs

/-- What `finish` was given, after a step. -/
def Op.resolution (res : Option V) : Op V → Option V
  | .finish v => some v
  | _ => res

/-- **Every step that can be taken returns** and keeps the invariant. -/
theorem Inv.exec (hi : Inv cl l s q res) {op : Op V} (hop : op.Enabled cl l s) :
    ∃ s' q', exec cl l s op = .ok s' ∧ Inv cl l s' q' (op.resolution res) := by
  cases op with
  | block t h => exact ⟨_, q, rfl, hi.block hop⟩
  | doAction t h =>
      obtain ⟨s', hs', hi', -⟩ := hi.doAction hop
      exact ⟨s', q, hs', hi'⟩
  | wait t h =>
      obtain ⟨s', hs', hi'⟩ := hi.wait hop
      exact ⟨s', _, hs', hi'⟩
  | dropState t h => exact ⟨_, q, rfl, hi.dropState hop⟩
  | suspend t h => exact ⟨_, q, rfl, hi.suspend hop⟩
  | finish v =>
      obtain ⟨s', hs', hi'⟩ := hi.finish hop
      exact ⟨s', q, hs', hi'⟩
  | runAction =>
      obtain ⟨a, actions, hw⟩ := hop
      obtain ⟨s', hs', hi', -⟩ := hi.runAction hw
      exact ⟨s', q, hs', hi'⟩
  | dequeue =>
      obtain ⟨s', q', hs', hi', -⟩ := hi.dequeue hop
      exact ⟨s', q', hs', hi'⟩
  | tryWake =>
      obtain ⟨t, hw, hfree⟩ := hop
      obtain ⟨s', q', hs', hi', -⟩ := hi.tryWake hw hfree
      exact ⟨s', q', hs', hi'⟩
  | release =>
      obtain ⟨s', hs', hi', -⟩ := hi.release hop
      exact ⟨s', q, hs', hi'⟩
  | future op =>
      obtain ⟨s', hs', hi'⟩ := hi.futureOp hop
      exact ⟨s', q, hs', hi'⟩
  | sched op =>
      obtain ⟨s', hs', hi'⟩ := hi.sched hop
      exact ⟨s', _, hs', hi'⟩

end Steps

end HydroxKernel.Blocking
