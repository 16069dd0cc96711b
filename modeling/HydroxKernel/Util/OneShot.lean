import HydroxKernel.Lib.Assert
import HydroxKernel.Lib.Runs
import Mathlib.Logic.Function.Basic

/-!
# One-Shot Initialization

`OneShotManualInit`, with any number of threads that set it, read it and ask for its state. An
access to the state is one step. Writing the value takes two, so that a thread can be seen in the
middle of it, and reading a value that is not written, or writing one over another, is a fault and
not a result.

`winners` is a ledger of the values of the calls of `set` that got past the exchange, and `events`
one of what the calls returned.

## Main results

* `Inv.perform`: what one step preserves.
* `oneShot_once`: in every reached state, no step faults, and all calls see one value.
-/

namespace HydroxKernel.OneShot

/-- What must not happen. -/
inductive Fault
  /-- The value is read and not written. -/
  | uninit
  /-- The value is written and there is one, or somebody writes it. -/
  | overwritten
  deriving DecidableEq

/-- The calls. -/
inductive Call (α : Type)
  | set (val : α)
  | isInit
  | tryGet
  | get

/-- What a call ends with. -/
inductive Event (α : Type)
  | value (val : α)
  | isInit (b : Bool)
  | none
  /-- "OneShotManualInit initialized multiple times". -/
  | initializedTwice
  /-- "OneShotManualInit used before being initialized". -/
  | usedBefore

/-- The value. -/
inductive Cell (α : Type)
  | uninit
  | writing
  | written (val : α)

/-- Where a thread is. -/
inductive Pc (α : Type)
  | idle
  /-- Before the access to the state. -/
  | called (call : Call α)
  /-- In `set`, before the value is written. -/
  | write (val : α)
  /-- In `set`, while the value is written. -/
  | writing (val : α)
  /-- In `set`, before the state is stored. -/
  | store
  /-- Before the value is read. -/
  | read
  | panicked

variable {ι α : Type} [DecidableEq ι]

/-- `OneShotManualInit`, its threads and the ledgers. -/
structure State (ι α : Type) where
  state : ℕ
  val : Cell α
  pc : ι → Pc α
  winners : List α
  events : List (Event α)

/-- `OneShotManualInit::uninit`. -/
def State.uninit : State ι α := ⟨0, .uninit, fun _ => .idle, [], []⟩

/-- `OneShotManualInit::new`. -/
def State.new (val : α) : State ι α := ⟨2, .written val, fun _ => .idle, [val], []⟩

/-- A thread goes on at a place. -/
def State.goto (s : State ι α) (t : ι) (pc : Pc α) : State ι α :=
  { s with pc := Function.update s.pc t pc }

/-- A call of a thread ends. -/
def State.finish (s : State ι α) (t : ι) (e : Event α) : State ι α :=
  { s.goto t .idle with events := s.events ++ [e] }

/-- A thread panics. -/
def State.panic (s : State ι α) (t : ι) (e : Event α) : State ι α :=
  { s.goto t .panicked with events := s.events ++ [e] }

/-- The first step of a call: the exchange of `set`, or the load of `is_init`. -/
def State.enter (s : State ι α) (t : ι) : Call α → State ι α
  | .set val =>
      if s.state = 0 then { s.goto t (.write val) with state := 1, winners := s.winners ++ [val] }
      else s.panic t .initializedTwice
  | .isInit => s.finish t (.isInit (decide (s.state = 2)))
  | .tryGet => if s.state = 2 then s.goto t .read else s.finish t .none
  | .get => if s.state = 2 then s.goto t .read else s.panic t .usedBefore

/-- A thread takes a step. -/
def State.step (s : State ι α) (t : ι) : Except Fault (State ι α) :=
  match s.pc t with
  | .idle | .panicked => .ok s
  | .called call => .ok (s.enter t call)
  | .write val =>
      match s.val with
      | .uninit => .ok { s.goto t (.writing val) with val := .writing }
      | _ => .error .overwritten
  | .writing val =>
      match s.val with
      | .writing => .ok { s.goto t .store with val := .written val }
      | _ => .error .overwritten
  | .store => .ok { s.goto t .read with state := 2 }
  | .read =>
      match s.val with
      | .written val => .ok (s.finish t (.value val))
      | _ => .error .uninit

/-- A thread calls, or takes a step. -/
inductive Op (ι α : Type)
  | call (t : ι) (call : Call α)
  | step (t : ι)

/-- Performs an operation. -/
def perform (s : State ι α) : Op ι α → Except Fault (State ι α)
  | .call t call => .ok (s.goto t (.called call))
  | .step t => s.step t

/-- A thread calls when it is in no other call. -/
def Enabled (s : State ι α) : Op ι α → Prop
  | .call t _ => s.pc t = .idle
  | .step _ => True

/-- A step. -/
def Step (s : State ι α) (op : Op ι α) (t : State ι α) : Prop :=
  Enabled s op ∧ perform s op = .ok t

/-! ### The invariant -/

/-- The thread neither sets the value nor reads it. -/
inductive Pc.Outside : Pc α → Prop
  | idle : Outside .idle
  | called (call : Call α) : Outside (.called call)
  | panicked : Outside .panicked

/-- What the value is while a thread sets it. -/
inductive Sets (val : α) : Pc α → Cell α → Prop
  | write : Sets val (.write val) .uninit
  | writing : Sets val (.writing val) .writing
  | store : Sets val .store (.written val)

/-- What a call ends with while there is no value. -/
inductive Event.Early : Event α → Prop
  | none : Early .none
  | usedBefore : Early .usedBefore
  | isInit : Early (.isInit false)

/-- What a call ends with once there is a value. -/
inductive Event.Late (val : α) : Event α → Prop
  | value : Late val (.value val)
  | isInit : Late val (.isInit true)
  | initializedTwice : Late val .initializedTwice

/-- The invariant: nobody has set the value yet, one thread sets it, or it is set for good. -/
inductive Inv (s : State ι α) : Prop
  | unset (hstate : s.state = 0) (hval : s.val = .uninit) (hwinners : s.winners = [])
      (hpc : ∀ t, (s.pc t).Outside) (hevents : ∀ e ∈ s.events, e.Early)
  | setting (t : ι) (val : α) (hstate : s.state = 1) (hsets : Sets val (s.pc t) s.val)
      (hwinners : s.winners = [val]) (hpc : ∀ u, u ≠ t → (s.pc u).Outside)
      (hevents : ∀ e ∈ s.events, e.Early ∨ e = .initializedTwice)
  | set (val : α) (hstate : s.state = 2) (hval : s.val = .written val)
      (hwinners : s.winners = [val]) (hpc : ∀ t, (s.pc t).Outside ∨ s.pc t = .read)
      (hevents : ∀ e ∈ s.events, e.Early ∨ e.Late val)

variable {s s' : State ι α} {t : ι}

/-- The place of a thread that goes on. -/
theorem goto_pc (s : State ι α) (t u : ι) (pc : Pc α) :
    (s.goto t pc).pc u = if u = t then pc else s.pc u := Function.update_apply _ _ _ _

/-- Where the threads are after one goes on. -/
theorem forall_goto {P : Pc α → Prop} (h : ∀ u, P (s.pc u)) {pc : Pc α} (hpc : P pc) (u : ι) :
    P ((s.goto t pc).pc u) := by
  rw [goto_pc]
  split
  · exact hpc
  · exact h u

/-- What holds of the events after one more. -/
theorem forall_concat {P : Event α → Prop} {events : List (Event α)} (h : ∀ e ∈ events, P e)
    {e : Event α} (he : P e) : ∀ e' ∈ events ++ [e], P e' := by
  rw [List.forall_mem_append, List.forall_mem_singleton]
  exact ⟨h, he⟩

/-- The events of a step. Once the value is set, they show it. -/
def Adds (s s' : State ι α) : Prop :=
  ∃ es, s'.events = s.events ++ es ∧
    (s.state = 2 → s'.state = 2 ∧ s'.winners = s.winners ∧ ∀ val ∈ s.winners, ∀ e ∈ es, e.Late val)

omit [DecidableEq ι] in
/-- A step that ends no call. -/
theorem adds_nil (hevents : s'.events = s.events) (hstate : s.state = 2 → s'.state = 2)
    (hwinners : s.state = 2 → s'.winners = s.winners) : Adds s s' :=
  ⟨[], by rw [hevents, List.append_nil], fun h =>
    ⟨hstate h, hwinners h, fun _ _ _ he => absurd he List.not_mem_nil⟩⟩

/-- A thread that sets the value is nowhere else. -/
theorem Sets.not_outside {val : α} {pc : Pc α} {cell : Cell α} (h : Sets val pc cell) :
    ¬ (pc.Outside ∨ pc = .read) := by
  cases h
  all_goals
    rintro (h | h)
    · cases h
    · cases h

omit [DecidableEq ι] in
/-- A thread that is not the one that sets the value is another one. -/
theorem ne_of_sets {u : ι} {val : α} {cell : Cell α} (h : Sets val (s.pc u) cell)
    (hpc : (s.pc t).Outside ∨ s.pc t = .read) : u ≠ t := by
  rintro rfl
  exact h.not_outside hpc

/-- The events that a call may end with. -/
inductive Event.Fits (s : State ι α) (e : Event α) : Prop
  | early (hstate : s.state ≠ 2) (he : e.Early)
  | started (hstate : s.state = 1) (he : e = .initializedTwice)
  | late (hstate : s.state = 2) (he : ∀ val, s.val = .written val → e.Late val)

/-- **A call that ends** and changes nothing else. -/
theorem Inv.record (hs : Inv s) (ht : (s.pc t).Outside ∨ s.pc t = .read) {pc : Pc α}
    (hpc : pc.Outside) {e : Event α} (he : e.Fits s) :
    Inv { s.goto t pc with events := s.events ++ [e] } ∧
      Adds s { s.goto t pc with events := s.events ++ [e] } := by
  cases hs with
  | unset hstate hval hwinners hpcs hevents =>
      refine ⟨.unset hstate hval hwinners (forall_goto hpcs hpc) (forall_concat hevents ?_), [e],
        rfl, fun h => ?_⟩
      · cases he with
        | early _ he => exact he
        | started h _ => exact absurd (hstate.symm.trans h) (by decide)
        | late h _ => exact absurd (hstate.symm.trans h) (by decide)
      · exact absurd (hstate.symm.trans h) (by decide)
  | setting u val hstate hsets hwinners hpcs hevents =>
      have hne := ne_of_sets hsets ht
      refine ⟨.setting u val hstate ?_ hwinners (fun u' hu' => ?_) (forall_concat hevents ?_), [e],
        rfl, fun h => ?_⟩
      · change Sets val ((s.goto t pc).pc u) s.val
        rw [goto_pc, if_neg hne]
        exact hsets
      · change ((s.goto t pc).pc u').Outside
        rw [goto_pc]
        split
        · exact hpc
        · exact hpcs u' hu'
      · cases he with
        | early _ he => exact .inl he
        | started _ he => exact .inr he
        | late h _ => exact absurd (hstate.symm.trans h) (by decide)
      · exact absurd (hstate.symm.trans h) (by decide)
  | set val hstate hval hwinners hpcs hevents =>
      have hlate : e.Late val := by
        cases he with
        | early h _ => exact absurd hstate h
        | started h _ => exact absurd (hstate.symm.trans h) (by decide)
        | late _ he => exact he val hval
      refine ⟨.set val hstate hval hwinners (forall_goto (P := fun pc => pc.Outside ∨ pc = .read)
        hpcs (.inl hpc)) (forall_concat hevents (.inr hlate)), [e], rfl,
        fun _ => ⟨hstate, rfl, fun val' hval' e' he' => ?_⟩⟩
      rw [hwinners] at hval'
      rw [List.mem_singleton.mp hval', List.mem_singleton.mp he']
      exact hlate

/-- A thread that goes on outside, or to read the value once it is set. -/
theorem Inv.goto (hs : Inv s) (ht : (s.pc t).Outside ∨ s.pc t = .read) {pc : Pc α}
    (hpc : pc.Outside ∨ pc = .read ∧ s.state = 2) : Inv (s.goto t pc) ∧ Adds s (s.goto t pc) := by
  refine ⟨?_, adds_nil rfl id fun _ => rfl⟩
  cases hs with
  | unset hstate hval hwinners hpcs hevents =>
      rcases hpc with hpc | ⟨-, h⟩
      · exact .unset hstate hval hwinners (forall_goto hpcs hpc) hevents
      · exact absurd (hstate.symm.trans h) (by decide)
  | setting u val hstate hsets hwinners hpcs hevents =>
      rcases hpc with hpc | ⟨-, h⟩
      · refine .setting u val hstate ?_ hwinners (fun u' hu' => ?_) hevents
        · rw [goto_pc, if_neg (ne_of_sets hsets ht)]
          exact hsets
        · rw [goto_pc]
          split
          · exact hpc
          · exact hpcs u' hu'
      · exact absurd (hstate.symm.trans h) (by decide)
  | set val hstate hval hwinners hpcs hevents =>
      exact .set val hstate hval hwinners
        (forall_goto (P := fun pc => pc.Outside ∨ pc = .read) hpcs (hpc.imp_right And.left)) hevents

/-- **The access to the state.** -/
theorem Inv.enter (hs : Inv s) {call : Call α} (ht : s.pc t = .called call) :
    Inv (s.enter t call) ∧ Adds s (s.enter t call) := by
  have hout : (s.pc t).Outside ∨ s.pc t = .read := .inl (ht ▸ .called call)
  have hfits : ∀ e : Event α, e.Early → s.state ≠ 2 → e.Fits s := fun e he h => .early h he
  cases call with
  | isInit =>
      refine hs.record hout .idle ?_
      by_cases h : s.state = 2
      · rw [decide_eq_true h]
        exact .late h fun _ _ => .isInit
      · rw [decide_eq_false h]
        exact .early h .isInit
  | tryGet =>
      rw [State.enter]
      split
      case isTrue h => exact hs.goto hout (.inr ⟨rfl, h⟩)
      case isFalse h => exact hs.record hout .idle (.early h .none)
  | get =>
      rw [State.enter]
      split
      case isTrue h => exact hs.goto hout (.inr ⟨rfl, h⟩)
      case isFalse h => exact hs.record hout .panicked (.early h .usedBefore)
  | set val =>
      rw [State.enter]
      cases hs with
      | unset hstate hval hwinners hpcs hevents =>
          rw [if_pos hstate]
          refine ⟨.setting t val rfl ?_ ?_ (fun u hu => ?_) fun e he => .inl (hevents e he),
            adds_nil rfl (fun h => ?_) fun h => ?_⟩
          · change Sets val ((s.goto t (.write val)).pc t) s.val
            rw [goto_pc, if_pos rfl, hval]
            exact .write
          · rw [hwinners]
            rfl
          · change ((s.goto t (.write val)).pc u).Outside
            rw [goto_pc, if_neg hu]
            exact hpcs u
          · exact absurd (hstate.symm.trans h) (by decide)
          · exact absurd (hstate.symm.trans h) (by decide)
      | setting u val' hstate hsets hwinners hpcs hevents =>
          rw [if_neg (by rw [hstate]; decide)]
          exact (Inv.setting u val' hstate hsets hwinners hpcs hevents).record hout .panicked
            (.started hstate rfl)
      | set val' hstate hval hwinners hpcs hevents =>
          rw [if_neg (by rw [hstate]; decide)]
          exact (Inv.set val' hstate hval hwinners hpcs hevents).record hout .panicked
            (.late hstate fun _ _ => .initializedTwice)

omit [DecidableEq ι] in
/-- A thread that neither reads the value nor is outside sets it. -/
theorem Inv.setter (hs : Inv s) (ht : ¬ ((s.pc t).Outside ∨ s.pc t = .read)) :
    ∃ val, s.state = 1 ∧ Sets val (s.pc t) s.val ∧ s.winners = [val] ∧
      (∀ u, u ≠ t → (s.pc u).Outside) ∧ ∀ e ∈ s.events, e.Early ∨ e = .initializedTwice := by
  cases hs with
  | unset hstate hval hwinners hpcs hevents => exact absurd (.inl (hpcs t)) ht
  | setting u val hstate hsets hwinners hpcs hevents =>
      by_cases htu : t = u
      · subst htu
        exact ⟨val, hstate, hsets, hwinners, hpcs, hevents⟩
      · exact absurd (.inl (hpcs t htu)) ht
  | set val hstate hval hwinners hpcs hevents => exact absurd (hpcs t) ht

omit [DecidableEq ι] in
/-- A place that is neither outside nor before the value is read. -/
theorem not_outside_of_eq {pc : Pc α} (ht : s.pc t = pc) {val : α} {cell : Cell α}
    (h : Sets val pc cell) : ¬ ((s.pc t).Outside ∨ s.pc t = .read) := by
  rw [ht]
  exact h.not_outside

/-- **The thread that sets the value** goes on. -/
theorem inv_setting {val : α} {cell : Cell α} {pc : Pc α} (hstate : s.state = 1)
    (hwinners : s.winners = [val]) (hpcs : ∀ u, u ≠ t → (s.pc u).Outside)
    (hevents : ∀ e ∈ s.events, e.Early ∨ e = .initializedTwice) (h : Sets val pc cell) :
    Inv { s.goto t pc with val := cell } ∧ Adds s { s.goto t pc with val := cell } := by
  refine ⟨.setting t val hstate ?_ hwinners (fun u hu => ?_) hevents,
    adds_nil rfl id fun _ => rfl⟩
  · change Sets val ((s.goto t pc).pc t) cell
    rw [goto_pc, if_pos rfl]
    exact h
  · change ((s.goto t pc).pc u).Outside
    rw [goto_pc, if_neg hu]
    exact hpcs u hu

/-- **A step of a thread** does not fault. -/
theorem Inv.step (hs : Inv s) (t : ι) : ∃ s', s.step t = .ok s' ∧ Inv s' ∧ Adds s s' := by
  have hstay : Adds s s := adds_nil rfl id fun _ => rfl
  rw [State.step]
  cases ht : s.pc t with
  | idle => exact ⟨s, rfl, hs, hstay⟩
  | panicked => exact ⟨s, rfl, hs, hstay⟩
  | called call => exact ⟨_, rfl, hs.enter ht⟩
  | read =>
      have hout : (s.pc t).Outside ∨ s.pc t = .read := .inr ht
      have hnot : ¬ (s.pc t).Outside := by
        rw [ht]
        intro h
        cases h
      cases hs with
      | unset hstate hval hwinners hpcs hevents => exact absurd (hpcs t) hnot
      | setting u val hstate hsets hwinners hpcs hevents =>
          exact absurd (hpcs t (ne_of_sets hsets hout).symm) hnot
      | set val hstate hval hwinners hpcs hevents =>
          dsimp only
          rw [hval]
          refine ⟨_, rfl, (Inv.set val hstate hval hwinners hpcs hevents).record hout .idle
            (.late hstate fun val' hval' => ?_)⟩
          obtain rfl := Cell.written.inj (hval.symm.trans hval')
          exact .value
  | write val =>
      obtain ⟨val', hstate, hsets, hwinners, hpcs, hevents⟩ :=
        hs.setter (not_outside_of_eq ht .write)
      rw [ht] at hsets
      dsimp only
      generalize s.val = cell at hsets ⊢
      cases hsets with
      | write => exact ⟨_, rfl, inv_setting hstate hwinners hpcs hevents .writing⟩
  | writing val =>
      obtain ⟨val', hstate, hsets, hwinners, hpcs, hevents⟩ :=
        hs.setter (not_outside_of_eq ht .writing)
      rw [ht] at hsets
      dsimp only
      generalize s.val = cell at hsets ⊢
      cases hsets with
      | writing => exact ⟨_, rfl, inv_setting hstate hwinners hpcs hevents .store⟩
  | store =>
      have hnot : ¬ ((s.pc t).Outside ∨ s.pc t = .read) := by
        rw [ht]
        rintro (h | h)
        · cases h
        · cases h
      obtain ⟨val', hstate, hsets, hwinners, hpcs, hevents⟩ := hs.setter hnot
      rw [ht] at hsets
      have hval : s.val = .written val' := by
        generalize s.val = cell at hsets ⊢
        cases hsets with
        | store => rfl
      refine ⟨_, rfl, .set val' rfl hval hwinners (fun u => ?_) fun e he => ?_,
        adds_nil rfl (fun _ => rfl) fun _ => rfl⟩
      · change ((s.goto t .read).pc u).Outside ∨ (s.goto t .read).pc u = .read
        rw [goto_pc]
        by_cases hu : u = t
        · rw [if_pos hu]
          exact .inr rfl
        · rw [if_neg hu]
          exact .inl (hpcs u hu)
      · rcases hevents e he with he | rfl
        · exact .inl he
        · exact .inr .initializedTwice

/-- **An operation** keeps the invariant, and does not fault. -/
theorem Inv.perform (hs : Inv s) {op : Op ι α} (henabled : Enabled s op) :
    ∃ s', perform s op = .ok s' ∧ Inv s' ∧ Adds s s' := by
  cases op with
  | step t => exact hs.step t
  | call t call =>
      refine ⟨_, rfl, hs.goto (.inl ?_) (.inl (.called call))⟩
      have hidle : s.pc t = .idle := henabled
      rw [hidle]
      exact .idle

/-! ### Runs -/

omit [DecidableEq ι] in
/-- Events after events. -/
theorem Adds.trans {s'' : State ι α} (h : Adds s s') (h' : Adds s' s'') : Adds s s'' := by
  obtain ⟨es, hevents, hlate⟩ := h
  obtain ⟨es', hevents', hlate'⟩ := h'
  refine ⟨es ++ es', by rw [hevents', hevents, List.append_assoc], fun hstate => ?_⟩
  obtain ⟨hstate', hwinners, hlate⟩ := hlate hstate
  obtain ⟨hstate'', hwinners', hlate'⟩ := hlate' hstate'
  refine ⟨hstate'', hwinners'.trans hwinners, fun val hval => ?_⟩
  rw [List.forall_mem_append]
  exact ⟨hlate val hval, hlate' val (hwinners ▸ hval)⟩

/-- **A run** keeps the invariant. -/
theorem Inv.runs (hs : Inv s) {ops : List (Op ι α)} (h : Runs Step s ops s') :
    Inv s' ∧ Adds s s' := by
  refine h.invariant (P := fun u => Inv u ∧ Adds s u) ⟨hs, adds_nil rfl id fun _ => rfl⟩ ?_
  rintro u op u' ⟨hu, hadds⟩ ⟨henabled, hperform⟩
  obtain ⟨u'', hperform', hinv, hadds'⟩ := hu.perform henabled
  obtain rfl := Except.ok.inj (hperform'.symm.trans hperform)
  exact ⟨hinv, hadds.trans hadds'⟩

/-- The call showed that there is a value. -/
def Event.Shows (e : Event α) : Prop := e = .isInit true ∨ ∃ val, e = .value val

/-- What holds in a state. -/
structure Once (s : State ι α) : Prop where
  /-- No value is read before it is written, none is written over another. -/
  returns : ∀ op, Enabled s op → ∃ s', perform s op = .ok s'
  /-- At most one call of `set` gets past the exchange. -/
  winner : s.winners.length ≤ 1
  /-- Every value that a call returned is the one of this call of `set`. -/
  values : ∀ val, .value val ∈ s.events → s.winners = [val]
  /-- A call of `set` panics only if another one got past the exchange. -/
  panics : .initializedTwice ∈ s.events → s.winners ≠ []
  /-- Once a call showed that there is a value, all later ones do. -/
  later : (∃ e ∈ s.events, e.Shows) → ∀ ops s', Runs Step s ops s' →
    ∃ val es, s.winners = [val] ∧ s'.winners = [val] ∧ s'.events = s.events ++ es ∧
      ∀ e ∈ es, e.Late val

omit [DecidableEq ι] in
/-- The value is set if a call showed it. -/
theorem Inv.shown (hs : Inv s) {e : Event α} (he : e ∈ s.events) (hshows : e.Shows) :
    ∃ val, s.state = 2 ∧ s.winners = [val] ∧ e.Late val := by
  have hearly : ¬ e.Early := by
    rintro (_ | _ | _)
    all_goals
      obtain h | ⟨val, h⟩ := hshows
      · cases h
      · cases h
  cases hs with
  | unset hstate hval hwinners hpcs hevents => exact absurd (hevents e he) hearly
  | setting u val hstate hsets hwinners hpcs hevents =>
      rcases hevents e he with h | rfl
      · exact absurd h hearly
      · obtain h | ⟨val, h⟩ := hshows
        · cases h
        · cases h
  | set val hstate hval hwinners hpcs hevents =>
      exact ⟨val, hstate, hwinners, (hevents e he).resolve_left hearly⟩

/-- **The invariant** gives what holds in a state. -/
theorem Inv.once (hs : Inv s) : Once s := by
  constructor
  case returns =>
    intro op henabled
    obtain ⟨s', hperform, -⟩ := hs.perform henabled
    exact ⟨s', hperform⟩
  case winner =>
    cases hs with
    | unset hstate hval hwinners hpcs hevents => simp [hwinners]
    | setting u val hstate hsets hwinners hpcs hevents => simp [hwinners]
    | set val hstate hval hwinners hpcs hevents => simp [hwinners]
  case values =>
    intro val hval
    obtain ⟨val', -, hwinners, hlate⟩ := hs.shown hval (.inr ⟨val, rfl⟩)
    cases hlate with
    | value => exact hwinners
  case panics =>
    intro he
    cases hs with
    | unset hstate hval hwinners hpcs hevents => cases hevents _ he
    | setting u val hstate hsets hwinners hpcs hevents => simp [hwinners]
    | set val hstate hval hwinners hpcs hevents => simp [hwinners]
  case later =>
    rintro ⟨e, he, hshows⟩ ops s' hruns
    obtain ⟨val, hstate, hwinners, -⟩ := hs.shown he hshows
    obtain ⟨-, es, hevents, hlate⟩ := hs.runs hruns
    obtain ⟨-, hwinners', hlate⟩ := hlate hstate
    refine ⟨val, es, hwinners, hwinners'.trans hwinners, hevents, hlate val ?_⟩
    rw [hwinners]
    exact List.mem_singleton_self val

/-- **One-shot initialization**: however the steps of the threads are ordered, at most one call of
`set` gets past the exchange, and only then others panic, no value is read before it is written or
written twice, all calls return the value of this one call, and once a call returned it or
`is_init` was true, every call that ends later shows it as well. -/
theorem oneShot_once {s₀ s : State ι α} (h₀ : s₀ = .uninit ∨ ∃ val, s₀ = .new val)
    {ops : List (Op ι α)} (h : Runs Step s₀ ops s) : Once s := by
  have hinv : Inv s₀ := by
    rcases h₀ with rfl | ⟨val, rfl⟩
    · exact .unset rfl rfl rfl (fun _ => .idle) fun e he => absurd he List.not_mem_nil
    · exact .set val rfl rfl rfl (fun _ => .inl .idle) fun e he => absurd he List.not_mem_nil
  exact (hinv.runs h).1.once

/-- Two threads set a value, and one of them is in the middle of it when the other one asks for
it. -/
theorem oneShot_once_race :
    ∃ s : State Bool ℕ, Runs Step .uninit [.call true (.set 5), .call false (.set 6), .step true,
        .step false, .step true, .step true, .step true, .step true, .call true .get, .step true,
        .step true] s ∧
      s.winners = [5] ∧ s.events.length = 3 ∧ Once s := by
  have hrun : Runs Step (.uninit : State Bool ℕ) [.call true (.set 5), .call false (.set 6),
      .step true, .step false, .step true, .step true, .step true, .step true, .call true .get,
      .step true, .step true] _ :=
    .cons ⟨rfl, rfl⟩ (.cons ⟨rfl, rfl⟩ (.cons ⟨trivial, rfl⟩ (.cons ⟨trivial, rfl⟩
      (.cons ⟨trivial, rfl⟩ (.cons ⟨trivial, rfl⟩ (.cons ⟨trivial, rfl⟩ (.cons ⟨trivial, rfl⟩
        (.cons ⟨rfl, rfl⟩ (.cons ⟨trivial, rfl⟩ (.cons ⟨trivial, rfl⟩ .refl))))))))))
  exact ⟨_, hrun, rfl, rfl, oneShot_once (.inl rfl) hrun⟩

end HydroxKernel.OneShot
