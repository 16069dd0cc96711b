import HydroxKernel.Lib.Assert
import HydroxKernel.Sync.FutureInputs
import Mathlib.Algebra.Group.Nat.Defs

/-!
# `Future::all`

`all` makes a block whose value is a countdown of the futures that have not resolved yet. Since
callbacks run while others are still being attached, it begins with `usize::MAX`, from which the
callbacks count down, and is corrected once the number of futures is known. Whoever brings it to
zero resolves the block: the last callback, or the call of `all` itself.

## Main results

* `all_of_runs`: in every run, whatever the order in which the futures of the list are resolved,
  the returned future is resolved once, when all of them are, nothing underflows or is used after
  it was destroyed, and the block is destroyed once.
* `all_of_long_list`: for a list of `usize::MAX` futures or more, the call does not return.
-/

namespace HydroxKernel.Future.All

variable {V : Type}

/-- `usize::MAX`. -/
def usizeMax : ℕ := 2 ^ 64 - 1

/-- What the code must never do, or the panic for a list that is too long. -/
inductive Panic
  | fault (f : Fault)
  /-- "Iterator passed to Future::all is too long". -/
  | tooLong

/-! ### The countdown -/

/-- `Future::new`, and the countdown begins. The future is called 0. -/
def newOutput : Output :=
  ⟨{ State.newFuture 0 with wait := some ⟨2, 1, false, [], some (.orig usizeMax)⟩ }, Hist.new, 0⟩

/-- Reads the countdown. -/
def readCount (w : FutureWait ℕ) : Except Fault ℕ :=
  match w.val with
  | some x => .ok x.base
  | none => .error .uninit

/-- Subtraction of numbers of type `usize`. -/
def sub (a b : ℕ) : Except Fault ℕ := if b ≤ a then .ok (a - b) else .error .badCount

/-- A subtraction that does not underflow. -/
theorem sub_of_le {a b : ℕ} (h : b ≤ a) : sub a b = .ok (a - b) := if_pos h

/-- Writes the countdown. -/
def writeCount (o : Output) (w : FutureWait ℕ) (x : ℕ) : Output :=
  { o with state := o.state.put { w with val := some (.orig x) } }

/-- The callback that is attached to every future. -/
def callback (o : Output) : Except Fault Output := do
  let w ← o.state.deref
  let x ← readCount w
  if x = 1 then o.finishInternal w x
  else do
    let y ← sub x 1
    .ok (writeCount o w y)

/-- The correction of the countdown after the loop. -/
def correctCount (o : Output) (numFutures : ℕ) : Except Fault Output := do
  let w ← o.state.deref
  let x ← readCount w
  let d ← sub usizeMax numFutures
  let y ← sub x d
  if y = 0 then o.finishInternal { w with val := some (.orig y) } y
  else .ok (writeCount o w y)

/-! ### The call -/

/-- Where the call of `all` is: in the loop over the list or after it, before `without_val`,
before its future is dropped, or done. -/
inductive Stage
  | attach
  | withoutVal
  | drop
  | returned
  deriving DecidableEq

/-- A call of `all`, with its list and the block that it makes. `num_futures` is the number of
futures whose callbacks are attached. -/
structure System (V : Type) where
  inputs : Inputs V
  stage : Stage
  out : Output

/-- The next step of the call. The returned future is called 1. -/
def System.next (cl : Bool) (t : System V) : Except Panic (System V) :=
  match t.stage with
  | .attach =>
      match t.inputs.fs[t.inputs.next]? with
      | some (j, h) =>
          if t.inputs.next + 1 = usizeMax then .error .tooLong
          else do
            let x ← (t.inputs.register cl j h).mapError .fault
            .ok { t with inputs := x }
      | none => do
          let o ← (correctCount t.out t.inputs.next).mapError .fault
          .ok { t with out := o, stage := .withoutVal }
  | .withoutVal => do
      let (o, _) ← (t.out.use (.withoutVal 0 1)).mapError .fault
      .ok { t with out := o, stage := .drop }
  | .drop => do
      let (o, _) ← (t.out.use (.drop 0)).mapError .fault
      .ok { t with out := o, stage := .returned }
  | .returned => .ok t

/-- What can happen: others use a source, the callback of an input is run, the call goes on, or
its caller uses the returned future or another made from it. -/
inductive Action (V : Type)
  | source (j : ℕ) (op : Op V)
  | callback (i : ℕ)
  | next
  | use (op : Op ℕ)

/-- Performs an action. -/
def System.exec (cl : Bool) (t : System V) : Action V → Except Panic (System V)
  | .source j op => do
      let x ← (t.inputs.execSource cl j op).mapError .fault
      .ok { t with inputs := x }
  | .callback i => do
      let o ← (callback t.out).mapError .fault
      .ok { t with inputs := t.inputs.fire i, out := o }
  | .next => t.next cl
  | .use op => do
      let (o, _) ← (t.out.use op).mapError .fault
      .ok { t with out := o }

/-- When an action can happen: the loop does not go on before a callback that it runs itself. -/
def System.May (cl : Bool) (t : System V) : Action V → Prop
  | .source j op => t.inputs.MayExec cl j op
  | .callback i => t.inputs.Due i
  | .next => t.inputs.inCallback = none ∧ t.stage ≠ .returned
  | .use op => t.stage = .returned ∧ Permitted true t.out.state op ∧ op.target.isSome = true

/-- One step. -/
def Step (cl : Bool) (t : System V) (a : Action V) (u : System V) : Prop :=
  t.May cl a ∧ t.exec cl a = .ok u

/-- The call has made its block. -/
structure System.Start (cl : Bool) (t : System V) : Prop where
  inputs : t.inputs.Start cl
  stage : t.stage = .attach
  out : t.out = newOutput

/-! ### The invariant -/

/-- What the countdown shows. -/
def System.count (t : System V) : ℕ :=
  (if t.stage = .attach then usizeMax else t.inputs.fs.length) - t.inputs.fired.length

/-- The futures of the block, given by their names, while the call still needs them. -/
def Stage.Keeps : Stage → List ℕ → Prop
  | .attach, names => names = [0]
  | .withoutVal, names => names = [0]
  | .drop, names => 0 ∈ names
  | .returned, _ => True

/-- The invariant. -/
structure System.Ok (cl : Bool) (t : System V) : Prop where
  inputs : t.inputs.Ok cl
  short : t.inputs.next < usizeMax
  complete : t.stage ≠ .attach → t.inputs.next = t.inputs.fs.length
  out : t.out.Ok (some (.orig t.count)) 0
  resolved : t.out.hist.res.isSome = true ↔
    t.stage ≠ .attach ∧ t.inputs.fired.length = t.inputs.fs.length
  keeps : t.stage.Keeps t.out.state.names

section Ok

variable {cl : Bool} {t : System V} {i : ℕ}

/-- The new future is in order. -/
theorem newOutput_ok : newOutput.Ok (some (.orig usizeMax)) 0 := by
  refine ⟨⟨⟨rfl, by simp [newOutput, State.newFuture, unresolved, withVals,
    FutureInternal.isUnresolved, FutureInternal.isWithVal], Or.inl ⟨_, rfl, rfl, by simp, rfl, ?_⟩⟩,
    by simp [newOutput, State.newFuture, Settled],
    by simp [State.names, newOutput, State.newFuture],
    fun _ => ⟨rfl, rfl⟩, by simp [newOutput, Hist.new]⟩, rfl⟩
  exact ⟨rfl, rfl, by simp [newOutput, Hist.new], fun _ => ⟨rfl, rfl⟩,
    by simp [newOutput, Hist.new], by simp [newOutput, Hist.new], by simp⟩

/-- The invariant holds when the block was made. -/
theorem System.Start.ok (hs : t.Start cl) : t.Ok cl := by
  have hcount : t.count = usizeMax := by
    rw [System.count, if_pos hs.stage, hs.inputs.fired]
    rfl
  refine ⟨hs.inputs.ok, by rw [hs.inputs.next]; decide, fun h => absurd hs.stage h, ?_, ?_, ?_⟩
  · rw [hcount, hs.out]
    exact newOutput_ok
  · rw [hs.out, hs.stage]
    simp [newOutput, Hist.new]
  · rw [hs.stage, hs.out]
    rfl

/-- The countdown while a callback is due. -/
theorem System.Ok.count_of_due (ht : t.Ok cl) (hi : t.inputs.Due i) :
    t.out.hist.res = none ∧ 0 < t.count ∧
    (t.count = 1 ↔ t.stage ≠ .attach ∧ t.inputs.fired.length + 1 = t.inputs.fs.length) := by
  obtain ⟨hnext, -, hnot⟩ := ht.inputs.due_iff.mp hi
  have hlt := ht.inputs.length_fired_lt hnext hnot
  have hle := ht.inputs.le
  have hshort := ht.short
  refine ⟨?_, ?_⟩
  · rw [← Option.not_isSome_iff_eq_none, ht.resolved]
    rintro ⟨-, hlen⟩
    omega
  · rw [System.count]
    by_cases hstage : t.stage = .attach
    · rw [if_pos hstage]
      exact ⟨by omega, iff_of_false (by omega) fun h => h.1 hstage⟩
    · have hall := ht.complete hstage
      rw [if_neg hstage]
      exact ⟨by omega, fun h => ⟨hstage, by omega⟩, fun h => by omega⟩

/-- The block before the resolution. -/
theorem System.Ok.block (ht : t.Ok cl) (hres : t.out.hist.res = none) :
    ∃ w, t.out.state.wait = some w ∧ t.out.state.deref = .ok w ∧
      w.val = some (.orig t.count) ∧ readCount w = .ok t.count := by
  obtain ⟨w, hw, hderef, -, -, hval⟩ := ht.out.alive (by simp [hres])
  exact ⟨w, hw, hderef, hval hres, by rw [readCount, hval hres]; rfl⟩

/-- **A callback** counts down, and the last one resolves the block. -/
theorem System.Ok.callback (ht : t.Ok cl) (hi : t.inputs.Due i) :
    ∃ o, All.callback t.out = .ok o ∧
      ({ t with inputs := t.inputs.fire i, out := o } : System V).Ok cl := by
  obtain ⟨hres, hpos, hone⟩ := ht.count_of_due hi
  obtain ⟨w, hw, hderef, hval, hread⟩ := ht.block hres
  have hlength : (t.inputs.fire i).fired.length = t.inputs.fired.length + 1 := by
    simp [Inputs.fire]
  have hcount : ∀ o, ({ t with inputs := t.inputs.fire i, out := o } : System V).count =
      t.count - 1 := by
    intro o
    simp only [System.count, hlength]
    exact Nat.sub_add_eq _ _ 1
  by_cases hlast : t.count = 1
  · obtain ⟨o, hfin, ho, hres', hhandles⟩ := ht.out.finishInternal hres hw fun _ => hval
    refine ⟨o, ?_, ⟨ht.inputs.fire hi, ht.short, ht.complete, ?_, ?_, ?_⟩⟩
    · rw [hlast] at hread hfin
      simp only [All.callback, hderef, hread, ok_bind]
      exact hfin
    · exact ho.of_resolved (by rw [hres']; rfl) _
    · rw [hres', hlength]
      exact iff_of_true rfl (hone.mp hlast)
    · rw [State.names, hhandles]
      exact ht.keeps
  · refine ⟨writeCount t.out w (t.count - 1), ?_, ⟨ht.inputs.fire hi, ht.short, ht.complete,
      ?_, ?_, ht.keeps⟩⟩
    · simp only [All.callback, hderef, hread, ok_bind, if_neg hlast, sub_of_le hpos]
    · rw [hcount]
      exact ht.out.put_val hres hw _
    · rw [hlength]
      exact iff_of_false (by simp [hres, writeCount]) fun h => hlast (hone.mpr h)

/-- The list is gone through: the countdown is corrected. -/
theorem System.Ok.correctCount (ht : t.Ok cl) (hstage : t.stage = .attach)
    (hall : t.inputs.next = t.inputs.fs.length) :
    ∃ o, All.correctCount t.out t.inputs.next = .ok o ∧
      ({ t with out := o, stage := .withoutVal } : System V).Ok cl := by
  have hres : t.out.hist.res = none := by
    rw [← Option.not_isSome_iff_eq_none, ht.resolved]
    exact fun h => h.1 hstage
  obtain ⟨w, hw, hderef, hval, hread⟩ := ht.block hres
  have hle := ht.inputs.length_fired
  have hshort := ht.short
  have hold : t.count = usizeMax - t.inputs.fired.length := by rw [System.count, if_pos hstage]
  have hsub : sub usizeMax t.inputs.next = .ok (usizeMax - t.inputs.next) :=
    sub_of_le (Nat.le_of_lt hshort)
  have hsub' : sub t.count (usizeMax - t.inputs.next) =
      .ok (t.inputs.next - t.inputs.fired.length) := by
    rw [sub_of_le (by omega)]
    congr 1
    omega
  have hnames : t.out.state.names = [0] := by
    have hkeeps := ht.keeps
    rwa [hstage] at hkeeps
  by_cases hlast : t.inputs.next - t.inputs.fired.length = 0
  · obtain ⟨o, hfin, ho, hres', hhandles⟩ := ht.out.finishInternal hres hw
      (v := t.inputs.next - t.inputs.fired.length) fun _ => rfl
    refine ⟨o, ?_, ⟨ht.inputs, hshort, fun _ => hall, ?_, ?_, ?_⟩⟩
    · simp only [All.correctCount, hderef, hread, hsub, hsub', ok_bind, if_pos hlast]
      exact hfin
    · exact ho.of_resolved (by rw [hres']; rfl) _
    · rw [hres']
      refine iff_of_true rfl ⟨by simp, ?_⟩
      simp only
      omega
    · rw [State.names, hhandles]
      exact hnames
  · refine ⟨writeCount t.out w (t.inputs.next - t.inputs.fired.length), ?_,
      ⟨ht.inputs, hshort, fun _ => hall, ?_, ?_, hnames⟩⟩
    · simp only [All.correctCount, hderef, hread, hsub, hsub', ok_bind, if_neg hlast]
    · have hcount := ht.out.put_val hres hw (some (.orig (t.inputs.next - t.inputs.fired.length)))
      rw [hall] at hcount ⊢
      exact hcount
    · refine iff_of_false (by simp [hres, writeCount]) fun h => hlast ?_
      have := h.2
      simp only at this
      omega

/-- A step that concerns the inputs only. -/
theorem System.Ok.inputs_step (ht : t.Ok cl) {x : Inputs V} (hx : x.Ok cl)
    (hfs : x.fs = t.inputs.fs) (hfired : x.fired = t.inputs.fired) (hshort : x.next < usizeMax)
    (hcomplete : t.stage ≠ .attach → x.next = t.inputs.next) :
    ({ t with inputs := x } : System V).Ok cl := by
  refine ⟨hx, hshort, fun h => ?_, ?_, ?_, ht.keeps⟩
  · rw [hcomplete h, hfs]
    exact ht.complete h
  · rw [System.count, hfs, hfired]
    exact ht.out
  · rw [hfs, hfired]
    exact ht.resolved

/-- A step that uses a future of the block. -/
theorem System.Ok.out_step (ht : t.Ok cl) {o : Output} {st : Stage}
    (hst : st = .attach ↔ t.stage = .attach) (ho : o.Ok (some (.orig t.count)) 0)
    (hres : o.hist.res = t.out.hist.res) (hkeeps : st.Keeps o.state.names) :
    ({ t with out := o, stage := st } : System V).Ok cl := by
  refine ⟨ht.inputs, ht.short, fun h => ht.complete fun h' => h (hst.mpr h'), ?_, ?_, hkeeps⟩
  · simp only [System.count, hst]
    exact ho
  · rw [hres, ne_eq, hst]
    exact ht.resolved

/-- The loop goes on, if it has not come too far. -/
theorem System.Ok.attach (ht : t.Ok cl) (hs : t.stage = .attach) {e : ℕ × ℕ}
    (hf : t.inputs.fs[t.inputs.next]? = some e) (hlong : t.inputs.next + 1 ≠ usizeMax) :
    ∃ u, t.next cl = .ok u ∧ u.Ok cl ∧ u.inputs.fs = t.inputs.fs ∧ u.stage = .attach := by
  have hshort := ht.short
  obtain ⟨x, hreg, hx, hatt⟩ := ht.inputs.register (h := e.2) hf
  have hnext := hatt.next
  refine ⟨{ t with inputs := x }, ?_, ht.inputs_step hx hatt.fs hatt.fired (by omega)
    fun h => absurd hs h, hatt.fs, hs⟩
  simp only [System.next, hs, hf, if_neg hlong, hreg]
  rfl

/-- **The call goes on**, if the list is not too long. -/
theorem System.Ok.next (ht : t.Ok cl) (hlen : t.inputs.fs.length < usizeMax)
    (hstage : t.stage ≠ .returned) :
    ∃ u, t.next cl = .ok u ∧ u.Ok cl ∧ u.inputs.fs = t.inputs.fs := by
  have hkeeps := ht.keeps
  cases hs : t.stage with
  | attach =>
      cases hf : t.inputs.fs[t.inputs.next]? with
      | some e =>
          obtain ⟨hlt, -⟩ := List.getElem?_eq_some_iff.mp hf
          obtain ⟨u, hnext, hu, hfs, -⟩ := ht.attach hs hf (by omega)
          exact ⟨u, hnext, hu, hfs⟩
      | none =>
          have hall : t.inputs.next = t.inputs.fs.length :=
            Nat.le_antisymm ht.inputs.le (List.getElem?_eq_none_iff.mp hf)
          obtain ⟨o, hcorrect, ho⟩ := ht.correctCount hs hall
          refine ⟨_, ?_, ho, rfl⟩
          simp only [System.next, hs, hf, hcorrect]
          rfl
  | withoutVal =>
      rw [hs] at hkeeps
      have hnames : t.out.state.names = [0] := hkeeps
      have hperm : Permitted true t.out.state (.withoutVal 0 1) :=
        ⟨by simp [hnames], by simp [hnames]⟩
      obtain ⟨o, r, huse, ho, hused⟩ := ht.out.use hperm rfl
      refine ⟨{ t with out := o, stage := .drop }, ?_,
        ht.out_step (by simp [hs]) ho hused.res ?_, rfl⟩
      · simp only [System.next, hs, huse]
        rfl
      · exact Output.mem_names_withoutVal huse (by simp [hnames])
  | drop =>
      rw [hs] at hkeeps
      have hperm : Permitted true t.out.state (.drop 0) := hkeeps
      obtain ⟨o, r, huse, ho, hused⟩ := ht.out.use hperm rfl
      refine ⟨{ t with out := o, stage := .returned }, ?_,
        ht.out_step (by simp [hs]) ho hused.res trivial, rfl⟩
      simp only [System.next, hs, huse]
      rfl
  | returned => exact absurd hs hstage

/-- **Every step** that can happen succeeds and keeps the invariant. -/
theorem System.Ok.exec (ht : t.Ok cl) (hlen : t.inputs.fs.length < usizeMax) {a : Action V}
    (hp : t.May cl a) : ∃ u, t.exec cl a = .ok u ∧ u.Ok cl ∧ u.inputs.fs = t.inputs.fs := by
  cases a with
  | source j op =>
      obtain ⟨x, hexec, hx, hsame⟩ := ht.inputs.execSource hp
      refine ⟨{ t with inputs := x }, by simp only [System.exec, hexec]; rfl, ?_, hsame.fs⟩
      exact ht.inputs_step hx hsame.fs hsame.fired (hsame.next ▸ ht.short) fun _ => hsame.next
  | callback i =>
      obtain ⟨o, hcall, ho⟩ := ht.callback hp
      exact ⟨_, by simp only [System.exec, hcall]; rfl, ho, rfl⟩
  | next => exact ht.next hlen hp.2
  | use op =>
      obtain ⟨hstage, hperm, htarget⟩ := hp
      obtain ⟨o, r, huse, ho, hused⟩ := ht.out.use hperm htarget
      refine ⟨{ t with out := o }, by simp only [System.exec, huse]; rfl, ?_, rfl⟩
      refine ht.out_step Iff.rfl ho hused.res ?_
      rw [hstage]
      trivial

/-- Every step in the loop over a list that is too long stays in it, or panics. -/
theorem System.Ok.exec_of_long (ht : t.Ok cl) (hs : t.stage = .attach)
    (hlen : usizeMax ≤ t.inputs.fs.length) {a : Action V} (hp : t.May cl a) {u : System V}
    (hexec : t.exec cl a = .ok u) :
    u.Ok cl ∧ u.inputs.fs = t.inputs.fs ∧ u.stage = .attach := by
  have hshort := ht.short
  cases a with
  | source j op =>
      obtain ⟨x, hx, hok, hsame⟩ := ht.inputs.execSource hp
      simp only [System.exec, hx] at hexec
      cases hexec
      exact ⟨ht.inputs_step hok hsame.fs hsame.fired (hsame.next ▸ hshort) fun _ => hsame.next,
        hsame.fs, hs⟩
  | callback i =>
      obtain ⟨o, hcall, ho⟩ := ht.callback hp
      simp only [System.exec, hcall] at hexec
      cases hexec
      exact ⟨ho, rfl, hs⟩
  | next =>
      obtain ⟨e, hf⟩ : ∃ e, t.inputs.fs[t.inputs.next]? = some e :=
        ⟨_, List.getElem?_eq_getElem (by omega)⟩
      by_cases hlong : t.inputs.next + 1 = usizeMax
      · simp [System.exec, System.next, hs, hf, hlong] at hexec
      · obtain ⟨u', hnext, hu, hfs, hst⟩ := ht.attach hs hf hlong
        rw [System.exec, hnext] at hexec
        cases hexec
        exact ⟨hu, hfs, hst⟩
  | use op => exact absurd (hp.1.symm.trans hs) (by simp)

end Ok

/-! ### Runs -/

section Runs

variable {cl : Bool} {s t : System V} {acts : List (Action V)}

/-- The invariant holds in every state that a run reaches. -/
theorem ok_of_runs (hs : s.Start cl) (hlen : s.inputs.fs.length < usizeMax)
    (hrun : Runs (Step cl) s acts t) : t.Ok cl ∧ t.inputs.fs = s.inputs.fs := by
  refine hrun.invariant (P := fun t => t.Ok cl ∧ t.inputs.fs = s.inputs.fs) ⟨hs.ok, rfl⟩ ?_
  rintro t a u ⟨ht, hfs⟩ ⟨hp, hexec⟩
  obtain ⟨u', hexec', hu, hfs'⟩ := ht.exec (by rwa [hfs]) hp
  obtain rfl : u = u' := Except.ok.inj (hexec.symm.trans hexec')
  exact ⟨hu, hfs'.trans hfs⟩

/-- **`Future::all`.** In every run of a call with fewer than `usize::MAX` futures, in which others
use and resolve the sources of these and the caller the returned future as they like, no step
fails: the countdown does not underflow, and nothing is used after it was destroyed. The callback
of every future is run once, after the future was resolved. The returned future is resolved only
if all futures were, and it is resolved if all were and their callbacks have been run; that
happens once, and everybody who asks sees it. The block is destroyed once, when it was resolved and
no future refers to it. -/
theorem all_of_runs (hs : s.Start cl) (hlen : s.inputs.fs.length < usizeMax)
    (hrun : Runs (Step cl) s acts t) :
    (∀ a, t.May cl a → ∃ u, t.exec cl a = .ok u) ∧
    (t.inputs.fired.Nodup ∧
      ∀ i, i ∈ t.inputs.fired ↔ i < t.inputs.next ∧ t.inputs.Resolved i ∧ ¬ t.inputs.Due i) ∧
    (t.out.hist.res.isSome = true → ∀ i < s.inputs.fs.length, t.inputs.Resolved i) ∧
    (t.stage = .returned →
      (∀ i < s.inputs.fs.length, t.inputs.Resolved i ∧ ¬ t.inputs.Due i) →
      t.out.hist.res.isSome = true) ∧
    t.out.finished = t.out.hist.res.isSome.toNat ∧
    (∀ op h f, t.May cl (.use op) → op.target = some h → (h, f) ∈ t.out.state.handles →
      ∃ o r, t.out.use op = .ok (o, r) ∧ Expected t.out.hist.res f.hasVal op r) ∧
    (t.out.state.wait = none ↔
      t.out.hist.res.isSome = true ∧ unresolved t.out.state.handles = 0) ∧
    t.out.state.destroyed = t.out.state.wait.isNone.toNat := by
  obtain ⟨ht, hfs⟩ := ok_of_runs hs hlen hrun
  have hlen' : t.inputs.fs.length < usizeMax := by rwa [hfs]
  refine ⟨fun a hp => ?_, ⟨ht.inputs.firedNodup, fun i => ht.inputs.mem_fired_iff⟩,
    fun hres i hi => ?_, fun hst hall => ?_, ht.out.finished, fun op h f hp hop hf => ?_,
    ht.out.wait_eq_none_iff⟩
  · obtain ⟨u, hexec, -⟩ := ht.exec hlen' hp
    exact ⟨u, hexec⟩
  · obtain ⟨hst, hfired⟩ := ht.resolved.mp hres
    have hnext := ht.complete hst
    refine (ht.inputs.fired i ?_).2
    exact ht.inputs.length_fired_eq.mp (hfired.trans hnext.symm) i (by rw [hnext, hfs]; exact hi)
  · have hst' : t.stage ≠ .attach := by rw [hst]; simp
    have hnext := ht.complete hst'
    refine ht.resolved.mpr ⟨hst', ?_⟩
    rw [← hnext, ht.inputs.length_fired_eq]
    intro i hi
    obtain ⟨h1, h2⟩ := hall i (by rwa [hnext, hfs] at hi)
    exact ht.inputs.mem_fired_iff.mpr ⟨hi, h1, h2⟩
  · obtain ⟨-, hperm, htarget⟩ := hp
    obtain ⟨o, r, huse, -, hused⟩ := ht.out.use hperm htarget
    exact ⟨o, r, huse, hused.expected h f hop hf⟩

/-- A call with two pending futures. -/
def twoPending : System Unit :=
  ⟨⟨[(0, 0), (1, 0)], fun _ => (State.newFuture 0, Hist.new), 0, none, []⟩, .attach, newOutput⟩

/-- Such a call can begin. -/
theorem twoPending_start : twoPending.Start false where
  inputs := by
    refine ⟨rfl, rfl, rfl, by decide, ?_, fun j => ⟨_, [], ⟨rfl, Or.inl ⟨0, rfl⟩⟩, Runs.refl⟩,
      by simp [twoPending, Hist.new]⟩
    simp [twoPending, State.names, State.newFuture]
  stage := rfl
  out := rfl

/-- The first future is resolved in the loop, the second between `without_val` and the drop; then
the returned future is unwrapped. -/
theorem all_of_runs_twoPending :
    ∃ t, Runs (Step false) twoPending
        [.next, .source 0 (.finish ()), .callback 0, .next, .next, .next, .source 1 (.finish ()),
          .callback 1, .next, .use (.tryUnwrap 1)] t ∧
      t.out.finished = 1 ∧ t.out.state.destroyed = 1 := by
  have hfree : ∀ (t : System Unit) j, ((t.inputs.sources j).1.writer = true) →
      t.inputs.MayExec false j (.finish ()) :=
    fun t j h => ⟨h, by simp [Op.target], by simp [Op.callback]⟩
  have hrun : Runs (Step false) twoPending
      [.next, .source 0 (.finish ()), .callback 0, .next, .next, .next, .source 1 (.finish ()),
        .callback 1, .next, .use (.tryUnwrap 1)] _ :=
    Runs.cons ⟨⟨rfl, by simp [twoPending]⟩, rfl⟩
      (Runs.cons ⟨hfree _ 0 rfl, rfl⟩
        (Runs.cons ⟨⟨0, rfl, by decide⟩, rfl⟩
          (Runs.cons ⟨⟨rfl, by decide⟩, rfl⟩
            (Runs.cons ⟨⟨rfl, by decide⟩, rfl⟩
              (Runs.cons ⟨⟨rfl, by decide⟩, rfl⟩
                (Runs.cons ⟨hfree _ 1 rfl, rfl⟩
                  (Runs.cons ⟨⟨1, rfl, by decide⟩, rfl⟩
                    (Runs.cons ⟨⟨rfl, by decide⟩, rfl⟩
                      (Runs.cons ⟨⟨rfl, List.mem_cons_self, rfl⟩, rfl⟩ Runs.refl)))))))))
  have hall := all_of_runs twoPending_start (by decide) hrun
  exact ⟨_, hrun, hall.2.2.2.2.1, hall.2.2.2.2.2.2.2⟩

/-- **A list that is too long**: the call does not return, and nothing is resolved. -/
theorem all_of_long_list (hs : s.Start cl) (hlen : usizeMax ≤ s.inputs.fs.length)
    (hrun : Runs (Step cl) s acts t) : t.stage = .attach ∧ t.out.hist.res = none := by
  obtain ⟨ht, -, hst⟩ := hrun.invariant
    (P := fun t => t.Ok cl ∧ t.inputs.fs = s.inputs.fs ∧ t.stage = .attach)
    ⟨hs.ok, rfl, hs.stage⟩ <| by
      rintro t a u ⟨ht, hfs, hst⟩ ⟨hp, hexec⟩
      obtain ⟨hu, hfs', hst'⟩ := ht.exec_of_long hst (by rwa [hfs]) hp hexec
      exact ⟨hu, hfs'.trans hfs, hst'⟩
  refine ⟨hst, ?_⟩
  rw [← Option.not_isSome_iff_eq_none, ht.resolved]
  exact fun h => h.1 hst

/-- A source that was resolved before the call. -/
def resolvedSource : State Unit × Hist Unit :=
  (⟨some ⟨1, 1, true, [], some (.orig ())⟩, false, [(0, .withVal)], [], 0, 0⟩, ⟨some (), []⟩)

/-- A call with `n` futures that were resolved before. -/
def manyResolved (n : ℕ) : System Unit :=
  ⟨⟨(List.range n).map fun j => (j, 0), fun _ => resolvedSource, 0, none, []⟩, .attach, newOutput⟩

/-- Such a call can begin. -/
theorem manyResolved_start (n : ℕ) : (manyResolved n).Start false where
  inputs := by
    refine ⟨rfl, rfl, rfl, ?_, ?_, fun j => ⟨(State.newFuture 0, Hist.new), [.finish ()],
      ⟨rfl, Or.inl ⟨0, rfl⟩⟩, Runs.cons ⟨rfl, ⟨_, rfl⟩, rfl⟩ Runs.refl⟩, ?_⟩
    · exact List.nodup_range.map fun a b h => (Prod.mk.inj h).1
    · intro e he
      obtain ⟨j, -, rfl⟩ := List.mem_map.mp he
      exact List.mem_singleton.mpr rfl
    · intro j a ha
      exact absurd ha List.not_mem_nil
  stage := rfl
  out := rfl

/-- The futures of a list of `usize::MAX` are all resolved, but the call never returns a future
that could be. For the empty list, the block is destroyed while the returned future is there. -/
theorem all_limits :
    (∀ i < usizeMax, (manyResolved usizeMax).inputs.Resolved i) ∧
    (∀ acts t, Runs (Step false) (manyResolved usizeMax) acts t →
      t.stage ≠ .returned ∧ t.out.hist.res = none) ∧
    ∃ t, Runs (Step false) (manyResolved 0) [.next, .next, .next] t ∧
      t.stage = .returned ∧ t.out.state.destroyed = 1 ∧ t.out.state.handles.map Prod.fst = [1] := by
  refine ⟨fun i hi => ⟨i, ?_, rfl⟩, fun acts t hrun => ?_, ?_⟩
  · simp [Inputs.source, manyResolved, hi]
  · have hlen : (manyResolved usizeMax).inputs.fs.length = usizeMax := by simp [manyResolved]
    obtain ⟨hst, hres⟩ := all_of_long_list (manyResolved_start usizeMax) (Nat.le_of_eq hlen.symm)
      hrun
    exact ⟨by rw [hst]; simp, hres⟩
  · have hrun : Runs (Step false) (manyResolved 0) [.next, .next, .next] _ :=
      Runs.cons ⟨⟨rfl, by decide⟩, rfl⟩
        (Runs.cons ⟨⟨rfl, by decide⟩, rfl⟩ (Runs.cons ⟨⟨rfl, by decide⟩, rfl⟩ Runs.refl))
    exact ⟨_, hrun, rfl, rfl, rfl⟩

end Runs

end HydroxKernel.Future.All
