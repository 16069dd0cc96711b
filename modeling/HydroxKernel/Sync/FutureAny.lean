import HydroxKernel.Lib.Assert
import HydroxKernel.Sync.FutureInputs

/-!
# `Future::any`

`any` makes a block that the first callback resolves, with the position of its future. The block
is referred to by the returned future, by every callback that has not been run, and by the call
itself. These references are given back on different ways: by the first callback through
`finish_internal`, by the others through `dec_wait_ref`, and by the call through a plain decrement,
which does not look whether the reference was the last. Every callback that was not run takes up
memory, so that the number of references does not overflow; it is a natural number here.

## Main results

* `any_of_runs`: in every run, whatever the order in which the futures of the list are resolved,
  the returned future is resolved once, with the position of the first future whose callback was
  run, nothing underflows or is used after it was destroyed, and the block is destroyed once; for
  the empty list an error is returned and the block is destroyed.
-/

namespace HydroxKernel.Future.Any

variable {V : Type}

/-! ### The block -/

/-- `Future::new`. The future is called 0. -/
def newOutput : Output := ⟨State.newFuture 0, Hist.new, 0⟩

/-- The callback that is attached to the future at position `i`. -/
def callback (o : Output) (i : ℕ) : Except Fault Output := do
  let w ← o.state.deref
  if !w.resolved then o.finishInternal { w with val := some (.orig i) } i
  else do
    let s ← decWaitRef o.state w
    .ok { o with state := s }

/-- `wait_refs += 1`, for a callback. -/
def addRef (o : Output) : Except Fault Output := do
  let w ← o.state.deref
  .ok (o.putRefs w (w.waitRefs + 1))

/-- `wait_refs -= 1`, for the call. -/
def subRef (o : Output) : Except Fault Output := do
  let w ← o.state.deref
  match w.waitRefs with
  | 0 => .error .badCount
  | n + 1 => .ok (o.putRefs w n)

section Refs

variable {o : Output} {y : Option (Value ℕ)} {k : ℕ}

/-- One more reference to a block that somebody refers to. -/
theorem addRef_ok (ho : o.Ok y k)
    (hpos : 0 < unresolved o.state.handles + k + o.hist.res.isNone.toNat) :
    ∃ o', addRef o = .ok o' ∧ o'.Ok y (k + 1) ∧ o'.hist = o.hist ∧
      o'.state.handles = o.state.handles := by
  obtain ⟨w, hw, hderef, hwait, -⟩ := ho.alive hpos
  have hcount : w.waitRefs + 1 =
      unresolved o.state.handles + (k + 1) + o.hist.res.isNone.toNat := by omega
  refine ⟨o.putRefs w (w.waitRefs + 1), by rw [addRef, hderef]; rfl, ?_, rfl, rfl⟩
  rw [hcount]
  exact ho.putRefs hw (by omega)

/-- One reference less, if it is not the last. -/
theorem subRef_ok (ho : o.Ok y (k + 1))
    (hpos : 0 < unresolved o.state.handles + k + o.hist.res.isNone.toNat) :
    ∃ o', subRef o = .ok o' ∧ o'.Ok y k ∧ o'.hist = o.hist ∧
      o'.state.handles = o.state.handles := by
  obtain ⟨w, hw, hderef, hwait, -⟩ := ho.alive (by omega)
  have hcount : w.waitRefs =
      unresolved o.state.handles + k + o.hist.res.isNone.toNat + 1 := by omega
  exact ⟨_, by simp only [subRef, hderef, ok_bind, hcount], ho.putRefs hw hpos, rfl, rfl⟩

end Refs

/-! ### The call -/

/-- Where the call of `any` is: before the next future is taken from the list, before a callback is
attached to it, before the future is dropped since the list was empty, or done. -/
inductive Stage
  | next
  | attach (j h : ℕ)
  | drop
  | returned
  | err
  deriving DecidableEq

/-- A call of `any`, with its list and the block that it makes. -/
structure System (V : Type) where
  inputs : Inputs V
  stage : Stage
  out : Output

/-- The next step of the call. The future that it returns is the one called 0. -/
def System.next (cl : Bool) (t : System V) : Except Fault (System V) :=
  match t.stage with
  | .next =>
      match t.inputs.fs[t.inputs.next]? with
      | some (j, h) => do
          let o ← addRef t.out
          .ok { t with out := o, stage := .attach j h }
      | none => do
          let o ← subRef t.out
          .ok { t with out := o, stage := if t.inputs.next = 0 then .drop else .returned }
  | .attach j h => do
      let x ← t.inputs.register cl j h
      .ok { t with inputs := x, stage := .next }
  | .drop => do
      let (o, _) ← t.out.use (.drop 0)
      .ok { t with out := o, stage := .err }
  | .returned => .ok t
  | .err => .ok t

/-- What can happen: others use a source, the callback of an input is run, the call goes on, or
its caller uses the returned future or another made from it. -/
inductive Action (V : Type)
  | source (j : ℕ) (op : Op V)
  | callback (i : ℕ)
  | next
  | use (op : Op ℕ)

/-- Performs an action. -/
def System.exec (cl : Bool) (t : System V) : Action V → Except Fault (System V)
  | .source j op => do
      let x ← t.inputs.execSource cl j op
      .ok { t with inputs := x }
  | .callback i => do
      let o ← callback t.out i
      .ok { t with inputs := t.inputs.fire i, out := o }
  | .next => t.next cl
  | .use op => do
      let (o, _) ← t.out.use op
      .ok { t with out := o }

/-- When an action can happen: the loop does not go on before a callback that it runs itself. -/
def System.May (cl : Bool) (t : System V) : Action V → Prop
  | .source j op => t.inputs.MayExec cl j op
  | .callback i => t.inputs.Due i
  | .next => t.inputs.inCallback = none ∧ t.stage ≠ .returned ∧ t.stage ≠ .err
  | .use op => t.stage = .returned ∧ Permitted true t.out.state op ∧ op.target.isSome = true

/-- One step. -/
def Step (cl : Bool) (t : System V) (a : Action V) (u : System V) : Prop :=
  t.May cl a ∧ t.exec cl a = .ok u

/-- The call has made its block. -/
structure System.Start (cl : Bool) (t : System V) : Prop where
  inputs : t.inputs.Start cl
  stage : t.stage = .next
  out : t.out = newOutput

/-! ### The invariant -/

/-- The references that the call itself holds, one of them for the callback that it is about to
attach. -/
def Stage.refs : Stage → ℕ
  | .next => 1
  | .attach _ _ => 2
  | _ => 0

/-- The references to the block besides those of its futures: the call's own and one for every
callback that was attached and not run. -/
def System.others (t : System V) : ℕ :=
  t.stage.refs + (t.inputs.next - t.inputs.fired.length)

/-- Where the call is in the list, which is not empty. -/
def System.Fits (t : System V) : Prop :=
  match t.stage with
  | .next => True
  | .attach j h => t.inputs.fs[t.inputs.next]? = some (j, h)
  | .returned => t.inputs.next = t.inputs.fs.length
  | .drop => False
  | .err => False

/-- The invariant for a list that is not empty. -/
structure System.Ok (cl : Bool) (t : System V) : Prop where
  inputs : t.inputs.Ok cl
  nonempty : t.inputs.fs ≠ []
  fits : t.Fits
  res : t.out.hist.res = t.inputs.fired.head?
  refs : ∃ k, t.out.Ok none k ∧ k + t.out.hist.res.isNone.toNat = t.others
  keeps : t.stage ≠ .returned → t.out.state.handles = [(0, .withVal)]

section Ok

variable {cl : Bool} {t : System V} {i : ℕ}

/-- The new future is in order. -/
theorem newOutput_ok : newOutput.Ok none 0 := ⟨inv_newFuture true 0, rfl⟩

/-- The invariant holds when the block was made. -/
theorem System.Start.ok (hs : t.Start cl) (hne : t.inputs.fs ≠ []) : t.Ok cl where
  inputs := hs.inputs.ok
  nonempty := hne
  fits := by
    rw [System.Fits, hs.stage]
    trivial
  res := by
    rw [hs.out, hs.inputs.fired]
    rfl
  refs := by
    refine ⟨0, by rw [hs.out]; exact newOutput_ok, ?_⟩
    rw [System.others, hs.stage, hs.out, hs.inputs.next, hs.inputs.fired]
    rfl
  keeps _ := by
    rw [hs.out]
    rfl

/-- **A callback**: the first one resolves the block, every other gives back its reference. -/
theorem System.Ok.callback (ht : t.Ok cl) (hi : t.inputs.Due i) :
    ∃ o, Any.callback t.out i = .ok o ∧
      ({ t with inputs := t.inputs.fire i, out := o } : System V).Ok cl := by
  obtain ⟨hnext, -, hnot⟩ := ht.inputs.due_iff.mp hi
  have hlt := ht.inputs.length_fired_lt hnext hnot
  obtain ⟨k, ho, hk⟩ := ht.refs
  have hpos : 0 < t.others := by
    rw [System.others]
    omega
  have hothers : ∀ o m, m + 1 = t.others →
      m = ({ t with inputs := t.inputs.fire i, out := o } : System V).others := by
    intro o m hm
    simp only [System.others, Inputs.fire, List.length_append, List.length_singleton] at hm ⊢
    omega
  cases hres : t.out.hist.res with
  | none =>
      have hempty : t.inputs.fired = [] := List.head?_eq_none_iff.mp (ht.res.symm.trans hres)
      obtain ⟨w, hw, hderef, -, hresolved, -⟩ := ho.alive (by simp [hres])
      obtain ⟨o, hfin, ho', hres', hhandles⟩ :=
        ho.finishInternal hres hw (x := some (.orig i)) (v := i) fun _ => rfl
      refine ⟨o, ?_, ⟨ht.inputs.fire hi, ht.nonempty, ht.fits, ?_, ⟨k, ho', ?_⟩, fun h => ?_⟩⟩
      · rw [hres] at hresolved
        simp only [Any.callback, hderef, ok_bind, hresolved]
        exact hfin
      · rw [hres', Inputs.fire, hempty]
        rfl
      · refine hothers o _ ?_
        rw [hres] at hk
        rw [hres', ← hk]
        rfl
      · rw [hhandles]
        exact ht.keeps h
  | some v =>
      simp only [hres, Option.isNone_some, Bool.toNat_false, Nat.add_zero] at hk
      obtain ⟨k, rfl⟩ : ∃ k', k = k' + 1 := ⟨k - 1, by omega⟩
      obtain ⟨w, s, hderef, hdec, ho', hhandles, hresolved⟩ := ho.decWaitRef
      refine ⟨{ t.out with state := s }, ?_, ⟨ht.inputs.fire hi, ht.nonempty, ht.fits, ?_,
        ⟨k, ho', ?_⟩, fun h => ?_⟩⟩
      · rw [hres] at hresolved
        simp only [Any.callback, hderef, ok_bind, hresolved, hdec]
        rfl
      · have hhead : t.inputs.fired.head? = some v := ht.res.symm.trans hres
        simp only [Inputs.fire, List.head?_append, hhead]
        exact hres
      · refine hothers _ _ ?_
        simp only [hres, Option.isNone_some, Bool.toNat_false, Nat.add_zero]
        exact hk
      · simp only [hhandles]
        exact ht.keeps h

/-- A step that concerns the inputs only. -/
theorem System.Ok.inputs_step (ht : t.Ok cl) {x : Inputs V} {st : Stage} (hx : x.Ok cl)
    (hfs : x.fs = t.inputs.fs) (hfired : x.fired = t.inputs.fired)
    (hfits : ({ t with inputs := x, stage := st } : System V).Fits)
    (hothers : ({ t with inputs := x, stage := st } : System V).others = t.others)
    (hstage : st ≠ .returned → t.stage ≠ .returned) :
    ({ t with inputs := x, stage := st } : System V).Ok cl := by
  obtain ⟨k, ho, hk⟩ := ht.refs
  refine ⟨hx, ?_, hfits, ?_, ⟨k, ho, hk.trans hothers.symm⟩, fun h => ht.keeps (hstage h)⟩
  · rw [hfs]
    exact ht.nonempty
  · rw [hfired]
    exact ht.res

/-- A step that concerns the block only. -/
theorem System.Ok.out_step (ht : t.Ok cl) {o : Output} {st : Stage} {k : ℕ} (ho : o.Ok none k)
    (hres : o.hist.res = t.out.hist.res)
    (hfits : ({ t with out := o, stage := st } : System V).Fits)
    (hk : k + t.out.hist.res.isNone.toNat = ({ t with out := o, stage := st } : System V).others)
    (hkeeps : st ≠ .returned → o.state.handles = [(0, .withVal)]) :
    ({ t with out := o, stage := st } : System V).Ok cl := by
  refine ⟨ht.inputs, ht.nonempty, hfits, hres.trans ht.res, ⟨k, ho, ?_⟩, hkeeps⟩
  rw [hres]
  exact hk

/-- **The call goes on.** -/
theorem System.Ok.next (ht : t.Ok cl) (hstage : t.stage ≠ .returned)
    (hin : t.inputs.inCallback = none) :
    ∃ u, t.next cl = .ok u ∧ u.Ok cl ∧ t.inputs.Goes u.inputs := by
  have hfits := ht.fits
  have hfired := ht.inputs.length_fired
  have hkeeps := ht.keeps hstage
  obtain ⟨k, ho, hk⟩ := ht.refs
  rw [System.others] at hk
  cases hs : t.stage with
  | next =>
      rw [hs, Stage.refs] at hk
      cases hf : t.inputs.fs[t.inputs.next]? with
      | some e =>
          obtain ⟨o, hadd, ho', hhist, hhandles⟩ := addRef_ok ho (by omega)
          refine ⟨{ t with out := o, stage := .attach e.1 e.2 }, ?_,
            ht.out_step ho' (by rw [hhist]) hf ?_ fun _ => hhandles.trans hkeeps,
            .same (.refl _)⟩
          · simp only [System.next, hs, hf, hadd]
            rfl
          · simp only [System.others, Stage.refs]
            omega
      | none =>
          have hall : t.inputs.next = t.inputs.fs.length :=
            Nat.le_antisymm ht.inputs.le (List.getElem?_eq_none_iff.mp hf)
          have hpos : 0 < t.inputs.fs.length := List.length_pos_iff.mpr ht.nonempty
          have hone : unresolved t.out.state.handles = 1 := by rw [hkeeps]; rfl
          -- a callback that was not run, or the winner's resolution, keeps the block
          obtain ⟨k, rfl⟩ : ∃ k', k = k' + 1 := by
            refine ⟨k - 1, ?_⟩
            cases hres : t.out.hist.res with
            | none =>
                have hempty := List.head?_eq_none_iff.mp (ht.res.symm.trans hres)
                simp only [hres, hempty, List.length_nil, Option.isNone_none, Bool.toNat_true] at hk
                omega
            | some v =>
                simp only [hres, Option.isNone_some, Bool.toNat_false] at hk
                omega
          obtain ⟨o, hsub, ho', hhist, hhandles⟩ := subRef_ok ho (by omega)
          refine ⟨{ t with out := o, stage := .returned }, ?_,
            ht.out_step ho' (by rw [hhist]) hall ?_ fun h => absurd rfl h,
            .same (.refl _)⟩
          · simp only [System.next, hs, hf, hsub, ok_bind, if_neg (show t.inputs.next ≠ 0 by omega)]
          · simp only [System.others, Stage.refs]
            omega
  | attach j h =>
      rw [System.Fits, hs] at hfits
      obtain ⟨x, hreg, hx, hatt⟩ := ht.inputs.register hfits
      refine ⟨{ t with inputs := x, stage := .next }, by simp only [System.next, hs, hreg]; rfl,
        ht.inputs_step hx hatt.fs hatt.fired trivial ?_ fun _ => hstage, .attached hin hatt⟩
      simp only [System.others, hs, hatt.fired, hatt.next, Stage.refs]
      omega
  | drop =>
      rw [System.Fits, hs] at hfits
      exact hfits.elim
  | err =>
      rw [System.Fits, hs] at hfits
      exact hfits.elim
  | returned => exact absurd hs hstage

/-- **Every step** that can happen succeeds and keeps the invariant. -/
theorem System.Ok.exec (ht : t.Ok cl) {a : Action V} (hp : t.May cl a) :
    ∃ u, t.exec cl a = .ok u ∧ u.Ok cl ∧ t.inputs.Goes u.inputs := by
  cases a with
  | source j op =>
      obtain ⟨x, hexec, hx, hsame⟩ := ht.inputs.execSource hp
      refine ⟨{ t with inputs := x }, by simp only [System.exec, hexec]; rfl, ?_, .same hsame⟩
      refine ht.inputs_step hx hsame.fs hsame.fired ?_ ?_ id
      · have hfits := ht.fits
        rw [System.Fits] at hfits ⊢
        rwa [hsame.fs, hsame.next]
      · rw [System.others, hsame.fired, hsame.next]
        rfl
  | callback i =>
      obtain ⟨o, hcall, ho⟩ := ht.callback hp
      exact ⟨_, by simp only [System.exec, hcall]; rfl, ho, .fired i hp rfl⟩
  | next => exact ht.next hp.2.1 hp.1
  | use op =>
      obtain ⟨hstage, hperm, htarget⟩ := hp
      obtain ⟨k, ho, hk⟩ := ht.refs
      obtain ⟨o, r, huse, ho', hused⟩ := ho.use hperm htarget
      exact ⟨{ t with out := o }, by simp only [System.exec, huse]; rfl,
        ht.out_step ho' hused.res ht.fits hk fun h => absurd hstage h, .same (.refl _)⟩

/-! ### Who is first -/

/-- The futures in `R`, which were resolved before the call: each is waited for by the loop, or
its callback or that of an earlier one was the first to be run, as soon as one is attached. -/
structure First (R : ℕ → Prop) (x : Inputs V) : Prop where
  resolved : ∀ i, R i → x.Resolved i
  first : ∀ i, R i → i < x.next →
    x.inCallback = some i ∨ ∃ r, x.fired.head? = some r ∧ r ≤ i

/-- What was the first to be run stays so. -/
theorem head?_extend {l l' : List ℕ} (h : l <+: l') {r : ℕ} (hr : l.head? = some r) :
    l'.head? = some r := by
  obtain ⟨l'', rfl⟩ := h
  rw [List.head?_append, hr]
  rfl

/-- One step. -/
theorem First.goes {R : ℕ → Prop} {x y : Inputs V} (hR : First R x) (hx : x.Ok cl)
    (h : x.Goes y) : First R y := by
  cases h with
  | same h =>
      refine ⟨fun i hi => h.resolved i (hR.resolved i hi), fun i hi hlt => ?_⟩
      rw [h.inCallback, h.fired]
      exact hR.first i hi (h.next ▸ hlt)
  | attached hin h =>
      refine ⟨fun i hi => h.resolved i (hR.resolved i hi), fun i hi hlt => ?_⟩
      rw [h.next] at hlt
      rcases Nat.lt_succ_iff_lt_or_eq.mp hlt with hlt | rfl
      · rw [h.fired]
        rcases hR.first i hi hlt with hcall | hfirst
        · rw [hin] at hcall
          cases hcall
        · exact Or.inr hfirst
      · exact Or.inl (h.inCallback (hR.resolved _ hi))
  | fired c hc h =>
      subst h
      obtain ⟨hnext, -, -⟩ := hx.due_iff.mp hc
      refine ⟨hR.resolved, fun i hi hlt => ?_⟩
      rcases hR.first i hi hlt with hcall | ⟨r, hr, hle⟩
      · -- nothing after the input that the loop waits for has its callback attached
        have hlast := (hx.inCallback i hcall).1
        cases hhead : x.fired.head? with
        | none =>
            have hempty := List.head?_eq_none_iff.mp hhead
            refine Or.inr ⟨c, ?_, by omega⟩
            rw [Inputs.fire, hempty]
            rfl
        | some r =>
            have hlt' := (hx.fired r (List.mem_of_head? hhead)).1
            exact Or.inr ⟨r, head?_extend (List.prefix_append _ _) hhead, by omega⟩
      · exact Or.inr ⟨r, head?_extend (List.prefix_append _ _) hr, hle⟩

/-! ### The empty list -/

/-- The states of a call with the empty list. -/
structure Empty (cl : Bool) (t : System V) : Prop where
  inputs : t.inputs.Ok cl
  fs : t.inputs.fs = []
  out : (t.stage = .next ∧ t.out = newOutput) ∨
    (t.stage = .drop ∧ t.out = newOutput.putRefs ⟨2, 1, false, [], none⟩ 1) ∨
    (t.stage = .err ∧ t.out.state.wait = none ∧ t.out.state.destroyed = 1 ∧
      t.out.state.handles = [])

/-- Without a callback and without the call, the future is the last to refer to the block. -/
theorem use_drop : ∃ o r, (newOutput.putRefs ⟨2, 1, false, [], none⟩ 1).use (.drop 0) = .ok (o, r) ∧
    o.state.wait = none ∧ o.state.destroyed = 1 ∧ o.state.handles = [] :=
  ⟨_, _, rfl, rfl, rfl, rfl⟩

/-- Every step of a call with the empty list succeeds. -/
theorem Empty.exec (ht : Empty cl t) {a : Action V} (hp : t.May cl a) :
    ∃ u, t.exec cl a = .ok u ∧ Empty cl u := by
  have hnext : t.inputs.next = 0 := by
    have := ht.inputs.le
    rw [ht.fs] at this
    exact Nat.le_zero.mp this
  cases a with
  | source j op =>
      obtain ⟨x, hexec, hx, hsame⟩ := ht.inputs.execSource hp
      exact ⟨{ t with inputs := x }, by simp only [System.exec, hexec]; rfl, hx,
        hsame.fs.trans ht.fs, ht.out⟩
  | callback i =>
      have := (ht.inputs.due_iff.mp hp).1
      omega
  | next =>
      rcases ht.out with ⟨hs, ho⟩ | ⟨hs, ho⟩ | ⟨hs, -⟩
      · refine ⟨{ t with out := newOutput.putRefs ⟨2, 1, false, [], none⟩ 1, stage := .drop }, ?_,
          ht.inputs, ht.fs, Or.inr (Or.inl ⟨rfl, rfl⟩)⟩
        simp only [System.exec, System.next, hs, ho, hnext, ht.fs]
        rfl
      · obtain ⟨o, r, huse, hgone⟩ := use_drop
        exact ⟨{ t with out := o, stage := .err },
          by simp only [System.exec, System.next, hs, ho, huse]; rfl, ht.inputs, ht.fs,
          Or.inr (Or.inr ⟨rfl, hgone⟩)⟩
      · exact absurd hs hp.2.2
  | use op =>
      have hs := hp.1
      rcases ht.out with ⟨hs', -⟩ | ⟨hs', -⟩ | ⟨hs', -⟩ <;> simp [hs'] at hs

end Ok

/-! ### Runs -/

section Runs

variable {cl : Bool} {s t : System V} {acts : List (Action V)}

/-- The invariant holds in every state that a run reaches. -/
theorem ok_of_runs (hs : s.Start cl) (hne : s.inputs.fs ≠ []) (hrun : Runs (Step cl) s acts t) :
    t.Ok cl ∧ t.inputs.fs = s.inputs.fs ∧ First s.inputs.Resolved t.inputs := by
  refine hrun.invariant (P := fun t => t.Ok cl ∧ t.inputs.fs = s.inputs.fs ∧
    First s.inputs.Resolved t.inputs) ⟨hs.ok hne, rfl, fun i hi => hi, fun i _ hlt => ?_⟩ ?_
  · rw [hs.inputs.next] at hlt
    exact absurd hlt (Nat.not_lt_zero i)
  · rintro t a u ⟨ht, hfs, hfirst⟩ ⟨hp, hexec⟩
    obtain ⟨u', hexec', hu, hgoes⟩ := ht.exec hp
    obtain rfl : u = u' := Except.ok.inj (hexec.symm.trans hexec')
    exact ⟨hu, hgoes.fs.trans hfs, hfirst.goes ht.inputs hgoes⟩

/-- What the returned future is resolved to does not change. -/
theorem System.Ok.res_of_runs (ht : t.Ok cl) {r : ℕ} (hr : t.out.hist.res = some r)
    {u : System V} (hrun : Runs (Step cl) t acts u) : u.out.hist.res = some r := by
  have hall : u.Ok cl ∧ u.out.hist.res = some r := by
    refine hrun.invariant (P := fun u => u.Ok cl ∧ u.out.hist.res = some r) ⟨ht, hr⟩ ?_
    rintro u a u' ⟨hu, hru⟩ ⟨hp, hexec⟩
    obtain ⟨u'', hexec', hu', hgoes⟩ := hu.exec hp
    obtain rfl : u' = u'' := Except.ok.inj (hexec.symm.trans hexec')
    exact ⟨hu', hu'.res.trans (head?_extend hgoes.prefix_fired (hu.res.symm.trans hru))⟩
  exact hall.2

/-- The states of a call with the empty list. -/
theorem empty_of_runs (hs : s.Start cl) (hempty : s.inputs.fs = [])
    (hrun : Runs (Step cl) s acts t) : Empty cl t := by
  refine hrun.invariant ⟨hs.inputs.ok, hempty, Or.inl ⟨hs.stage, hs.out⟩⟩ ?_
  rintro t a u ht ⟨hp, hexec⟩
  obtain ⟨u', hexec', hu⟩ := ht.exec hp
  obtain rfl : u = u' := Except.ok.inj (hexec.symm.trans hexec')
  exact hu

/-- The block is destroyed when the call has returned and no future and no callback is left. -/
theorem System.Ok.wait_eq_none_iff (ht : t.Ok cl) :
    (t.out.state.wait = none ↔ t.stage = .returned ∧ unresolved t.out.state.handles = 0 ∧
      ∀ i < t.inputs.fs.length, i ∈ t.inputs.fired) ∧
    t.out.state.destroyed = t.out.state.wait.isNone.toNat := by
  obtain ⟨k, ho, hk⟩ := ht.refs
  obtain ⟨hwait, hdestroyed⟩ := ho.wait_eq_none_iff
  have hfits := ht.fits
  have hle := ht.inputs.length_fired
  rw [System.others] at hk
  refine ⟨hwait.trans ⟨fun ⟨hres, hu⟩ => ?_, fun ⟨hst, hu, hall⟩ => ?_⟩, hdestroyed⟩
  · obtain ⟨v, hv⟩ := Option.isSome_iff_exists.mp hres
    simp only [hv, Option.isNone_some, Bool.toNat_false] at hk
    have hst : t.stage = .returned := by
      rw [System.Fits] at hfits
      cases hs : t.stage with
      | next =>
          rw [hs, Stage.refs] at hk
          omega
      | attach j h =>
          rw [hs, Stage.refs] at hk
          omega
      | returned => rfl
      | drop =>
          rw [hs] at hfits
          exact hfits.elim
      | err =>
          rw [hs] at hfits
          exact hfits.elim
    rw [System.Fits, hst] at hfits
    have hnext : t.inputs.next = t.inputs.fs.length := hfits
    refine ⟨hst, by omega, fun i hi => ?_⟩
    exact ht.inputs.length_fired_eq.mp (by omega) i (hnext ▸ hi)
  · rw [System.Fits, hst] at hfits
    have hnext : t.inputs.next = t.inputs.fs.length := hfits
    have hlen : t.inputs.fired.length = t.inputs.next :=
      ht.inputs.length_fired_eq.mpr fun i hi => hall i (hnext ▸ hi)
    have hpos : 0 < t.inputs.fs.length := List.length_pos_iff.mpr ht.nonempty
    obtain ⟨v, hv⟩ : ∃ v, t.out.hist.res = some v := by
      rw [ht.res, ← Option.isSome_iff_exists, List.isSome_head?]
      intro hnil
      rw [hnil, List.length_nil] at hlen
      omega
    simp only [hst, hv, hlen, Stage.refs, Option.isNone_some, Bool.toNat_false] at hk
    exact ⟨by rw [hv]; rfl, by omega⟩

/-- **`Future::any`.** In every run of a call, in which others use and resolve the sources of the
futures and the caller the returned future as they like, no step fails: the number of references
does not underflow, and the block is not used after it was destroyed. For a list that is not
empty, the callback of every future is run once, after the future was resolved. The returned future
is resolved once, with the position of the future whose callback was run first, which comes not
after those that were resolved before the call; that stays so, and everybody who asks gets it. The
references are those of the futures, of the callbacks that were not run, and the call's own, and
the block is destroyed once, when none of these is left. For the empty list, the call returns an
error, and then nothing is left of the block. -/
theorem any_of_runs (hs : s.Start cl) (hrun : Runs (Step cl) s acts t) :
    (∀ a, t.May cl a → ∃ u, t.exec cl a = .ok u) ∧
    (s.inputs.fs ≠ [] →
      (t.inputs.fired.Nodup ∧
        ∀ i, i ∈ t.inputs.fired ↔
          i < t.inputs.next ∧ t.inputs.Resolved i ∧ ¬ t.inputs.Due i) ∧
      t.out.hist.res = t.inputs.fired.head? ∧
      t.out.finished = t.out.hist.res.isSome.toNat ∧
      (∀ r, t.out.hist.res = some r → (∀ i, s.inputs.Resolved i → r ≤ i) ∧
        ∀ acts' u, Runs (Step cl) t acts' u → u.out.hist.res = some r) ∧
      (∀ op h f, t.May cl (.use op) → op.target = some h → (h, f) ∈ t.out.state.handles →
        ∃ o r, t.out.use op = .ok (o, r) ∧ Expected t.out.hist.res f.hasVal op r) ∧
      (∀ w, t.out.state.wait = some w →
        w.waitRefs = unresolved t.out.state.handles + t.others) ∧
      (t.out.state.wait = none ↔ t.stage = .returned ∧ unresolved t.out.state.handles = 0 ∧
        ∀ i < s.inputs.fs.length, i ∈ t.inputs.fired) ∧
      t.out.state.destroyed = t.out.state.wait.isNone.toNat) ∧
    (s.inputs.fs = [] →
      (t.stage = .next ∨ t.stage = .drop ∨ t.stage = .err) ∧
      (t.stage = .err → t.out.state.wait = none ∧ t.out.state.destroyed = 1 ∧
        t.out.state.handles = [])) := by
  by_cases hne : s.inputs.fs = []
  · have ht := empty_of_runs hs hne hrun
    refine ⟨fun a hp => ?_, fun h => absurd hne h, fun _ => ?_⟩
    · obtain ⟨u, hexec, -⟩ := ht.exec hp
      exact ⟨u, hexec⟩
    · rcases ht.out with ⟨hst, -⟩ | ⟨hst, -⟩ | ⟨hst, hgone⟩
      · exact ⟨Or.inl hst, fun h => by simp [hst] at h⟩
      · exact ⟨Or.inr (Or.inl hst), fun h => by simp [hst] at h⟩
      · exact ⟨Or.inr (Or.inr hst), fun _ => hgone⟩
  · obtain ⟨ht, hfs, hfirst⟩ := ok_of_runs hs hne hrun
    obtain ⟨k, ho, hk⟩ := ht.refs
    refine ⟨fun a hp => ?_, fun _ => ⟨⟨ht.inputs.firedNodup, fun i => ht.inputs.mem_fired_iff⟩,
      ht.res, ho.finished, fun r hr => ⟨fun i hi => ?_, fun acts' u => ht.res_of_runs hr⟩,
      fun op h f hp hop hf => ?_, fun w hw => ?_, hfs ▸ ht.wait_eq_none_iff⟩,
      fun h => absurd h hne⟩
    · obtain ⟨u, hexec, -⟩ := ht.exec hp
      exact ⟨u, hexec⟩
    · have hhead : t.inputs.fired.head? = some r := ht.res.symm.trans hr
      have hlt := (ht.inputs.fired r (List.mem_of_head? hhead)).1
      by_cases hi' : i < t.inputs.next
      · rcases hfirst.first i hi hi' with hcall | ⟨r', hr', hle⟩
        · have := (ht.inputs.inCallback i hcall).1
          omega
        · obtain rfl := Option.some.inj (hr'.symm.trans hhead)
          exact hle
      · omega
    · obtain ⟨-, hperm, htarget⟩ := hp
      obtain ⟨o, r, huse, -, hused⟩ := ho.use hperm htarget
      exact ⟨o, r, huse, hused.expected h f hop hf⟩
    · rcases ho.held.refs.block with ⟨w', hw', -, -, hwait, -⟩ | ⟨hgone, -⟩
      · obtain rfl : w = w' := Option.some.inj (hw.symm.trans hw')
        omega
      · simp [hw] at hgone

/-- A call with two pending futures. -/
def twoPending : System Unit :=
  ⟨⟨[(0, 0), (1, 0)], fun _ => (State.newFuture 0, Hist.new), 0, none, []⟩, .next, newOutput⟩

/-- The second future is resolved and its position unwrapped before the first is resolved. -/
theorem any_of_runs_twoPending :
    ∃ t, Runs (Step false) twoPending
        [.next, .next, .next, .next, .next, .source 1 (.finish ()), .callback 1,
          .use (.tryUnwrap 0), .source 0 (.finish ()), .callback 0] t ∧
      t.out.hist.res = some 1 ∧ t.out.finished = 1 ∧ t.out.state.destroyed = 1 := by
  have hstart : twoPending.Start false := by
    refine ⟨⟨rfl, rfl, rfl, by decide, ?_, fun j => ⟨_, [], ⟨rfl, Or.inl ⟨0, rfl⟩⟩, Runs.refl⟩,
      by simp [twoPending, Hist.new]⟩, rfl, rfl⟩
    simp [twoPending, State.names, State.newFuture]
  have hfree : ∀ (t : System Unit) j, ((t.inputs.sources j).1.writer = true) →
      t.inputs.MayExec false j (.finish ()) :=
    fun t j h => ⟨h, by simp [Op.target], by simp [Op.callback]⟩
  have hrun : Runs (Step false) twoPending
      [.next, .next, .next, .next, .next, .source 1 (.finish ()), .callback 1,
        .use (.tryUnwrap 0), .source 0 (.finish ()), .callback 0] _ :=
    Runs.cons ⟨⟨rfl, by decide, by decide⟩, rfl⟩
      (Runs.cons ⟨⟨rfl, by decide, by decide⟩, rfl⟩
        (Runs.cons ⟨⟨rfl, by decide, by decide⟩, rfl⟩
          (Runs.cons ⟨⟨rfl, by decide, by decide⟩, rfl⟩
            (Runs.cons ⟨⟨rfl, by decide, by decide⟩, rfl⟩
              (Runs.cons ⟨hfree _ 1 rfl, rfl⟩
                (Runs.cons ⟨⟨1, rfl, by decide⟩, rfl⟩
                  (Runs.cons ⟨⟨rfl, List.mem_cons_self, rfl⟩, rfl⟩
                    (Runs.cons ⟨hfree _ 0 rfl, rfl⟩
                      (Runs.cons ⟨⟨0, rfl, by decide⟩, rfl⟩ Runs.refl)))))))))
  have hany := (any_of_runs hstart hrun).2.1 (by simp [twoPending])
  exact ⟨_, hrun, hany.2.1, hany.2.2.1, hany.2.2.2.2.2.2.2⟩

end Runs

end HydroxKernel.Future.Any
