import Mathlib.Logic.Function.Basic
import HydroxKernel.Sync.FutureRefs

/-!
# Combined Futures: Inputs and Output

`all` and `any` attach a callback to every future of a list, and make a block of their own that
the callbacks resolve. This is what the two have in common. Each input is a future of some
block, its *source*, which others go on using as they like; several inputs may be clones of one
another, and one made by `Future::done` counts as a future of a block that is gone. A source
calls a callback under its own lock or, when the source was already resolved, the loop over the
list calls it itself; what the callback then does, it does under the lock of the new block, so
that between the two others may come first.

## Main results

* `Inputs.Ok.mem_fired_iff`: the callback of an input is run once, after it was attached and
  its source was resolved, and no later than the call of it returns.
* `Output.Ok.use` and `Output.Ok.finishInternal`: the operations on the new block, with further
  references to it.
-/

namespace HydroxKernel.Future

variable {V : Type*}

/-! ### Inputs -/

/-- The futures given to `all` or `any`, by source and name, and the sources. The first `next`
of them have their callbacks attached, `inCallback` is the one whose callback the loop itself is
about to run, and `fired` are those whose callbacks have been run, in this order. The callback of
an input has the position of the input for its name. -/
structure Inputs (V : Type*) where
  fs : List (ℕ × ℕ)
  sources : ℕ → State V × Hist V
  next : ℕ
  inCallback : Option ℕ
  fired : List ℕ

/-- Writes a source. -/
def Inputs.put (x : Inputs V) (j : ℕ) (t : State V × Hist V) : Inputs V :=
  { x with sources := Function.update x.sources j t }

/-- Performs an operation on a source. -/
def Inputs.execSource (cl : Bool) (x : Inputs V) (j : ℕ) (op : Op V) :
    Except Fault (Inputs V) := do
  let (s, _) ← exec cl (x.sources j).1 op
  .ok (x.put j (s, (x.sources j).2.record (x.sources j).1 op))

/-- The callbacks that a source has called. -/
def Inputs.called (x : Inputs V) (j : ℕ) : List ℕ := (x.sources j).1.log.map Prod.fst

/-- `f.when_resolved(callback)` on the next input, the future `h` of the source `j`. -/
def Inputs.register (cl : Bool) (x : Inputs V) (j h : ℕ) : Except Fault (Inputs V) := do
  let y ← x.execSource cl j (.whenResolved h x.next)
  .ok { y with
    next := x.next + 1
    inCallback := if (x.called j).length < (y.called j).length then some x.next else none }

/-- Runs the callback of an input. -/
def Inputs.fire (x : Inputs V) (i : ℕ) : Inputs V :=
  { x with
    fired := x.fired ++ [i]
    inCallback := if x.inCallback = some i then none else x.inCallback }

/-- The source of an input. -/
def Inputs.source (x : Inputs V) (i : ℕ) : Option ℕ := x.fs[i]?.map Prod.fst

/-- An input has been resolved. -/
def Inputs.Resolved (x : Inputs V) (i : ℕ) : Prop :=
  ∃ j, x.source i = some j ∧ (x.sources j).2.res.isSome = true

/-- The callback of an input has been called more often than it has been run. -/
def Inputs.Due (x : Inputs V) (i : ℕ) : Prop :=
  ∃ j, x.source i = some j ∧ x.fired.count i < (x.called j).count i

/-- The callback that an operation attaches. -/
def Op.callback : Op V → Option ℕ
  | .whenResolved _ c => some c
  | _ => none

/-- What others may do with a source: they do not own the inputs that are still in the list, and
their callbacks are not those of the inputs. -/
structure Inputs.MayExec (cl : Bool) (x : Inputs V) (j : ℕ) (op : Op V) : Prop where
  permitted : Permitted cl (x.sources j).1 op
  owner : ∀ h, op.target = some h → (j, h) ∉ x.fs.drop x.next
  callback : ∀ c, op.callback = some c → x.fs.length ≤ c

/-- The list is about to be gone through. Its futures are live and different from one another;
what has happened to their sources is arbitrary. -/
structure Inputs.Start (cl : Bool) (x : Inputs V) : Prop where
  next : x.next = 0
  inCallback : x.inCallback = none
  fired : x.fired = []
  nodup : x.fs.Nodup
  live : ∀ e ∈ x.fs, e.2 ∈ (x.sources e.1).1.names
  reached : ∀ j, ∃ s ops, Initial s ∧ Runs (Step cl) s ops (x.sources j)
  callbacks : ∀ j, ∀ a ∈ (x.sources j).2.attached, x.fs.length ≤ a.1

/-- How often the callback of input `i` is attached to the source `j`. -/
def Inputs.attachedTo (x : Inputs V) (i j : ℕ) : ℕ :=
  if i < x.next ∧ x.source i = some j then 1 else 0

/-- The invariant of the inputs. -/
structure Inputs.Ok (cl : Bool) (x : Inputs V) : Prop where
  sources : ∀ j, Inv cl (x.sources j).1 (x.sources j).2
  le : x.next ≤ x.fs.length
  nodup : (x.fs.drop x.next).Nodup
  live : ∀ e ∈ x.fs.drop x.next, e.2 ∈ (x.sources e.1).1.names
  attached : ∀ i j, i < x.fs.length →
    ((x.sources j).2.attached.map Prod.fst).count i = x.attachedTo i j
  firedNodup : x.fired.Nodup
  fired : ∀ i ∈ x.fired, i < x.next ∧ x.Resolved i
  inCallback : ∀ i, x.inCallback = some i → x.next = i + 1 ∧ x.Resolved i ∧ i ∉ x.fired

/-- Every input has a source. -/
theorem Inputs.source_isSome {x : Inputs V} {i : ℕ} :
    (∃ j, x.source i = some j) ↔ i < x.fs.length := by
  rw [← Option.isSome_iff_exists]
  simp [Inputs.source]

/-! ### What a source records -/

section Sources

variable {cl : Bool} {s : State V} {hist : Hist V} {op : Op V}

/-- The callbacks that a source has called are those attached to it, once it is resolved. -/
theorem Inv.called_eq (hi : Inv cl s hist) :
    s.log.map Prod.fst = if hist.res.isSome = true then hist.attached.map Prod.fst else [] := by
  have hnames : ∀ {v : V} {as : List (ℕ × Bool)} {log : List (ℕ × Arg V)},
      List.Forall₂ (Delivers v) as log → log.map Prod.fst = as.map Prod.fst := by
    intro v as log hdel
    induction hdel with
    | nil => rfl
    | cons hab _ ih => rw [List.map_cons, List.map_cons, ih, hab.1]
  cases hres : hist.res with
  | none => simp [(hi.pending hres).1]
  | some v =>
      rw [Option.isSome_some, if_pos rfl]
      exact hnames (hi.delivered v hres)

/-- What is resolved stays resolved. -/
theorem Hist.isSome_record (h : hist.res.isSome = true) :
    (hist.record s op).res.isSome = true := by
  cases op with
  | finish v => rfl
  | whenResolved h' c =>
      rw [Hist.record]
      split <;> exact h
  | _ => exact h

/-- Operations on a future do not resolve it. -/
theorem Hist.res_record (h : op.target.isSome = true) : (hist.record s op).res = hist.res := by
  cases op with
  | finish v => simp [Op.target] at h
  | whenResolved h' c =>
      rw [Hist.record]
      split <;> rfl
  | _ => rfl

/-- The callbacks attached by a permitted operation. -/
theorem Permitted.attached_record (hp : Permitted cl s op) :
    (hist.record s op).attached.map Prod.fst =
      hist.attached.map Prod.fst ++ op.callback.toList := by
  cases op with
  | whenResolved h c =>
      obtain ⟨f, hs, htake⟩ := exists_takeHandle hp
      simp [Hist.record, htake, Op.callback]
  | _ => simp [Hist.record, Op.callback]

end Sources

/-! ### The invariant -/

section Ok

variable {cl : Bool} {x : Inputs V} {i j h : ℕ}

/-- **A callback is due** from the resolution of its source until it was run. -/
theorem Inputs.Ok.due_iff (hx : x.Ok cl) :
    x.Due i ↔ i < x.next ∧ x.Resolved i ∧ i ∉ x.fired := by
  have hcount : ∀ j, x.source i = some j → (x.called j).count i =
      if (x.sources j).2.res.isSome = true ∧ i < x.next then 1 else 0 := by
    intro j hj
    have hlt : i < x.fs.length := Inputs.source_isSome.mp ⟨j, hj⟩
    rw [Inputs.called, (hx.sources j).called_eq]
    by_cases hres : (x.sources j).2.res.isSome = true
    · rw [if_pos hres, hx.attached i j hlt, Inputs.attachedTo]
      simp [hres, hj]
    · rw [if_neg hres]
      simp [hres]
  constructor
  · rintro ⟨j, hj, hlt⟩
    rw [hcount j hj] at hlt
    split at hlt
    next hc => exact ⟨hc.2, ⟨j, hj, hc.1⟩, List.count_eq_zero.mp (Nat.lt_one_iff.mp hlt)⟩
    next => exact absurd hlt (Nat.not_lt_zero _)
  · rintro ⟨hnext, ⟨j, hj, hres⟩, hnot⟩
    refine ⟨j, hj, ?_⟩
    rw [hcount j hj, if_pos ⟨hres, hnext⟩, List.count_eq_zero.mpr hnot]
    exact Nat.zero_lt_one

/-- **Every callback is run once**, after it was attached and its source was resolved, and no
later than the call of it returns. -/
theorem Inputs.Ok.mem_fired_iff (hx : x.Ok cl) :
    i ∈ x.fired ↔ i < x.next ∧ x.Resolved i ∧ ¬ x.Due i := by
  rw [hx.due_iff]
  constructor
  · intro hi
    obtain ⟨h1, h2⟩ := hx.fired i hi
    exact ⟨h1, h2, fun h => h.2.2 hi⟩
  · rintro ⟨h1, h2, h3⟩
    by_contra hi
    exact h3 ⟨h1, h2, hi⟩

/-- The number of callbacks that were run. -/
theorem Inputs.Ok.length_fired (hx : x.Ok cl) : x.fired.length ≤ x.next := by
  have hsub : x.fired ⊆ List.range x.next := fun i hi => List.mem_range.mpr (hx.fired i hi).1
  simpa using hx.firedNodup.length_le_of_subset hsub

/-- As long as a callback is due, fewer have been run than attached. -/
theorem Inputs.Ok.length_fired_lt (hx : x.Ok cl) (hi : i < x.next) (hnot : i ∉ x.fired) :
    x.fired.length < x.next := by
  have hsub : i :: x.fired ⊆ List.range x.next := by
    intro k hk
    rcases List.mem_cons.mp hk with rfl | hk
    · exact List.mem_range.mpr hi
    · exact List.mem_range.mpr (hx.fired k hk).1
  have hle := List.Nodup.length_le_of_subset (List.nodup_cons.mpr ⟨hnot, hx.firedNodup⟩) hsub
  rwa [List.length_cons, List.length_range] at hle

/-- All callbacks were run if as many were run as attached. -/
theorem Inputs.Ok.length_fired_eq (hx : x.Ok cl) :
    x.fired.length = x.next ↔ ∀ i < x.next, i ∈ x.fired := by
  constructor
  · intro hlen i hi
    by_contra hnot
    exact absurd hlen (Nat.ne_of_lt (hx.length_fired_lt hi hnot))
  · intro hall
    refine Nat.le_antisymm hx.length_fired ?_
    have hsub : List.range x.next ⊆ x.fired := fun i hi => hall i (List.mem_range.mp hi)
    simpa using List.nodup_range.length_le_of_subset hsub

/-- The source that was replaced. -/
theorem Inputs.sources_put_self (t : State V × Hist V) : (x.put j t).sources j = t :=
  Function.update_self _ _ _

/-- The other sources. -/
theorem Inputs.sources_put_of_ne (t : State V × Hist V) {j' : ℕ} (hne : j' ≠ j) :
    (x.put j t).sources j' = x.sources j' := Function.update_of_ne hne _ _

/-- Inputs stay resolved if the sources that are resolved stay so. -/
theorem Inputs.Resolved.mono (hr : x.Resolved i) {y : Inputs V} (hfs : y.fs = x.fs)
    (hsources : ∀ j, (x.sources j).2.res.isSome = true → (y.sources j).2.res.isSome = true) :
    y.Resolved i := by
  obtain ⟨j, hj, hres⟩ := hr
  exact ⟨j, by rwa [Inputs.source, hfs], hsources j hres⟩

/-- Nothing but the sources has changed, and what was resolved still is. -/
structure Inputs.Same (x y : Inputs V) : Prop where
  fs : y.fs = x.fs
  next : y.next = x.next
  inCallback : y.inCallback = x.inCallback
  fired : y.fired = x.fired
  resolved : ∀ i, x.Resolved i → y.Resolved i

/-- A callback was attached to the next input. If the input is resolved already, the loop is
about to run it. -/
structure Inputs.Attached (x y : Inputs V) : Prop where
  fs : y.fs = x.fs
  next : y.next = x.next + 1
  inCallback : x.Resolved x.next → y.inCallback = some x.next
  fired : y.fired = x.fired
  resolved : ∀ i, x.Resolved i → y.Resolved i

/-- A permitted operation on a source, whose other futures stay. -/
theorem Inputs.Ok.execSource_eq (hx : x.Ok cl) {op : Op V} (hp : Permitted cl (x.sources j).1 op) :
    ∃ s, x.execSource cl j op = .ok (x.put j (s, (x.sources j).2.record (x.sources j).1 op)) ∧
      Inv cl s ((x.sources j).2.record (x.sources j).1 op) ∧
      ∀ k ∈ (x.sources j).1.names, op.target ≠ some k → k ∈ s.names := by
  obtain ⟨s, o, hexec, hinv, -, hmem⟩ := exec_inv (hx.sources j) hp
  refine ⟨s, by simp [Inputs.execSource, hexec, bind, Except.bind], hinv, fun k hk hne => ?_⟩
  obtain ⟨e, he, rfl⟩ := List.mem_map.mp hk
  exact List.mem_map_of_mem (hmem e he hne)

/-- **Others use a source.** -/
theorem Inputs.Ok.execSource (hx : x.Ok cl) {op : Op V} (hp : x.MayExec cl j op) :
    ∃ y, x.execSource cl j op = .ok y ∧ y.Ok cl ∧ x.Same y := by
  obtain ⟨s, hexec, hinv, hmem⟩ := hx.execSource_eq hp.permitted
  have hres : ∀ i, x.Resolved i →
      (x.put j (s, (x.sources j).2.record (x.sources j).1 op)).Resolved i := by
    refine fun i hi => hi.mono rfl fun j' hj' => ?_
    by_cases hne : j' = j
    · subst hne
      rw [Inputs.sources_put_self]
      exact Hist.isSome_record hj'
    · rwa [Inputs.sources_put_of_ne _ hne]
  refine ⟨_, hexec, ⟨fun j' => ?_, hx.le, hx.nodup, fun e he => ?_, fun i j' hi => ?_,
    hx.firedNodup, fun i hi => ⟨(hx.fired i hi).1, hres i (hx.fired i hi).2⟩, fun i hi => ?_⟩,
    rfl, rfl, rfl, rfl, hres⟩
  · by_cases hne : j' = j
    · subst hne
      rw [Inputs.sources_put_self]
      exact hinv
    · rw [Inputs.sources_put_of_ne _ hne]
      exact hx.sources j'
  · by_cases hne : e.1 = j
    · subst hne
      rw [Inputs.sources_put_self]
      exact hmem e.2 (hx.live e he) fun h => hp.owner _ h he
    · rw [Inputs.sources_put_of_ne _ hne]
      exact hx.live e he
  · have hold := hx.attached i j' hi
    by_cases hne : j' = j
    · subst hne
      rw [Inputs.sources_put_self, hp.permitted.attached_record, List.count_append, hold]
      have hzero : op.callback.toList.count i = 0 := by
        refine List.count_eq_zero.mpr fun hmem => ?_
        have := hp.callback i (Option.mem_toList.mp hmem)
        have hlt : i < x.fs.length := hi
        omega
      rw [hzero]
      rfl
    · rw [Inputs.sources_put_of_ne _ hne]
      exact hold
  · obtain ⟨h1, h2, h3⟩ := hx.inCallback i hi
    exact ⟨h1, hres i h2, h3⟩

/-- Attaching the callback of the next input to its source. -/
theorem Inputs.Ok.attachedTo_succ (hx : x.Ok cl) {y : Inputs V} (hfs : y.fs = x.fs)
    (hnext : y.next = x.next + 1) (hsource : x.source x.next = some j) (j' : ℕ)
    (hi : i < x.fs.length) :
    y.attachedTo i j' =
      ((x.sources j').2.attached.map Prod.fst).count i +
        if j' = j then [x.next].count i else 0 := by
  rw [hx.attached i j' hi, Inputs.attachedTo, Inputs.attachedTo, Inputs.source, hfs, hnext,
    ← Inputs.source, List.count_singleton]
  by_cases hlast : i = x.next
  · subst hlast
    by_cases hne : j' = j
    · simp [hsource, hne]
    · simp [hsource, hne, Ne.symm hne]
  · have hlt : i < x.next + 1 ↔ i < x.next := by omega
    simp [hlt, Ne.symm hlast]

/-- **The loop attaches a callback.** -/
theorem Inputs.Ok.register (hx : x.Ok cl) (hf : x.fs[x.next]? = some (j, h)) :
    ∃ y, x.register cl j h = .ok y ∧ y.Ok cl ∧ x.Attached y := by
  obtain ⟨hlt, hget⟩ := List.getElem?_eq_some_iff.mp hf
  have hdrop : x.fs.drop x.next = (j, h) :: x.fs.drop (x.next + 1) := by
    rw [List.drop_eq_getElem_cons hlt, hget]
  have hsource : x.source x.next = some j := by rw [Inputs.source, hf]; rfl
  have hlive : h ∈ (x.sources j).1.names := hx.live (j, h) (by rw [hdrop]; simp)
  have hperm : Permitted cl (x.sources j).1 (.whenResolved h x.next) := hlive
  obtain ⟨s, hexec, hinv, hmem⟩ := hx.execSource_eq hperm
  have hrec : ((x.sources j).2.record (x.sources j).1 (.whenResolved h x.next)).res =
      (x.sources j).2.res := Hist.res_record rfl
  have hatt : ((x.sources j).2.record (x.sources j).1 (.whenResolved h x.next)).attached.map
      Prod.fst = (x.sources j).2.attached.map Prod.fst ++ [x.next] := hperm.attached_record
  generalize (x.sources j).2.record (x.sources j).1 (.whenResolved h x.next) = hist at *
  obtain ⟨hnot, hnodup⟩ := List.nodup_cons.mp (hdrop ▸ hx.nodup)
  -- the source calls the callback at once if it is resolved
  have hcalled : (x.called j).length < ((x.put j (s, hist)).called j).length ↔
      (x.sources j).2.res.isSome = true := by
    rw [Inputs.called, Inputs.called, Inputs.sources_put_self, hinv.called_eq,
      (hx.sources j).called_eq, hrec, hatt]
    split <;> simp_all
  obtain ⟨y, hreg, hfs, hself, hother, hnext, hfired, hin⟩ : ∃ y, x.register cl j h = .ok y ∧
      y.fs = x.fs ∧ y.sources j = (s, hist) ∧ (∀ j' ≠ j, y.sources j' = x.sources j') ∧
      y.next = x.next + 1 ∧ y.fired = x.fired ∧
      y.inCallback = if (x.sources j).2.res.isSome = true then some x.next else none := by
    refine ⟨{ x.put j (s, hist) with
        next := x.next + 1
        inCallback := if (x.called j).length < ((x.put j (s, hist)).called j).length
          then some x.next else none }, by rw [Inputs.register, hexec]; rfl, rfl,
      Inputs.sources_put_self _, fun j' hne => Inputs.sources_put_of_ne _ hne, rfl, rfl, ?_⟩
    simp only [hcalled]
  have hres : ∀ i, x.Resolved i → y.Resolved i := by
    refine fun i hi => hi.mono hfs fun j' hj' => ?_
    by_cases hne : j' = j
    · subst hne
      rw [hself]
      exact hrec ▸ hj'
    · rwa [hother j' hne]
  refine ⟨y, hreg, ⟨fun j' => ?_, ?_, ?_, fun e he => ?_, fun i j' hi => ?_, ?_, fun i hi => ?_,
    fun i hi => ?_⟩, hfs, hnext, fun hr => ?_, hfired, hres⟩
  · by_cases hne : j' = j
    · rw [hne, hself]
      exact hinv
    · rw [hother j' hne]
      exact hx.sources j'
  · rw [hnext, hfs]
    exact hlt
  · rw [hnext, hfs]
    exact hnodup
  · rw [hnext, hfs] at he
    have he' : e ∈ x.fs.drop x.next := by
      rw [hdrop]
      exact List.mem_cons_of_mem _ he
    by_cases hne : e.1 = j
    · rw [hne, hself]
      refine hmem e.2 (hne ▸ hx.live e he') fun heq => hnot ?_
      obtain rfl : h = e.2 := by simpa [Op.target] using heq
      exact hne ▸ he
    · rw [hother e.1 hne]
      exact hx.live e he'
  · rw [hfs] at hi
    rw [hx.attachedTo_succ hfs hnext hsource j' hi]
    by_cases hne : j' = j
    · rw [hne, hself, hatt, List.count_append, if_pos rfl]
    · rw [hother j' hne, if_neg hne]
      rfl
  · rw [hfired]
    exact hx.firedNodup
  · rw [hfired] at hi
    obtain ⟨h1, h2⟩ := hx.fired i hi
    exact ⟨by omega, hres i h2⟩
  · rw [hin] at hi
    split at hi
    next hsome =>
      obtain rfl := Option.some.inj hi
      refine ⟨hnext, hres _ ⟨j, hsource, hsome⟩, fun hmem => ?_⟩
      rw [hfired] at hmem
      exact absurd (hx.fired _ hmem).1 (Nat.lt_irrefl _)
    next => simp at hi
  · obtain ⟨j', hj', hsome⟩ := hr
    obtain rfl : j = j' := Option.some.inj (hsource.symm.trans hj')
    rw [hin, if_pos hsome]

/-- **A callback is run.** -/
theorem Inputs.Ok.fire (hx : x.Ok cl) (hi : x.Due i) : (x.fire i).Ok cl := by
  obtain ⟨hnext, hres, hnot⟩ := hx.due_iff.mp hi
  refine ⟨hx.sources, hx.le, hx.nodup, hx.live, hx.attached, ?_, fun k hk => ?_, fun k hk => ?_⟩
  · exact List.nodup_append.mpr ⟨hx.firedNodup, List.nodup_singleton i, by
      rintro a ha b hb rfl
      exact hnot (List.mem_singleton.mp hb ▸ ha)⟩
  · rcases List.mem_append.mp hk with hk | hk
    · exact hx.fired k hk
    · obtain rfl := List.mem_singleton.mp hk
      exact ⟨hnext, hres⟩
  · have hne : x.inCallback ≠ some i ∧ x.inCallback = some k := by
      by_cases heq : x.inCallback = some i
      · simp [Inputs.fire, heq] at hk
      · refine ⟨heq, ?_⟩
        simpa [Inputs.fire, heq] using hk
    obtain ⟨h1, h2, h3⟩ := hx.inCallback k hne.2
    refine ⟨h1, h2, fun hmem => ?_⟩
    rcases List.mem_append.mp hmem with hmem | hmem
    · exact h3 hmem
    · exact hne.1 (List.mem_singleton.mp hmem ▸ hne.2)

/-- What one step does to the inputs. -/
inductive Inputs.Goes (x y : Inputs V) : Prop
  | same (h : x.Same y)
  | attached (hin : x.inCallback = none) (h : x.Attached y)
  | fired (i : ℕ) (hi : x.Due i) (h : y = x.fire i)

/-- The list stays the same. -/
theorem Inputs.Goes.fs {y : Inputs V} (h : x.Goes y) : y.fs = x.fs := by
  cases h with
  | same h => exact h.fs
  | attached _ h => exact h.fs
  | fired i _ h => rw [h, Inputs.fire]

/-- Callbacks that were run stay so, in their order. -/
theorem Inputs.Goes.prefix_fired {y : Inputs V} (h : x.Goes y) : x.fired <+: y.fired := by
  cases h with
  | same h => exact h.fired ▸ List.prefix_rfl
  | attached _ h => exact h.fired ▸ List.prefix_rfl
  | fired i _ h =>
      rw [h]
      exact List.prefix_append _ _

/-- Nothing changed. -/
theorem Inputs.Same.refl (x : Inputs V) : x.Same x := ⟨rfl, rfl, rfl, rfl, fun _ => id⟩

/-- The invariant holds in the beginning. -/
theorem Inputs.Start.ok (hs : x.Start cl) : x.Ok cl where
  sources j := by
    obtain ⟨s, ops, hinit, hrun⟩ := hs.reached j
    exact inv_of_runs hinit hrun
  le := by rw [hs.next]; exact Nat.zero_le _
  nodup := by
    rw [hs.next, List.drop_zero]
    exact hs.nodup
  live := by
    rw [hs.next, List.drop_zero]
    exact hs.live
  attached i j hi := by
    rw [Inputs.attachedTo, hs.next, if_neg (by simp)]
    refine List.count_eq_zero.mpr fun hmem => ?_
    obtain ⟨a, ha, rfl⟩ := List.mem_map.mp hmem
    exact absurd (hs.callbacks j a ha) (Nat.not_le_of_lt hi)
  firedNodup := by
    rw [hs.fired]
    exact List.nodup_nil
  fired i hi := by simp [hs.fired] at hi
  inCallback i hi := by simp [hs.inCallback] at hi

end Ok

/-! ### The output -/

/-- The block that `all` or `any` makes for its result, what has happened to it, and how often
`finish_internal` was called for it. The value is a `usize`, which can be cloned. -/
structure Output where
  state : State ℕ
  hist : Hist ℕ
  finished : ℕ

/-- Performs an operation on a future of the block. -/
def Output.use (o : Output) (op : Op ℕ) : Except Fault (Output × Outcome ℕ) := do
  let (s, r) ← exec true o.state op
  .ok ({ o with state := s, hist := o.hist.record o.state op }, r)

/-- `finish_internal`, with `v` in the room for the value. -/
def Output.finishInternal (o : Output) (w : FutureWait ℕ) (v : ℕ) : Except Fault Output := do
  let s ← Future.finishInternal true
    { o.state with writer := false, moved := o.state.moved + if w.valRefs = 0 then 1 else 0 } w
  .ok ⟨s, { o.hist with res := some v }, o.finished + 1⟩

/-- Writes the number of references. -/
def Output.putRefs (o : Output) (w : FutureWait ℕ) (waitRefs : ℕ) : Output :=
  { o with state := o.state.put { w with waitRefs := waitRefs } }

/-- The invariant of the block, to which `k` others refer besides its futures and its writer. Until
the resolution the room for the value holds `y`. -/
structure Output.Ok (y : Option (Value ℕ)) (k : ℕ) (o : Output) : Prop where
  held : Held true y k o.state o.hist
  finished : o.finished = o.hist.res.isSome.toNat

section Output

variable {o : Output} {y : Option (Value ℕ)} {k : ℕ} {w : FutureWait ℕ} {op : Op ℕ}

/-- What an operation on the block does that is called on one of its futures. -/
structure Output.Used (o o' : Output) (op : Op ℕ) (r : Outcome ℕ) : Prop where
  res : o'.hist.res = o.hist.res
  expected : ∀ h f, op.target = some h → (h, f) ∈ o.state.handles →
    Expected o.hist.res f.hasVal op r
  others : ∀ h ∈ o.state.names, op.target ≠ some h → h ∈ o'.state.names

/-- **The futures of the block** can be used as those of any other. -/
theorem Output.Ok.use (ho : o.Ok y k) (hp : Permitted true o.state op)
    (ht : op.target.isSome = true) :
    ∃ o' r, o.use op = .ok (o', r) ∧ o'.Ok y k ∧ o.Used o' op r := by
  obtain ⟨s, r, hexec, hinv, hout, hmem⟩ := exec_inv ho.held hp
  have hres : (o.hist.record o.state op).res = o.hist.res := Hist.res_record ht
  refine ⟨{ o with state := s, hist := o.hist.record o.state op }, r, ?_, ⟨hinv, ?_⟩, hres, hout,
    fun h hh hne => ?_⟩
  · simp [Output.use, hexec, bind, Except.bind]
  · simp only [hres]
    exact ho.finished
  · obtain ⟨e, he, rfl⟩ := List.mem_map.mp hh
    exact List.mem_map_of_mem (hmem e he hne)

/-- `without_val` leaves its future there. -/
theorem Output.mem_names_withoutVal {o' : Output} {r : Outcome ℕ} {h new : ℕ}
    (huse : o.use (.withoutVal h new) = .ok (o', r)) (hh : h ∈ o.state.names) :
    h ∈ o'.state.names := by
  obtain ⟨f, hs, htake⟩ := exists_takeHandle hh
  simp only [Output.use, exec, Op.target, htake, execOn] at huse
  cases hw : withoutVal { o.state with handles := hs } f with
  | error e => simp [hw, bind, Except.bind] at huse
  | ok p =>
      simp only [hw, bind, Except.bind, Except.ok.injEq, Prod.mk.injEq] at huse
      rw [← huse.1]
      simp [State.names, State.push]

/-- The block while somebody refers to it. -/
theorem Output.Ok.alive (ho : o.Ok y k)
    (hpos : 0 < unresolved o.state.handles + k + o.hist.res.isNone.toNat) :
    ∃ w, o.state.wait = some w ∧ o.state.deref = .ok w ∧
      w.waitRefs = unresolved o.state.handles + k + o.hist.res.isNone.toNat ∧
      w.resolved = o.hist.res.isSome ∧ (o.hist.res = none → w.val = y) := by
  obtain ⟨w, hw, -, hwait, hr⟩ := ho.held.refs.alive hpos
  exact ⟨w, hw, by simp [State.deref, hw], hwait, hr.resolved, fun h => (hr.pending h).1⟩

/-- **The block is destroyed once**, when it was resolved and nobody refers to it. -/
theorem Output.Ok.wait_eq_none_iff (ho : o.Ok y k) :
    (o.state.wait = none ↔ o.hist.res.isSome = true ∧ unresolved o.state.handles + k = 0) ∧
    o.state.destroyed = o.state.wait.isNone.toNat := by
  rcases ho.held.refs.block with ⟨w, hw, hd, hpos, hwait, -⟩ | ⟨hw, hd, hres, hu, -⟩
  · refine ⟨iff_of_false (by simp [hw]) ?_, by simp [hw, hd]⟩
    rintro ⟨hres, hu⟩
    obtain ⟨v, hv⟩ := Option.isSome_iff_exists.mp hres
    simp [hwait, hu, hv] at hpos
  · exact ⟨iff_of_true hw ⟨hres, hu⟩, by simp [hw, hd]⟩

/-- Before the resolution the room for the value may be written. -/
theorem Output.Ok.put_val (ho : o.Ok y k) (hres : o.hist.res = none)
    (hw : o.state.wait = some w) (x : Option (Value ℕ)) :
    ({ o with state := o.state.put { w with val := x } } : Output).Ok x k := by
  obtain ⟨w', hw', hd, hwait, hr⟩ := ho.held.refs.alive (by simp [hres])
  obtain rfl : w = w' := Option.some.inj (hw.symm.trans hw')
  have hi := ho.held
  refine ⟨⟨⟨hi.refs.writer, hi.refs.le, Or.inl ⟨_, rfl, hd, by simp [hwait, hres], hwait, ?_⟩⟩,
    hi.settled, hi.names, fun _ => ?_, fun v hv => by simp [hres] at hv⟩, ho.finished⟩
  · exact ⟨hr.valRefs, hr.resolved, hr.actions, fun _ => ⟨rfl, (hr.pending hres).2⟩,
      fun v hv => by simp [hres] at hv, fun v hv => by simp [hres] at hv, hr.cloneable⟩
  · obtain ⟨h1, h2⟩ := hi.pending hres
    refine ⟨h1, ?_⟩
    rw [← h2]
    simp [State.queue, State.put, hw]

/-- **The block is resolved** by `finish_internal`, if the value is there for whoever wants
it. -/
theorem Output.Ok.finishInternal (ho : o.Ok y k) (hres : o.hist.res = none)
    (hw : o.state.wait = some w) {x : Option (Value ℕ)} {v : ℕ}
    (hx : 0 < w.valRefs → x = some (.orig v)) :
    ∃ o', o.finishInternal { w with val := x } v = .ok o' ∧ o'.Ok y k ∧
      o'.hist.res = some v ∧ o'.state.handles = o.state.handles := by
  obtain ⟨s, l, hfin, hat, hhandles, hlog, hl⟩ := finishInternal_at (hres ▸ ho.held.refs) hw hx
  refine ⟨⟨s, { o.hist with res := some v }, o.finished + 1⟩, ?_,
    ⟨ho.held.resolved hres hat hhandles hlog hl, ?_⟩, rfl, hhandles⟩
  · simp [Output.finishInternal, hfin, bind, Except.bind]
  · simp [ho.finished, hres]

/-- After the resolution it does not matter what the room for the value held before. -/
theorem Output.Ok.of_resolved (ho : o.Ok y k) (hres : o.hist.res.isSome = true)
    (y' : Option (Value ℕ)) : o.Ok y' k := by
  have hi := ho.held
  refine ⟨⟨⟨hi.refs.writer, hi.refs.le, ?_⟩, hi.settled, hi.names, hi.pending, hi.delivered⟩,
    ho.finished⟩
  rcases hi.refs.block with ⟨w, hw, hd, hpos, hwait, hr⟩ | hgone
  · refine Or.inl ⟨w, hw, hd, hpos, hwait, ⟨hr.valRefs, hr.resolved, hr.actions, fun hn => ?_,
      hr.stored, hr.gone, hr.cloneable⟩⟩
    simp [hn] at hres
  · exact Or.inr hgone

/-- The block after a step that changes its counts only. -/
theorem Output.Ok.of_frame (ho : o.Ok y k) {s : State ℕ} {k' : ℕ} (hframe : Frame o.state s)
    (hrefs : At true y s o.hist.res (unresolved o.state.handles + k') (withVals o.state.handles)) :
    ({ o with state := s } : Output).Ok y k' := by
  have hframe' : Frame { o.state with handles := o.state.handles } s := hframe
  have hheld := ho.held.of_frame hframe' hrefs ho.held.settled ho.held.names
  rw [← hframe.handles] at hheld
  exact ⟨hheld, ho.finished⟩

/-- The block after its references were counted anew. -/
theorem Output.Ok.putRefs (ho : o.Ok y k) (hw : o.state.wait = some w) {k' : ℕ}
    (hpos : 0 < unresolved o.state.handles + k' + o.hist.res.isNone.toNat) :
    (o.putRefs w (unresolved o.state.handles + k' + o.hist.res.isNone.toNat)).Ok y k' := by
  have hrefs := ho.held.refs
  rcases hrefs.block with ⟨w', hw', hd, -, -, hr⟩ | ⟨hgone, -⟩
  · obtain rfl : w = w' := Option.some.inj (hw.symm.trans hw')
    refine ho.of_frame ⟨rfl, rfl, by simp [State.queue, State.put, hw]⟩
      ⟨hrefs.writer, withVals_le_add _ _, Or.inl ⟨_, rfl, hd, hpos, rfl, ?_⟩⟩
    exact hr.congr hr.valRefs rfl hr.actions rfl rfl (fun _ => Iff.rfl) hr.cloneable
  · simp [hw] at hgone

/-- One of the others gives back its reference. -/
theorem Output.Ok.decWaitRef (ho : o.Ok y (k + 1)) :
    ∃ w s, o.state.deref = .ok w ∧ Future.decWaitRef o.state w = .ok s ∧
      ({ o with state := s } : Output).Ok y k ∧ s.handles = o.state.handles ∧
      w.resolved = o.hist.res.isSome := by
  obtain ⟨w, hw, hd, hwait, hr⟩ := ho.held.refs.alive (by omega)
  obtain ⟨s, hdec, hat, hhandles, hlog, hqueue⟩ :=
    decWaitRef_at (u := unresolved o.state.handles + k)
      ho.held.refs.writer hd (withVals_le_add _ _) (by omega) hr
  have hframe : Frame o.state s := ⟨hhandles, hlog, by rw [hqueue]; simp [State.queue, hw]⟩
  exact ⟨w, s, by simp [State.deref, hw], hdec, ho.of_frame hframe hat, hhandles, hr.resolved⟩

end Output

end HydroxKernel.Future
