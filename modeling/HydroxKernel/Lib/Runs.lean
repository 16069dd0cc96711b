import Mathlib.Data.List.Basic

/-!
# Runs of a Transition System

A run is a finite sequence of labelled steps. Every component of the kernel that is
modelled as a state machine is a step relation `σ → α → σ → Prop`, and what holds "in
every reached state" is proved once per component from what one step preserves.

## Main results

* `Runs.invariant`: a predicate that holds initially and is preserved by every step
  holds at the end of every run.
* `Runs.trans` and `Runs.cons`: runs compose, and may be extended at either end.
* `Runs.cons_iff`: a run of at least one step has a first one.
* `Passes.snoc`: what a run has passed it has passed after another step.
* `everyStep_cons`: what holds of every step of a run, by its first step.
-/

namespace HydroxKernel

variable {σ α : Type*} {step : σ → α → σ → Prop}

/-- `Runs step s ops t`: performing the operations `ops` in order leads from the state
`s` to the state `t`. -/
inductive Runs (step : σ → α → σ → Prop) (s : σ) : List α → σ → Prop
  | refl : Runs step s [] s
  | snoc {ops : List α} {a : α} {t u : σ} :
      Runs step s ops t → step t a u → Runs step s (ops ++ [a]) u

/-- **The invariant rule.** What holds initially and is preserved by every step holds in
every state a run reaches. -/
theorem Runs.invariant {P : σ → Prop} {s t : σ} {ops : List α} (h : Runs step s ops t)
    (hs : P s) (hstep : ∀ t a u, P t → step t a u → P u) : P t := by
  induction h with
  | refl => exact hs
  | snoc _ hlast ih => exact hstep _ _ _ ih hlast

/-- The steps of a run may be weakened. -/
theorem Runs.mono {step' : σ → α → σ → Prop} {s t : σ} {ops : List α} (h : Runs step s ops t)
    (hstep : ∀ t a u, step t a u → step' t a u) : Runs step' s ops t := by
  induction h with
  | refl => exact .refl
  | snoc _ hlast ih => exact ih.snoc (hstep _ _ _ hlast)

/-- Runs compose. -/
theorem Runs.trans {s t u : σ} {ops ops' : List α} (h : Runs step s ops t)
    (h' : Runs step t ops' u) : Runs step s (ops ++ ops') u := by
  induction h' with
  | refl => simpa using h
  | snoc _ hlast ih =>
      rw [← List.append_assoc]
      exact ih.snoc hlast

/-- A run may be extended by one step at its beginning. -/
theorem Runs.cons {s t u : σ} {a : α} {ops : List α} (h : step s a t)
    (h' : Runs step t ops u) : Runs step s (a :: ops) u := by
  have h1 : Runs step s ([] ++ [a]) t := Runs.refl.snoc h
  exact h1.trans h'

/-- A run of no steps. -/
theorem Runs.nil_iff {s t : σ} : Runs step s [] t ↔ t = s := by
  constructor
  · intro h
    generalize hops : ([] : List α) = ops at h
    cases h with
    | refl => rfl
    | snoc h hlast => exact absurd hops.symm (List.append_ne_nil_of_right_ne_nil _ (by simp))
  · rintro rfl
    exact .refl

/-- **The first step of a run.** -/
theorem Runs.cons_iff {s u : σ} {a : α} {ops : List α} :
    Runs step s (a :: ops) u ↔ ∃ t, step s a t ∧ Runs step t ops u := by
  constructor
  · intro h
    generalize hops : a :: ops = l at h
    induction h generalizing ops with
    | refl => cases hops
    | @snoc ops' b t u h hlast ih =>
        cases ops' with
        | nil =>
            obtain ⟨rfl, rfl⟩ := List.cons.inj hops
            rw [Runs.nil_iff] at h
            subst h
            exact ⟨u, hlast, .refl⟩
        | cons b' ops' =>
            obtain ⟨rfl, rfl⟩ := List.cons.inj hops
            obtain ⟨v, hfirst, hrest⟩ := ih rfl
            exact ⟨v, hfirst, hrest.snoc hlast⟩
  · rintro ⟨t, hfirst, hrest⟩
    exact hrest.cons hfirst

/-- **A run in two parts.** -/
theorem Runs.append_iff {s u : σ} {ops ops' : List α} :
    Runs step s (ops ++ ops') u ↔ ∃ t, Runs step s ops t ∧ Runs step t ops' u := by
  constructor
  · intro h
    induction ops generalizing s with
    | nil => exact ⟨s, .refl, h⟩
    | cons a ops ih =>
        obtain ⟨t, hfirst, hrest⟩ := Runs.cons_iff.mp h
        obtain ⟨v, hops, hops'⟩ := ih hrest
        exact ⟨v, .cons hfirst hops, hops'⟩
  · rintro ⟨t, hops, hops'⟩
    exact hops.trans hops'

/-- A run passes a state that has the property. -/
def Passes (step : σ → α → σ → Prop) (P : List α → σ → Prop) (s : σ) (ops : List α) (t : σ) :
    Prop :=
  ∃ done rest u, ops = done ++ rest ∧ Runs step s done u ∧ P done u ∧ Runs step u rest t

/-- A run passes its last state. -/
theorem Passes.last {P : List α → σ → Prop} {s t : σ} {ops : List α} (h : Runs step s ops t)
    (hP : P ops t) : Passes step P s ops t :=
  ⟨ops, [], t, (List.append_nil ops).symm, h, hP, .refl⟩

/-- What a run has passed it has passed after another step. -/
theorem Passes.snoc {P : List α → σ → Prop} {s t u : σ} {ops : List α} {a : α}
    (h : Passes step P s ops t) (hlast : step t a u) : Passes step P s (ops ++ [a]) u := by
  obtain ⟨done, rest, v, rfl, hdone, hP, hrest⟩ := h
  exact ⟨done, rest ++ [a], v, List.append_assoc _ _ _, hdone, hP, hrest.snoc hlast⟩

/-- Every step of a run of the operations has the property. -/
def EveryStep (step : σ → α → σ → Prop) (P : σ → α → σ → Prop) (s : σ) (ops : List α) : Prop :=
  ∀ done op rest t u, ops = done ++ op :: rest → Runs step s done t → step t op u → P t op u

/-- A run of no steps has no step. -/
theorem everyStep_nil {P : σ → α → σ → Prop} {s : σ} : EveryStep step P s [] :=
  fun _ _ _ _ _ h => absurd h.symm (List.append_ne_nil_of_right_ne_nil _ (by simp))

/-- **Every step of a run**: the first one and those after it. -/
theorem everyStep_cons {P : σ → α → σ → Prop} {s : σ} {op : α} {ops : List α} :
    EveryStep step P s (op :: ops) ↔
      ∀ t, step s op t → P s op t ∧ EveryStep step P t ops := by
  constructor
  · intro h t hfirst
    refine ⟨h [] op ops s t rfl .refl hfirst, fun done op' rest u v hops hruns hstep => ?_⟩
    exact h (op :: done) op' rest u v (by rw [hops, List.cons_append]) (hruns.cons hfirst) hstep
  · intro h done op' rest t u hops hruns hstep
    cases done with
    | nil =>
        obtain ⟨rfl, rfl⟩ := List.cons.inj hops
        rw [Runs.nil_iff] at hruns
        subst hruns
        exact (h u hstep).1
    | cons a done =>
        obtain ⟨rfl, rfl⟩ := List.cons.inj hops
        obtain ⟨v, hfirst, hrest⟩ := Runs.cons_iff.mp hruns
        exact (h v hfirst).2 done op' rest t u rfl hrest hstep

end HydroxKernel
