import Mathlib.Data.Nat.Notation
import Mathlib.Logic.Basic

/-!
# Assertions

Code that can panic returns in `Except`, with the panic as the error. An assertion either
returns nothing or panics, and a loop returns if all its steps do.
-/

namespace HydroxKernel

universe u v

variable {ε : Type u} {α β : Type v}

/-- An assertion, with the panic it raises. -/
def ensure (c : Prop) [Decidable c] (e : ε) : Except ε Unit :=
  if c then .ok () else .error e

/-- An assertion that holds returns. -/
theorem ensure_pos {c : Prop} [Decidable c] {e : ε} (h : c) : ensure c e = .ok () := if_pos h

/-- An assertion that does not hold panics. -/
theorem ensure_neg {c : Prop} [Decidable c] {e : ε} (h : ¬ c) : ensure c e = .error e :=
  if_neg h

/-- An assertion returns only if it holds. -/
theorem ensure_eq_ok {ε : Type u} {c : Prop} [Decidable c] {e : ε} {u : Unit} :
    ensure c e = .ok u ↔ c := by
  by_cases h : c
  · exact iff_of_true (ensure_pos h) h
  · rw [ensure_neg h]
    exact iff_of_false (by simp) h

/-- Code goes on after something that returns. -/
@[simp] theorem ok_bind (a : α) (f : α → Except ε β) : (Except.ok a >>= f) = f a := rfl

/-- Code stops after something that panics. -/
@[simp] theorem error_bind (e : ε) (f : α → Except ε β) : (Except.error e >>= f) = .error e := rfl

/-- Code that begins with an assertion returns only if the assertion holds. -/
theorem ensure_bind_eq_ok {γ : Type} {c : Prop} [Decidable c] {e : ε} {f : Unit → Except ε γ}
    {r : γ} : (ensure c e >>= f) = .ok r ↔ c ∧ f () = .ok r := by
  by_cases h : c
  · rw [ensure_pos h, ok_bind]
    simp [h]
  · rw [ensure_neg h, error_bind]
    simp [h]

/-- Code returns only if its first part returns, and then the rest does. -/
theorem bind_eq_ok {γ : Type} {δ : Type} {x : Except ε γ} {f : γ → Except ε δ} {r : δ} :
    (x >>= f) = .ok r ↔ ∃ a, x = .ok a ∧ f a = .ok r := by
  cases x with
  | ok a =>
      rw [ok_bind]
      simp
  | error e =>
      rw [error_bind]
      simp

/-- Code panics only if its first part does, or that returns and the rest does. -/
theorem bind_eq_error {γ : Type} {δ : Type} {x : Except ε γ} {f : γ → Except ε δ} {e : ε} :
    (x >>= f) = .error e ↔ x = .error e ∨ ∃ a, x = .ok a ∧ f a = .error e := by
  cases x with
  | ok a =>
      rw [ok_bind]
      simp
  | error e' =>
      rw [error_bind]
      simp

/-- An error that is renamed does not change what is returned. -/
theorem mapError_eq_ok {ε ε' γ : Type} {f : ε → ε'} {x : Except ε γ} {a : γ} :
    x.mapError f = .ok a ↔ x = .ok a := by
  cases x with
  | ok b => exact ⟨fun h => congrArg Except.ok (Except.ok.inj h),
      fun h => congrArg Except.ok (Except.ok.inj h)⟩
  | error e =>
      constructor
      · intro h
        cases h
      · intro h
        cases h

/-- What returns, returns its result. -/
theorem eq_ok_of_isOk {x : Except ε α} (h : x.isOk = true) (d : α) :
    x = .ok (x.toOption.getD d) := by
  cases x with
  | ok a => rfl
  | error e => simp [Except.isOk, Except.toBool] at h

/-- The panic of code that does not return. -/
def panicOf : Except ε α → Option ε
  | .ok _ => none
  | .error e => some e

/-- What panics, does not return. -/
theorem eq_error_of_panicOf {x : Except ε α} {e : ε} (h : panicOf x = some e) : x = .error e := by
  cases x with
  | ok a => cases h
  | error e' => exact congrArg Except.error (Option.some.inj h)

/-- **The loop rule.** If every step of a loop returns and leads from the invariant of its index
to that of the next, the loop returns and leads from the first to the last. -/
theorem foldlM_invariant {f : β → α → Except ε β} {l : List α} (I : ℕ → β → Prop) {b : β}
    (hb : I 0 b)
    (hstep : ∀ i (hi : i < l.length) b, I i b → ∃ b', f b l[i] = .ok b' ∧ I (i + 1) b') :
    ∃ b', l.foldlM f b = .ok b' ∧ I l.length b' := by
  induction l generalizing I b with
  | nil => exact ⟨b, rfl, hb⟩
  | cons a l ih =>
      obtain ⟨b₁, hb₁, hI₁⟩ := hstep 0 (Nat.succ_pos _) b hb
      obtain ⟨b₂, hb₂, hI₂⟩ := ih (fun i => I (i + 1)) hI₁ fun i hi =>
        hstep (i + 1) (Nat.succ_lt_succ hi)
      refine ⟨b₂, ?_, hI₂⟩
      rw [List.foldlM_cons, ← hb₂]
      rw [List.getElem_cons_zero] at hb₁
      rw [hb₁, ok_bind]

/-- **A loop that returns** keeps what every step that returns keeps. -/
theorem foldlM_preserves {f : β → α → Except ε β} {P : β → Prop} {l : List α} {b b' : β}
    (hstep : ∀ a ∈ l, ∀ b b', P b → f b a = .ok b' → P b') (hb : P b)
    (h : l.foldlM f b = .ok b') : P b' := by
  induction l generalizing b with
  | nil =>
      obtain rfl := Except.ok.inj h
      exact hb
  | cons a l ih =>
      rw [List.foldlM_cons] at h
      cases ha : f b a with
      | error e =>
          rw [ha] at h
          cases h
      | ok b₁ =>
          rw [ha, ok_bind] at h
          exact ih (fun a' ha' => hstep a' (List.mem_cons_of_mem _ ha'))
            (hstep a List.mem_cons_self b b₁ hb ha) h

end HydroxKernel
