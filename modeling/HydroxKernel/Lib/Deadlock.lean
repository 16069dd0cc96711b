import Mathlib.Data.Set.Insert

/-!
# Deadlocks

Agents that hold locks and wait for locks. A deadlock is a set of agents each of which holds
a lock that another one of the set waits for.

## Main results

* `deadlock_of_two`: two agents deadlock that wait for each other.
* `not_deadlock_of_rank`: there is no deadlock if the agents that wait can be ranked such
  that an agent ranks below every agent that it waits for.
-/

namespace HydroxKernel

variable {κ ℓ : Type*} {holds waits : κ → ℓ → Prop}

/-- Each agent of a set holds a lock that another agent of the set waits for. -/
def Deadlock (holds waits : κ → ℓ → Prop) : Prop :=
  ∃ S : Set κ, S.Nonempty ∧ ∀ c ∈ S, ∃ c' ∈ S, c' ≠ c ∧ ∃ l, holds c l ∧ waits c' l

/-- Two agents deadlock of which each holds what the other waits for. -/
theorem deadlock_of_two {c c' : κ} {l l' : ℓ} (hne : c ≠ c') (h : holds c l) (hw : waits c' l)
    (h' : holds c' l') (hw' : waits c l') : Deadlock holds waits := by
  refine ⟨{c, c'}, ⟨c, Set.mem_insert c _⟩, ?_⟩
  rintro x (rfl | rfl)
  · exact ⟨c', Set.mem_insert_of_mem _ rfl, hne.symm, l, h, hw⟩
  · exact ⟨c, Set.mem_insert _ _, hne, l', h', hw'⟩

/-- **Ranks exclude deadlocks.** If an agent always ranks below the waiting agents that it
waits for, then there is no deadlock. -/
theorem not_deadlock_of_rank (rank : κ → ℕ)
    (h : ∀ c c' l m, c' ≠ c → holds c l → waits c' l → waits c m → rank c' < rank c) :
    ¬ Deadlock holds waits := by
  rintro ⟨S, ⟨c₀, hc₀⟩, hS⟩
  have hnone : ∀ n, ∀ c ∈ S, ∀ m, waits c m → rank c ≠ n := by
    intro n
    induction n using Nat.strong_induction_on with
    | _ n ih =>
        rintro c hc m hm rfl
        obtain ⟨c', hc', hne, l, hl, hl'⟩ := hS c hc
        exact ih _ (h c c' l m hne hl hl' hm) c' hc' l hl' rfl
  obtain ⟨c, hc, -, l, -, hl⟩ := hS c₀ hc₀
  exact hnone _ c hc l hl rfl

end HydroxKernel
