import Mathlib.Data.List.Basic

/-!
# Taking From Both Ends

A sequence is consumed by calls that each take the element at its front or the one at its back,
in any interleaving, until nothing is left. This is what a double-ended iterator has to do.

## Main results

* `takeEnds_split`: what was taken at the front, what is left and what was taken at the back,
  in reverse, are the sequence.
* `takeEnds_perm`: every element is taken or left, once.
* `takeEnds_getElem?_eq_none`: every call takes an element until all are taken, and no call after
  that takes one.
-/

namespace HydroxKernel

variable {α : Type*}

/-- The two ends of a sequence. -/
inductive End
  | front
  | back
  deriving DecidableEq

/-- Takes the element at an end, if there is one. -/
def takeEnd : End → List α → Option α × List α
  | .front, l => (l.head?, l.tail)
  | .back, l => (l.getLast?, l.dropLast)

/-- What a sequence of calls takes, and what they leave. -/
def takeEnds : List End → List α → List (Option α) × List α
  | [], l => ([], l)
  | e :: calls, l =>
      ((takeEnd e l).1 :: (takeEnds calls (takeEnd e l).2).1, (takeEnds calls (takeEnd e l).2).2)

/-- The elements that the calls at one end took, in order. -/
def takenAt (e : End) : List End → List (Option α) → List α
  | c :: calls, r :: results =>
      if c = e then r.toList ++ takenAt e calls results else takenAt e calls results
  | _, _ => []

/-- Nothing is taken from an empty sequence. -/
@[simp] theorem takeEnd_nil (e : End) : takeEnd e ([] : List α) = (none, []) := by
  cases e <;> rfl

/-- A call takes an element, if one is left. -/
theorem takeEnd_of_ne_nil (e : End) {l : List α} (h : l ≠ []) :
    ∃ a, (takeEnd e l).1 = some a ∧ (takeEnd e l).2.length = l.length - 1 := by
  cases e with
  | front => exact ⟨l.head h, List.head?_eq_some_head h, List.length_tail⟩
  | back => exact ⟨l.getLast h, List.getLast?_eq_some_getLast h, List.length_dropLast⟩

/-- What one call takes and leaves. -/
theorem takeEnd_split (e : End) (l : List α) :
    l = match e with
      | .front => (takeEnd e l).1.toList ++ (takeEnd e l).2
      | .back => (takeEnd e l).2 ++ (takeEnd e l).1.toList := by
  cases e with
  | front =>
      cases l with
      | nil => rfl
      | cons a l => rfl
  | back =>
      rcases List.eq_nil_or_concat l with rfl | ⟨l, a, rfl⟩
      · rfl
      · simp [takeEnd]

/-- What one call takes and leaves, in any order. -/
theorem takeEnd_perm (e : End) (l : List α) :
    ((takeEnd e l).1.toList ++ (takeEnd e l).2).Perm l := by
  have hsplit := takeEnd_split e l
  cases e with
  | front => exact List.Perm.of_eq hsplit.symm
  | back => exact List.perm_append_comm.trans (List.Perm.of_eq hsplit.symm)

/-- **What was taken at the front**, what is left and what was taken at the back, in reverse. -/
theorem takeEnds_split (calls : List End) (l : List α) :
    takenAt .front calls (takeEnds calls l).1 ++ (takeEnds calls l).2 ++
      (takenAt .back calls (takeEnds calls l).1).reverse = l := by
  induction calls generalizing l with
  | nil => simp [takeEnds, takenAt]
  | cons e calls ih =>
      have hsplit := takeEnd_split e l
      have hrest := ih (takeEnd e l).2
      cases e with
      | front =>
          simp only [takeEnds, takenAt, if_true, reduceCtorEq, if_false]
          rw [List.append_assoc, List.append_assoc, ← List.append_assoc (takenAt _ _ _), hrest]
          exact hsplit.symm
      | back =>
          simp only [takeEnds, takenAt, if_true, reduceCtorEq, if_false]
          rw [List.reverse_append, ← List.append_assoc, hrest]
          have hone : ∀ o : Option α, o.toList.reverse = o.toList := by
            intro o
            cases o <;> rfl
          rw [hone]
          exact hsplit.symm

/-- **Every element is taken or left**, once. -/
theorem takeEnds_perm (calls : List End) (l : List α) :
    ((takeEnds calls l).1.filterMap id ++ (takeEnds calls l).2).Perm l := by
  induction calls generalizing l with
  | nil => exact List.Perm.refl l
  | cons e calls ih =>
      have hcons : ∀ (o : Option α) (rs : List (Option α)),
          (o :: rs).filterMap id = o.toList ++ rs.filterMap id := by
        intro o rs
        cases o <;> rfl
      rw [takeEnds, hcons, List.append_assoc]
      exact ((ih (takeEnd e l).2).append_left _).trans (takeEnd_perm e l)

/-- **A call takes nothing** if and only if the calls before it took everything. -/
theorem takeEnds_getElem?_eq_none {calls : List End} {k : ℕ} (hk : k < calls.length)
    (l : List α) : (takeEnds calls l).1[k]? = some none ↔ l.length ≤ k := by
  induction calls generalizing k l with
  | nil => exact absurd hk (Nat.not_lt_zero k)
  | cons e calls ih =>
      rw [takeEnds]
      rcases eq_or_ne l [] with rfl | hne
      · cases k with
        | zero => simp
        | succ k =>
            rw [List.getElem?_cons_succ, ih (Nat.lt_of_succ_lt_succ hk)]
            simp
      · obtain ⟨a, ha, hlen⟩ := takeEnd_of_ne_nil e hne
        have hpos := List.length_pos_of_ne_nil hne
        cases k with
        | zero =>
            rw [List.getElem?_cons_zero, ha]
            simp only [Option.some.injEq, reduceCtorEq, false_iff]
            omega
        | succ k =>
            rw [List.getElem?_cons_succ, ih (Nat.lt_of_succ_lt_succ hk), hlen]
            omega

/-- The first results are those of the first calls. -/
theorem takeEnds_take (calls : List End) (k : ℕ) (l : List α) :
    (takeEnds (calls.take k) l).1 = (takeEnds calls l).1.take k := by
  induction calls generalizing k l with
  | nil => simp [takeEnds]
  | cons e calls ih =>
      cases k with
      | zero => rfl
      | succ k => rw [List.take_succ_cons, takeEnds, takeEnds, List.take_succ_cons, ih]

/-- The number of elements that calls take. -/
theorem takeEnds_count (calls : List End) (l : List α) :
    ((takeEnds calls l).1.filterMap id).length = min calls.length l.length := by
  induction calls generalizing l with
  | nil => simp [takeEnds]
  | cons e calls ih =>
      rw [takeEnds]
      rcases eq_or_ne l [] with rfl | hne
      · rw [takeEnd_nil, List.filterMap_cons_none rfl, ih]
        simp
      · obtain ⟨a, ha, hlen⟩ := takeEnd_of_ne_nil e hne
        have hpos := List.length_pos_of_ne_nil hne
        have hsome : ∀ rs : List (Option α), (some a :: rs).filterMap id = a :: rs.filterMap id :=
          fun rs => List.filterMap_cons_some rfl
        rw [ha, hsome, List.length_cons, ih, hlen, List.length_cons]
        omega

end HydroxKernel
