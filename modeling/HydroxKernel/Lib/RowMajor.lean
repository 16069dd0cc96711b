import Mathlib.Data.Nat.Notation
import Mathlib.Logic.Function.Basic

/-!
# Matrices Row by Row

A matrix of `h` rows and `w` columns lies in a list, row after row: the cell of the row `y` and
the column `x` is at `y * w + x`.

## Main results

* `mul_add_inj`: cells of different rows or columns lie at different places.
* `RowMajor.set`: writing one place of the list writes one cell.
-/

namespace HydroxKernel

variable {w h : ℕ}

/-! ### Places -/

/-- Cells of different rows or columns have different offsets. -/
theorem mul_add_inj {p q x x' : ℕ} (hx : x < w) (hx' : x' < w) :
    p * w + x = q * w + x' ↔ p = q ∧ x = x' := by
  constructor
  · intro heq
    have hw : 0 < w := by omega
    have hdiv : (p * w + x) / w = (q * w + x') / w := by rw [heq]
    rw [Nat.mul_comm, Nat.mul_comm q, Nat.mul_add_div hw, Nat.mul_add_div hw,
      Nat.div_eq_of_lt hx, Nat.div_eq_of_lt hx'] at hdiv
    obtain rfl : p = q := by omega
    exact ⟨rfl, by omega⟩
  · rintro ⟨rfl, rfl⟩
    rfl

/-- A cell of a row lies before the next row. -/
theorem mul_add_lt {p q x : ℕ} (hx : x < w) (hpq : p < q) : p * w + x < q * w := by
  calc p * w + x < p * w + w := Nat.add_lt_add_left hx _
    _ = (p + 1) * w := (Nat.succ_mul p w).symm
    _ ≤ q * w := Nat.mul_le_mul_right w hpq

/-- The offset of a cell is in the range of a row, from a column on, exactly if the cell is in
that part of the row. -/
theorem mul_add_mem {p q x c : ℕ} (hx : x < w) :
    (p * w + c ≤ q * w + x ∧ q * w + x < p * w + w) ↔ q = p ∧ c ≤ x := by
  constructor
  · rintro ⟨hle, hlt⟩
    rcases Nat.lt_trichotomy q p with hqp | rfl | hpq
    · have := mul_add_lt hx hqp
      omega
    · exact ⟨rfl, by omega⟩
    · have hmul : (p + 1) * w ≤ q * w := Nat.mul_le_mul_right w hpq
      rw [Nat.succ_mul] at hmul
      omega
  · rintro ⟨rfl, hcx⟩
    omega

/-! ### Matrices -/

variable {α : Type}

/-- The matrix lies in the list, row by row. -/
structure RowMajor (buf : List α) (cells : Fin h → Fin w → α) : Prop where
  length : buf.length = w * h
  get : ∀ (y : Fin h) (x : Fin w), buf[y.val * w + x.val]? = some (cells y x)

/-- One cell of a matrix is replaced. -/
def setCell (cells : Fin h → Fin w → α) (y : Fin h) (x : Fin w) (c : α) : Fin h → Fin w → α :=
  fun y' x' => if y' = y ∧ x' = x then c else cells y' x'

/-- The place of a cell is in the list. -/
theorem RowMajor.lt {buf : List α} {cells : Fin h → Fin w → α} (hm : RowMajor buf cells)
    (y : Fin h) (x : Fin w) : y.val * w + x.val < buf.length := by
  rw [hm.length, Nat.mul_comm w]
  exact mul_add_lt x.isLt y.isLt

/-- **Writing the place of a cell** writes the cell. -/
theorem RowMajor.set {buf : List α} {cells : Fin h → Fin w → α} (hm : RowMajor buf cells)
    (y : Fin h) (x : Fin w) (c : α) :
    RowMajor (buf.set (y.val * w + x.val) c) (setCell cells y x c) := by
  refine ⟨List.length_set.trans hm.length, fun y' x' => ?_⟩
  rw [List.getElem?_set, setCell]
  simp only [mul_add_inj x.isLt x'.isLt]
  by_cases hcell : y' = y ∧ x' = x
  · obtain ⟨rfl, rfl⟩ := hcell
    rw [if_pos ⟨rfl, rfl⟩, if_pos (hm.lt _ _), if_pos ⟨rfl, rfl⟩]
  · rw [if_neg, if_neg hcell]
    · exact hm.get y' x'
    · rintro ⟨hy, hx⟩
      exact hcell ⟨Fin.ext hy.symm, Fin.ext hx.symm⟩

/-- A list holds one matrix. -/
theorem RowMajor.unique {buf : List α} {cells cells' : Fin h → Fin w → α}
    (hm : RowMajor buf cells) (hm' : RowMajor buf cells') : cells = cells' := by
  funext y x
  exact Option.some.inj ((hm.get y x).symm.trans (hm'.get y x))

end HydroxKernel
