import Mathlib.Data.Nat.Notation
import Mathlib.Logic.Basic

/-!
# Fields of a Word

A field is a run of bits of a word. A setter clears the bits of a mask and then inserts the bits
of a value, `word = (word & !mask) | bits`. It overwrites the fields that the mask covers, and
leaves those alone that neither the mask nor the value touches. A field that the value touches and
the mask does not keeps its old bits beside the new ones.

## Main results

* `field_written`, `field_kept`, `field_merged`: the three cases.
-/

namespace HydroxKernel

variable {n : ℕ}

/-- Clears the bits of a mask and inserts others. -/
def writeMasked (w mask bits : BitVec n) : BitVec n := (w &&& ~~~mask) ||| bits

/-- A bit of a word after a masked write. -/
theorem getLsbD_writeMasked (w mask bits : BitVec n) (i : ℕ) :
    (writeMasked w mask bits).getLsbD i =
      (w.getLsbD i && !mask.getLsbD i || bits.getLsbD i) := by
  rw [writeMasked, BitVec.getLsbD_or, BitVec.getLsbD_and, BitVec.getLsbD_not]
  by_cases hi : i < n
  · rw [decide_eq_true hi, Bool.true_and]
  · rw [BitVec.getLsbD_of_ge w i (Nat.not_lt.mp hi), Bool.false_and, Bool.false_and]

/-- The bits of a field after a masked write. -/
theorem getLsbD_field_writeMasked (w mask bits : BitVec n) (lo len i : ℕ) :
    ((writeMasked w mask bits).extractLsb' lo len).getLsbD i =
      ((w.extractLsb' lo len).getLsbD i && !(mask.extractLsb' lo len).getLsbD i ||
        (bits.extractLsb' lo len).getLsbD i) := by
  simp only [BitVec.getLsbD_extractLsb', getLsbD_writeMasked]
  by_cases hi : i < len
  · simp only [decide_eq_true hi, Bool.true_and]
  · simp only [decide_eq_false hi, Bool.false_and, Bool.or_self]

/-- **A field that the mask covers** is overwritten. -/
theorem field_written (w : BitVec n) {mask bits : BitVec n} {lo len : ℕ}
    (hmask : mask.extractLsb' lo len = BitVec.allOnes len) :
    (writeMasked w mask bits).extractLsb' lo len = bits.extractLsb' lo len := by
  refine BitVec.eq_of_getLsbD_eq fun i hi => ?_
  rw [getLsbD_field_writeMasked, hmask, BitVec.getLsbD_allOnes, decide_eq_true hi, Bool.not_true,
    Bool.and_false, Bool.false_or]

/-- **A field that the mask does not touch** keeps its old bits, beside the new ones. -/
theorem field_merged (w : BitVec n) {mask bits : BitVec n} {lo len : ℕ}
    (hmask : mask.extractLsb' lo len = 0) : (writeMasked w mask bits).extractLsb' lo len =
      w.extractLsb' lo len ||| bits.extractLsb' lo len := by
  refine BitVec.eq_of_getLsbD_eq fun i _ => ?_
  rw [getLsbD_field_writeMasked, hmask, BitVec.getLsbD_or, BitVec.ofNat_eq_ofNat,
    BitVec.getLsbD_zero, Bool.not_false, Bool.and_true]

/-- **A field that neither the mask nor the value touches** is left alone. -/
theorem field_kept (w : BitVec n) {mask bits : BitVec n} {lo len : ℕ}
    (hmask : mask.extractLsb' lo len = 0) (hbits : bits.extractLsb' lo len = 0) :
    (writeMasked w mask bits).extractLsb' lo len = w.extractLsb' lo len := by
  rw [field_merged w hmask, hbits, BitVec.ofNat_eq_ofNat, BitVec.or_zero]

/-- A bit that neither the mask nor the value touches is left alone. -/
theorem bit_kept (w : BitVec n) {mask bits : BitVec n} {i : ℕ}
    (hmask : mask.extractLsb' i 1 = 0) (hbits : bits.extractLsb' i 1 = 0) :
    (writeMasked w mask bits).getLsbD i = w.getLsbD i := by
  have hfield := congrArg (BitVec.getLsbD · 0) (field_kept w hmask hbits)
  simpa only [BitVec.getLsbD_extractLsb', Nat.zero_lt_one, decide_true, Bool.true_and,
    Nat.add_zero] using hfield

/-- A value within a mask has no bits in a field that the mask does not touch. -/
theorem field_of_within {mask bits : BitVec n} {lo len : ℕ} (h : bits &&& ~~~mask = 0)
    (hmask : mask.extractLsb' lo len = 0) : bits.extractLsb' lo len = 0 := by
  have hbits : writeMasked bits mask 0 = 0 := by
    rw [writeMasked, h, BitVec.ofNat_eq_ofNat, BitVec.or_zero]
  have hzero : (0 : BitVec n).extractLsb' lo len = 0 := by
    rw [BitVec.ofNat_eq_ofNat, BitVec.extractLsb'_zero, BitVec.ofNat_eq_ofNat]
  rw [← field_kept bits hmask hzero, hbits, hzero]

/-- Setting bits is a masked write. -/
theorem or_eq_writeMasked (w bits : BitVec n) : w ||| bits = writeMasked w 0 bits := by
  rw [writeMasked, BitVec.ofNat_eq_ofNat, BitVec.not_zero, BitVec.and_allOnes]

/-- Clearing bits is a masked write. -/
theorem and_not_eq_writeMasked (w mask : BitVec n) : w &&& ~~~mask = writeMasked w mask 0 := by
  rw [writeMasked, BitVec.ofNat_eq_ofNat, BitVec.or_zero]

end HydroxKernel
