import Mathlib.Data.UInt
import Mathlib.Tactic.Common

/-!
# Byte Memory

A memory of bytes, with the ways in which code writes more than one byte: filling a range,
copying one, and storing a word of four bytes, the least significant byte first.

## Main results

* `readWord_writeWord`: a stored word is read back.
* `readSlice_writeSlice`: a stored slice is read back.
* `fill_of_notMem`, `copy_of_notMem`, `writeWord_of_notMem` and `readSlice_writeSlice_of_disjoint`:
  nothing else is written.
-/

namespace HydroxKernel

/-- The contents of a memory. -/
abbrev Bytes := ℕ → UInt8

namespace Bytes

variable {m m' : Bytes} {a n x v : ℕ} {b : UInt8}

/-- `ptr::write_bytes`: `n` bytes from the address `a` on. -/
def fill (m : Bytes) (a n : ℕ) (b : UInt8) : Bytes :=
  fun x => if a ≤ x ∧ x < a + n then b else m x

/-- `ptr::copy_nonoverlapping`: `n` bytes from the address `src` to the address `dst`. -/
def copy (m : Bytes) (src dst n : ℕ) : Bytes :=
  fun x => if dst ≤ x ∧ x < dst + n then m (src + (x - dst)) else m x

/-- Stores a word of four bytes. -/
def writeWord (m : Bytes) (a v : ℕ) : Bytes :=
  fun x => if a ≤ x ∧ x < a + 4 then UInt8.ofNat (v / 256 ^ (x - a)) else m x

/-- Loads a word of four bytes. -/
def readWord (m : Bytes) (a : ℕ) : ℕ :=
  (m a).toNat + (m (a + 1)).toNat * 256 + (m (a + 2)).toNat * 256 ^ 2 +
    (m (a + 3)).toNat * 256 ^ 3

/-- Filling a range writes nothing outside of it. -/
theorem fill_of_notMem (h : x < a ∨ a + n ≤ x) : m.fill a n b x = m x := by
  rw [fill, if_neg]
  omega

/-- Copied bytes are found at their new place. -/
theorem copy_add {src dst i : ℕ} (h : i < n) : m.copy src dst n (dst + i) = m (src + i) := by
  rw [copy, if_pos (by omega), Nat.add_sub_cancel_left]

/-- Copying writes nothing else. -/
theorem copy_of_notMem {src dst : ℕ} (h : x < dst ∨ dst + n ≤ x) : m.copy src dst n x = m x := by
  rw [copy, if_neg]
  omega

/-- Storing a word writes nothing else. -/
theorem writeWord_of_notMem (h : x < a ∨ a + 4 ≤ x) : m.writeWord a v x = m x := by
  rw [writeWord, if_neg]
  omega

/-- A word depends on its four bytes only. -/
theorem readWord_congr (h : ∀ i < 4, m' (a + i) = m (a + i)) : m'.readWord a = m.readWord a := by
  have h0 := h 0 (by omega)
  rw [Nat.add_zero] at h0
  rw [readWord, readWord, h0, h 1 (by omega), h 2 (by omega), h 3 (by omega)]

/-- **A stored word is read back.** -/
theorem readWord_writeWord (hv : v < 2 ^ 32) : (m.writeWord a v).readWord a = v := by
  have hbyte : ∀ i < 4, (m.writeWord a v (a + i)).toNat = v / 256 ^ i % 256 := by
    intro i hi
    rw [writeWord, if_pos (by omega), Nat.add_sub_cancel_left, UInt8.toNat_ofNat']
  have h0 := hbyte 0 (by omega)
  rw [Nat.add_zero] at h0
  rw [readWord, h0, hbyte 1 (by omega), hbyte 2 (by omega), hbyte 3 (by omega)]
  omega

/-! ### Slices -/

/-- Loads a slice of `n` bytes. -/
def readSlice (m : Bytes) (a n : ℕ) : Vector UInt8 n := Vector.ofFn fun i => m (a + i)

/-- Stores a slice. -/
def writeSlice (m : Bytes) (a : ℕ) (v : Vector UInt8 n) : Bytes :=
  fun x => if h : a ≤ x ∧ x < a + n then v.get ⟨x - a, by omega⟩ else m x

/-- A slice depends on its bytes only. -/
theorem readSlice_congr (h : ∀ i < n, m' (a + i) = m (a + i)) :
    m'.readSlice a n = m.readSlice a n := by
  refine Vector.ext fun i hi => ?_
  rw [readSlice, readSlice, Vector.getElem_ofFn, Vector.getElem_ofFn, h i hi]

/-- **A stored slice is read back.** -/
theorem readSlice_writeSlice (v : Vector UInt8 n) : (m.writeSlice a v).readSlice a n = v := by
  refine Vector.ext fun i hi => ?_
  rw [readSlice, Vector.getElem_ofFn, writeSlice, dif_pos (by omega)]
  simp only [Nat.add_sub_cancel_left]
  rfl

/-- A slice that lies beside the one that is stored is left alone. -/
theorem readSlice_writeSlice_of_disjoint {k : ℕ} (v : Vector UInt8 k) {a' : ℕ}
    (h : a' + n ≤ a ∨ a + k ≤ a') : (m.writeSlice a v).readSlice a' n = m.readSlice a' n := by
  refine readSlice_congr fun i hi => ?_
  rw [writeSlice, dif_neg]
  omega

/-- A slice within a range that is filled. -/
theorem readSlice_fill {a' k : ℕ} (h : a ≤ a' ∧ a' + k ≤ a + n) :
    (m.fill a n b).readSlice a' k = Vector.replicate k b := by
  refine Vector.ext fun i hi => ?_
  rw [readSlice, Vector.getElem_ofFn, fill, if_pos (by omega), Vector.getElem_replicate]

end Bytes

end HydroxKernel
