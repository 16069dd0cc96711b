import Mathlib.Data.Finset.Card
import Mathlib.Data.Finset.Range
import Mathlib.Data.Nat.Bitwise
import Mathlib.Data.Nat.Count
import Mathlib.Order.Interval.Finset.Nat
import HydroxKernel.Lib.Assert

/-!
# Bit Vectors of a Fixed Length

`FixedBitVector` keeps a set of numbers below `N` in an array of words of 32 bits. All its
operations work on whole words with masks. This module shows what they do to the single bits:
`mem v i` is the bit of the number `i`.

The words past the end of the array are taken to be empty. The code never reads them, because
`getBitPos` rejects every index from `N` on.

## Main results

* `set_spec`, `setBetween_spec`: the bits after an update.
* `findNext_spec`: `findNext` returns the least member that is not below the start.
* `count_eq_card`: `count` is the number of members.
-/

namespace HydroxKernel.Util

/-- The panics of a bit vector. -/
inductive BitPanic
  /-- "out of bounds bitvector access". -/
  | outOfBounds
  /-- An arithmetic overflow. -/
  | overflow
  deriving DecidableEq

/-- `INNER_SIZE`: the number of words for `N` bits. -/
def innerSize (N : ℕ) : ℕ := (N + 31) / 32

/-- `FixedBitVector`. -/
structure FixedBitVector (N : ℕ) where
  contents : Vector (BitVec 32) (innerSize N)
  deriving DecidableEq

/-- `Bound`. -/
inductive Bound
  | included (idx : ℕ)
  | excluded (idx : ℕ)
  | unbounded

/-- The largest `usize`. -/
def usizeMax : ℕ := 2 ^ 64 - 1

namespace FixedBitVector

variable {N : ℕ}

/-- A word of the array. -/
def word (v : FixedBitVector N) (idx : ℕ) : BitVec 32 := v.contents[idx]?.getD 0

/-- Writes a word of the array. -/
def setWord (v : FixedBitVector N) (idx : ℕ) (w : BitVec 32) : FixedBitVector N :=
  ⟨v.contents.setIfInBounds idx w⟩

/-- The mask of the bits below `bit`: `(1 << bit) - 1`. -/
def maskBelow (bit : ℕ) : BitVec 32 := (1#32 <<< bit) - 1

/-- `new`. -/
def new (N : ℕ) (default : Bool) : FixedBitVector N :=
  if default then
    let v : FixedBitVector N := ⟨Vector.replicate _ (BitVec.allOnes 32)⟩
    let lastBits := N % 32
    if lastBits ≠ 0 then
      v.setWord (innerSize N - 1) (v.word (innerSize N - 1) &&& maskBelow lastBits)
    else v
  else ⟨Vector.replicate _ 0⟩

/-- `get_bit_pos`. -/
def getBitPos (N idx : ℕ) : Except BitPanic (ℕ × ℕ) := do
  ensure (idx < N) .outOfBounds
  .ok (idx >>> 5, idx &&& 31)

/-- `get_idx`. -/
def getIdx (idx bit : ℕ) : ℕ := (idx <<< 5) ||| bit

/-- `get`. -/
def get (v : FixedBitVector N) (idx : ℕ) : Except BitPanic Bool := do
  let (idx, bit) ← getBitPos N idx
  .ok (v.word idx &&& (1#32 <<< bit) != 0)

/-- `set`. It returns the old bit. -/
def set (v : FixedBitVector N) (idx : ℕ) (val : Bool) :
    Except BitPanic (Bool × FixedBitVector N) := do
  let (idx, bit) ← getBitPos N idx
  let oldVal := v.word idx &&& (1#32 <<< bit) != 0
  if val then .ok (oldVal, v.setWord idx (v.word idx ||| (1#32 <<< bit)))
  else .ok (oldVal, v.setWord idx (v.word idx &&& ~~~(1#32 <<< bit)))

/-- The mask of `set_range` for a word, without the bits before the start. -/
def startMask (startIdx startBit idx : ℕ) : BitVec 32 :=
  if idx = startIdx ∧ startBit ≠ 0 then BitVec.allOnes 32 &&& ~~~maskBelow startBit
  else BitVec.allOnes 32

/-- The mask of `set_range` for a word. -/
def rangeMask (startIdx startBit endIdx endBit idx : ℕ) : BitVec 32 :=
  if idx = endIdx ∧ endBit ≠ 31 then startMask startIdx startBit idx &&& maskBelow (endBit + 1)
  else startMask startIdx startBit idx

/-- The body of the loop of `set_range`. -/
def applyMask (val : Bool) (mask : ℕ → BitVec 32) (v : FixedBitVector N) (idx : ℕ) :
    FixedBitVector N :=
  if val then v.setWord idx (v.word idx ||| mask idx)
  else v.setWord idx (v.word idx &&& ~~~mask idx)

/-- The part of `set_range` after the bounds are known. -/
def setBetween (v : FixedBitVector N) (start last : ℕ) (val : Bool) :
    Except BitPanic (FixedBitVector N) :=
  if last ≤ start then .ok v
  else do
    let (startIdx, startBit) ← getBitPos N start
    let (endIdx, endBit) ← getBitPos N last
    .ok ((List.range' startIdx (endIdx + 1 - startIdx)).foldl
      (applyMask val (rangeMask startIdx startBit endIdx endBit)) v)

/-- `set_range`. -/
def setRange (v : FixedBitVector N) (startBound endBound : Bound) (val : Bool) :
    Except BitPanic (FixedBitVector N) := do
  let start : Option ℕ :=
    match startBound with
    | .excluded start => if start = usizeMax then none else some (start + 1)
    | .included start => some start
    | .unbounded => some 0
  match start with
  | none => .ok v
  | some start =>
      match endBound with
      | .excluded 0 => .ok v
      | .excluded (last + 1) => v.setBetween start last val
      | .included last => v.setBetween start last val
      | .unbounded => do
          ensure (N ≠ 0) .overflow
          v.setBetween start (N - 1) val

/-- `count`. -/
def count (v : FixedBitVector N) : ℕ :=
  (List.range (innerSize N)).foldl (fun count idx => count + (v.word idx).cpop.toNat) 0

/-- The loop of `find_next`, over the words that are left. -/
def findNextLoop (v : FixedBitVector N) : ℕ → ℕ → BitVec 32 → Option ℕ
  | 0, _, _ => none
  | left + 1, idx, mask =>
      let wordVal := v.word idx &&& mask
      if wordVal ≠ 0 then some (getIdx idx wordVal.ctz.toNat)
      else findNextLoop v left (idx + 1) (BitVec.allOnes 32)

/-- `find_next`. -/
def findNext (v : FixedBitVector N) (start : ℕ) : Option ℕ :=
  if N ≤ start then none
  else
    let idx := start >>> 5
    findNextLoop v (innerSize N - idx) idx (~~~maskBelow (start &&& 31))

/-! ### Single bits -/

/-- The bit of a number. -/
def mem (v : FixedBitVector N) (i : ℕ) : Bool := (v.word (i / 32)).getLsbD (i % 32)

/-- The members of a bit vector: the bits of all its words. -/
def members (v : FixedBitVector N) : Finset ℕ :=
  (Finset.range (32 * innerSize N)).filter fun i => v.mem i = true

/-- The word of an index is in the vector. -/
theorem div_lt_innerSize {i : ℕ} (h : i < N) : i / 32 < innerSize N := by
  rw [innerSize]
  omega

/-- The words after one was written. -/
theorem word_setWord (v : FixedBitVector N) {idx : ℕ} (h : idx < innerSize N) (w : BitVec 32)
    (k : ℕ) : (v.setWord idx w).word k = if k = idx then w else v.word k := by
  rw [word, setWord, Vector.getElem?_setIfInBounds]
  by_cases hk : idx = k
  · subst hk
    simp [h]
  · simp [hk, Ne.symm hk, word]

/-- There are no bits past the words. -/
theorem mem_of_ge (v : FixedBitVector N) {i : ℕ} (h : 32 * innerSize N ≤ i) : v.mem i = false := by
  have hnone : v.contents[i / 32]? = none := by
    rw [Vector.getElem?_eq_none]
    omega
  simp [mem, word, hnone]

/-- The members are the set bits. -/
theorem mem_members {v : FixedBitVector N} {i : ℕ} : i ∈ v.members ↔ v.mem i = true := by
  rw [members, Finset.mem_filter, Finset.mem_range, and_iff_right_iff_imp]
  intro h
  by_contra hge
  rw [mem_of_ge v (not_lt.mp hge)] at h
  exact Bool.noConfusion h

/-- The bits below `bit` are those of its mask. -/
theorem getLsbD_maskBelow {bit : ℕ} (h : bit < 32) (j : ℕ) :
    (maskBelow bit).getLsbD j = decide (j < bit) := by
  have hpos : 0 < 2 ^ bit := Nat.two_pow_pos bit
  have hlt : 2 ^ bit < 2 ^ 32 := Nat.pow_lt_pow_right (by decide) h
  have hval : (maskBelow bit).toNat = 2 ^ bit - 1 := by
    have hone : (1#32 <<< bit).toNat = 2 ^ bit := by
      rw [BitVec.toNat_shiftLeft, Nat.shiftLeft_eq, BitVec.toNat_ofNat, Nat.one_mod_eq_one.mpr
        (by decide), one_mul, Nat.mod_eq_of_lt hlt]
    have hle : (1 : BitVec 32).toNat ≤ (1#32 <<< bit).toNat := hone ▸ hpos
    rw [maskBelow, BitVec.toNat_sub_of_le hle, hone]
    rfl
  rw [BitVec.getLsbD, hval, Nat.testBit_two_pow_sub_one]

/-- The bits of the mask with one bit. -/
theorem getLsbD_oneBit {bit : ℕ} (h : bit < 32) (j : ℕ) :
    (1#32 <<< bit).getLsbD j = decide (j = bit) := by
  rw [BitVec.getLsbD_shiftLeft, BitVec.getLsbD_one]
  by_cases hj : j = bit
  · subst hj
    simp [h]
  · simp only [hj, decide_false]
    by_cases hlt : j < bit
    · simp [hlt]
    · have hne : j - bit ≠ 0 := by omega
      simp [hne]

/-- Testing a bit with a mask. -/
theorem and_oneBit_ne_zero (w : BitVec 32) {bit : ℕ} (h : bit < 32) :
    (w &&& (1#32 <<< bit) != 0) = w.getLsbD bit := by
  by_cases hw : w.getLsbD bit = true
  · rw [hw, bne_iff_ne]
    intro hzero
    have hbit := congrArg (BitVec.getLsbD · bit) hzero
    simp [getLsbD_oneBit h, hw] at hbit
  · rw [Bool.not_eq_true] at hw
    rw [hw, bne_eq_false_iff_eq]
    refine BitVec.eq_of_getLsbD_eq fun j hj => ?_
    rw [BitVec.getLsbD_and, getLsbD_oneBit h, BitVec.ofNat_eq_ofNat, BitVec.getLsbD_zero]
    by_cases hjb : j = bit
    · simp [hjb, hw]
    · simp [hjb]

/-- The place of an index that is in range. -/
theorem getBitPos_of_lt {i : ℕ} (h : i < N) : getBitPos N i = .ok (i / 32, i % 32) := by
  rw [getBitPos, ensure_pos h, ok_bind, Nat.shiftRight_eq_div_pow]
  exact congrArg _ (congrArg _ (Nat.and_two_pow_sub_one_eq_mod i 5))

/-- `get` returns the bit. -/
theorem get_of_lt (v : FixedBitVector N) {i : ℕ} (h : i < N) : v.get i = .ok (v.mem i) := by
  simp only [get, getBitPos_of_lt h, ok_bind, and_oneBit_ne_zero _ (Nat.mod_lt i (by decide)), mem]

/-- The bits after a word is written. -/
theorem mem_setWord (v : FixedBitVector N) {idx : ℕ} (h : idx < innerSize N) (w : BitVec 32)
    (j : ℕ) :
    (v.setWord idx w).mem j = if j / 32 = idx then w.getLsbD (j % 32) else v.mem j := by
  rw [mem, word_setWord v h]
  split_ifs
  · rfl
  · rfl

/-- **`set` writes one bit** and returns what was there. -/
theorem set_spec (v : FixedBitVector N) {i : ℕ} (h : i < N) (val : Bool) :
    ∃ v', v.set i val = .ok (v.mem i, v') ∧
      ∀ j, v'.mem j = if j = i then val else v.mem j := by
  have hbit : i % 32 < 32 := Nat.mod_lt i (by decide)
  have hold := and_oneBit_ne_zero (v.word (i / 32)) hbit
  have hmem : ∀ w : BitVec 32,
      (∀ k, w.getLsbD k = if k = i % 32 then val else (v.word (i / 32)).getLsbD k) →
      ∀ j, (v.setWord (i / 32) w).mem j = if j = i then val else v.mem j := by
    intro w hw j
    rw [mem_setWord v (div_lt_innerSize h), hw]
    by_cases hj : j = i
    · subst hj
      simp
    · by_cases hidx : j / 32 = i / 32
      · have hne : j % 32 ≠ i % 32 := by omega
        rw [if_pos hidx, if_neg hne, if_neg hj, mem, hidx]
      · rw [if_neg hidx, if_neg hj]
  cases val with
  | true =>
      refine ⟨v.setWord (i / 32) (v.word (i / 32) ||| (1#32 <<< (i % 32))), ?_, hmem _ fun k => ?_⟩
      · rw [set, getBitPos_of_lt h, ok_bind]
        simp only [hold, if_true, mem]
      · rw [BitVec.getLsbD_or, getLsbD_oneBit hbit]
        by_cases hk : k = i % 32
        · simp [hk]
        · simp [hk]
  | false =>
      refine ⟨v.setWord (i / 32) (v.word (i / 32) &&& ~~~(1#32 <<< (i % 32))), ?_,
        hmem _ fun k => ?_⟩
      · rw [set, getBitPos_of_lt h, ok_bind]
        simp only [hold, Bool.false_eq_true, if_false, mem]
      · rw [BitVec.getLsbD_and, BitVec.getLsbD_not, getLsbD_oneBit hbit]
        by_cases hk : k = i % 32
        · simp [hk]
        · by_cases hk32 : k < 32
          · simp [hk, hk32]
          · simp [hk, BitVec.getLsbD_of_ge _ k (not_lt.mp hk32)]

/-- A new bit vector without members. -/
theorem mem_new_false (i : ℕ) : (new N false).mem i = false := by
  have hword : (new N false).word (i / 32) = 0 := by
    rw [new, word]
    simp only [Bool.false_eq_true, if_false]
    by_cases hidx : i / 32 < innerSize N
    · simp [hidx]
    · simp [hidx]
  simp [mem, hword]

/-! ### Ranges -/

/-- The body of the loop of `setRange` writes the bits of its mask. -/
theorem mem_applyMask (v : FixedBitVector N) (val : Bool) (mask : ℕ → BitVec 32) {idx : ℕ}
    (h : idx < innerSize N) (j : ℕ) :
    (applyMask val mask v idx).mem j =
      if j / 32 = idx ∧ (mask idx).getLsbD (j % 32) = true then val else v.mem j := by
  have hj : j % 32 < 32 := Nat.mod_lt j (by decide)
  by_cases hidx : j / 32 = idx
  · subst hidx
    cases val with
    | true =>
        rw [applyMask, if_pos rfl, mem_setWord v h, if_pos rfl, BitVec.getLsbD_or, ← mem]
        by_cases hm : (mask (j / 32)).getLsbD (j % 32) = true
        · simp [hm]
        · simp [hm]
    | false =>
        rw [applyMask, if_neg Bool.false_ne_true, mem_setWord v h, if_pos rfl, BitVec.getLsbD_and,
          BitVec.getLsbD_not, ← mem]
        simp only [hj, decide_true, Bool.true_and, true_and]
        by_cases hm : (mask (j / 32)).getLsbD (j % 32) = true
        · rw [hm, if_pos rfl, Bool.not_true, Bool.and_false]
        · rw [if_neg hm, eq_false_of_ne_true hm, Bool.not_false, Bool.and_true]
  · rw [if_neg fun hc => hidx hc.1, applyMask]
    split_ifs
    · rw [mem_setWord v h, if_neg hidx]
    · rw [mem_setWord v h, if_neg hidx]

/-- The loop of `setRange` writes the bits of all its masks. -/
theorem mem_foldl_applyMask (val : Bool) (mask : ℕ → BitVec 32) {idxs : List ℕ}
    (h : ∀ idx ∈ idxs, idx < innerSize N) (v : FixedBitVector N) (j : ℕ) :
    (idxs.foldl (applyMask val mask) v).mem j =
      if j / 32 ∈ idxs ∧ (mask (j / 32)).getLsbD (j % 32) = true then val else v.mem j := by
  induction idxs generalizing v with
  | nil => simp
  | cons idx idxs ih =>
      rw [List.foldl_cons, ih (fun k hk => h k (List.mem_cons_of_mem _ hk)),
        mem_applyMask v val mask (h idx (List.mem_cons_self ..))]
      by_cases hm : (mask (j / 32)).getLsbD (j % 32) = true
      · by_cases hidx : j / 32 = idx
        · subst hidx
          simp [hm]
        · simp [hm, hidx]
      · have hne : ¬ (j / 32 = idx ∧ (mask idx).getLsbD (j % 32) = true) := by
          rintro ⟨rfl, hc⟩
          exact hm hc
        rw [if_neg fun hc => hm hc.2, if_neg hne, if_neg fun hc => hm hc.2]

/-- The mask of the first word of a range. -/
theorem getLsbD_startMask {start j : ℕ} (hstart : start / 32 ≤ j / 32) :
    (startMask (start / 32) (start % 32) (j / 32)).getLsbD (j % 32) = decide (start ≤ j) := by
  have hj : j % 32 < 32 := Nat.mod_lt j (by decide)
  rw [startMask]
  split_ifs with h
  · rw [BitVec.getLsbD_and, BitVec.getLsbD_not, getLsbD_maskBelow (Nat.mod_lt _ (by decide)),
      BitVec.getLsbD_allOnes]
    simp only [hj, decide_true, Bool.true_and, ← decide_not, decide_eq_decide]
    omega
  · rw [BitVec.getLsbD_allOnes, decide_eq_decide]
    omega

/-- The masks of `setRange` select the bits of the range. -/
theorem getLsbD_rangeMask {start last j : ℕ} (hstart : start / 32 ≤ j / 32)
    (hlast : j / 32 ≤ last / 32) :
    (rangeMask (start / 32) (start % 32) (last / 32) (last % 32) (j / 32)).getLsbD (j % 32) =
      decide (start ≤ j ∧ j ≤ last) := by
  rw [rangeMask]
  split_ifs with h
  · rw [BitVec.getLsbD_and, getLsbD_startMask hstart, getLsbD_maskBelow (by omega),
      ← Bool.decide_and, decide_eq_decide]
    omega
  · rw [getLsbD_startMask hstart, decide_eq_decide]
    omega

/-- **`setRange` writes the bits from `start` to `last`**, if there are at least two. -/
theorem setBetween_spec (v : FixedBitVector N) {start last : ℕ} (hlt : start < last)
    (hlast : last < N) (val : Bool) :
    ∃ v', v.setBetween start last val = .ok v' ∧
      ∀ j, v'.mem j = if start ≤ j ∧ j ≤ last then val else v.mem j := by
  have hstart : start < N := hlt.trans hlast
  refine ⟨(List.range' (start / 32) (last / 32 + 1 - start / 32)).foldl
    (applyMask val (rangeMask (start / 32) (start % 32) (last / 32) (last % 32))) v, ?_, ?_⟩
  · simp only [setBetween, if_neg (not_le.mpr hlt), getBitPos_of_lt hstart,
      getBitPos_of_lt hlast, ok_bind]
  · intro j
    have hidxs : ∀ idx ∈ List.range' (start / 32) (last / 32 + 1 - start / 32),
        idx < innerSize N := by
      intro idx hidx
      have hmem := List.mem_range'_1.mp hidx
      have hinner := div_lt_innerSize hlast
      omega
    rw [mem_foldl_applyMask val _ hidxs]
    refine if_congr ?_ rfl rfl
    rw [List.mem_range'_1]
    by_cases hj : start / 32 ≤ j / 32 ∧ j / 32 ≤ last / 32
    · rw [getLsbD_rangeMask hj.1 hj.2, decide_eq_true_iff]
      omega
    · constructor
      · omega
      · omega

/-- `setRange(..n)` for a range of at least two bits. -/
theorem setRange_to (v : FixedBitVector N) {n : ℕ} (h2 : 2 ≤ n) (hn : n ≤ N) (val : Bool) :
    ∃ v', v.setRange .unbounded (.excluded n) val = .ok v' ∧
      ∀ j, v'.mem j = if j < n then val else v.mem j := by
  obtain ⟨last, rfl⟩ : ∃ last, n = last + 1 := ⟨n - 1, by omega⟩
  obtain ⟨v', hok, hmem⟩ := setBetween_spec v (by omega : 0 < last) hn val
  refine ⟨v', hok, fun j => ?_⟩
  rw [hmem]
  exact if_congr (by omega) rfl rfl

/-! ### The next member -/

/-- The number of a bit of a word. -/
theorem getIdx_eq {idx bit : ℕ} (h : bit < 32) : getIdx idx bit = 32 * idx + bit := by
  have hlt : bit < 2 ^ 5 := h
  rw [getIdx, Nat.shiftLeft_eq, Nat.mul_comm, Nat.two_pow_add_eq_or_of_lt hlt]

/-- The loop of `findNext` looks at the bits of the first word that the mask selects, and at
all bits of the words after it. -/
theorem findNextLoop_spec (v : FixedBitVector N) {left idx : ℕ} (h : idx + left = innerSize N)
    (mask : BitVec 32) :
    (∃ i, v.findNextLoop left idx mask = some i ∧
        (idx ≤ i / 32 ∧ v.mem i = true ∧ (i / 32 = idx → mask.getLsbD (i % 32) = true)) ∧
        ∀ j, idx ≤ j / 32 → v.mem j = true → (j / 32 = idx → mask.getLsbD (j % 32) = true) →
          i ≤ j) ∨
      (v.findNextLoop left idx mask = none ∧
        ∀ j, idx ≤ j / 32 → v.mem j = true →
          ¬ (j / 32 = idx → mask.getLsbD (j % 32) = true)) := by
  induction left generalizing idx mask with
  | zero =>
      refine Or.inr ⟨rfl, fun j hj hmem => ?_⟩
      rw [mem_of_ge v (by omega)] at hmem
      exact absurd hmem Bool.false_ne_true
  | succ left ih =>
      rw [findNextLoop]
      have hbit : ∀ j, j / 32 = idx → v.mem j = true → mask.getLsbD (j % 32) = true →
          (v.word idx &&& mask).getLsbD (j % 32) = true := by
        intro j hj hmem hmask
        rw [mem, hj] at hmem
        rw [BitVec.getLsbD_and, hmem, hmask]
        rfl
      by_cases hzero : v.word idx &&& mask = 0
      · -- the word has no bit that the mask selects
        simp only [hzero, ne_eq, not_true_eq_false, if_false]
        have hnext : ∀ j, idx ≤ j / 32 → v.mem j = true →
            (j / 32 = idx → mask.getLsbD (j % 32) = true) → idx + 1 ≤ j / 32 := by
          intro j hj hmem hmask
          refine Nat.lt_of_le_of_ne hj fun heq => ?_
          have hset := hbit j heq.symm hmem (hmask heq.symm)
          rw [hzero] at hset
          simp at hset
        have hall : ∀ j, (BitVec.allOnes 32).getLsbD (j % 32) = true := fun j => by
          rw [BitVec.getLsbD_allOnes, decide_eq_true_iff]
          exact Nat.mod_lt j (by decide)
        rcases ih (by omega : idx + 1 + left = innerSize N) (BitVec.allOnes 32) with
          ⟨i, hi, ⟨hle, hmem, -⟩, hmin⟩ | ⟨hnone, hno⟩
        · refine Or.inl ⟨i, hi, ⟨by omega, hmem, fun heq => by omega⟩, fun j hj hmemj hmask => ?_⟩
          exact hmin j (hnext j hj hmemj hmask) hmemj fun _ => hall j
        · refine Or.inr ⟨hnone, fun j hj hmemj hmask => ?_⟩
          exact hno j (hnext j hj hmemj hmask) hmemj fun _ => hall j
      · simp only [hzero, ne_eq, not_false_eq_true, if_true]
        have hset := BitVec.getLsbD_true_ctz_of_ne_zero hzero
        generalize hctz : (v.word idx &&& mask).ctz.toNat = bit at hset
        have hlt : bit < 32 := BitVec.lt_of_getLsbD hset
        rw [BitVec.getLsbD_and, Bool.and_eq_true] at hset
        have hdiv : (32 * idx + bit) / 32 = idx := by omega
        have hmod : (32 * idx + bit) % 32 = bit := by omega
        refine Or.inl ⟨32 * idx + bit, by rw [getIdx_eq hlt], ⟨hdiv.ge, ?_, fun _ => ?_⟩,
          fun j hj hmem hmask => ?_⟩
        · rw [mem, hdiv, hmod]
          exact hset.1
        · rw [hmod]
          exact hset.2
        · by_cases heq : j / 32 = idx
          · have hle : bit ≤ j % 32 := by
              by_contra hnot
              have hfalse := BitVec.getLsbD_false_of_lt_ctz (hctz ▸ not_le.mp hnot)
              rw [hbit j heq hmem (hmask heq)] at hfalse
              exact absurd hfalse.symm Bool.false_ne_true
            omega
          · omega

/-- **`findNext` returns the least member that is not below the start**, or nothing if there
is none. -/
theorem findNext_spec (v : FixedBitVector N) {start : ℕ} (h : start < N) :
    (∃ i, v.findNext start = some i ∧ start ≤ i ∧ v.mem i = true ∧
        ∀ j, start ≤ j → v.mem j = true → i ≤ j) ∨
      (v.findNext start = none ∧ ∀ j, start ≤ j → v.mem j = false) := by
  have hidx : start >>> 5 = start / 32 := Nat.shiftRight_eq_div_pow start 5
  have hbit : start &&& 31 = start % 32 := Nat.and_two_pow_sub_one_eq_mod start 5
  have hmask : ∀ j, (~~~maskBelow (start % 32)).getLsbD (j % 32) =
      decide (start % 32 ≤ j % 32) := fun j => by
    rw [BitVec.getLsbD_not, getLsbD_maskBelow (Nat.mod_lt _ (by decide))]
    simp only [Nat.mod_lt j (by decide : 32 > 0), decide_true, Bool.true_and, ← decide_not, not_lt]
  have hle : ∀ j, start ≤ j → start / 32 ≤ j / 32 ∧
      (j / 32 = start / 32 → (~~~maskBelow (start % 32)).getLsbD (j % 32) = true) := by
    intro j hj
    refine ⟨by omega, fun heq => ?_⟩
    rw [hmask, decide_eq_true_iff]
    omega
  have hinner := div_lt_innerSize h
  rw [findNext, if_neg (not_le.mpr h)]
  simp only [hidx, hbit]
  rcases findNextLoop_spec v (by omega : start / 32 + (innerSize N - start / 32) = innerSize N)
    (~~~maskBelow (start % 32)) with ⟨i, hi, ⟨hge, hmem, hsel⟩, hmin⟩ | ⟨hnone, hno⟩
  · refine Or.inl ⟨i, hi, ?_, hmem, fun j hj hmemj => hmin j (hle j hj).1 hmemj (hle j hj).2⟩
    by_cases heq : i / 32 = start / 32
    · have hselected := hsel heq
      rw [hmask, decide_eq_true_iff] at hselected
      omega
    · omega
  · refine Or.inr ⟨hnone, fun j hj => ?_⟩
    rw [← Bool.not_eq_true]
    exact fun hmem => hno j (hle j hj).1 hmem (hle j hj).2

/-! ### The number of members -/

/-- `count_ones` of a word. -/
theorem cpopNatRec_eq_count (w : BitVec 32) (n : ℕ) :
    w.cpopNatRec n 0 = Nat.count (fun j => w.getLsbD j = true) n := by
  induction n with
  | zero => rfl
  | succ n ih =>
      rw [BitVec.cpopNatRec_succ, BitVec.cpopNatRec_eq, ih, Nat.count_succ, Nat.zero_add]
      cases w.getLsbD n <;> rfl

/-- **`count` is the number of members.** -/
theorem count_eq_card (v : FixedBitVector N) : v.count = v.members.card := by
  rw [members, ← Nat.count_eq_card_filter_range, count]
  generalize innerSize N = n
  induction n with
  | zero => rfl
  | succ n ih =>
      have hword : (v.word n).cpop.toNat =
          Nat.count (fun j => v.mem (32 * n + j) = true) 32 := by
        rw [BitVec.toNat_cpop, cpopNatRec_eq_count, Nat.count_eq_card_filter_range,
          Nat.count_eq_card_filter_range]
        refine congrArg Finset.card (Finset.filter_congr fun j hj => ?_)
        have hlt := Finset.mem_range.mp hj
        rw [mem, (by omega : (32 * n + j) / 32 = n), (by omega : (32 * n + j) % 32 = j)]
      rw [List.range_succ, List.foldl_append, ih, List.foldl_cons, List.foldl_nil, hword,
        Nat.mul_succ, Nat.count_add]

end FixedBitVector

end HydroxKernel.Util
