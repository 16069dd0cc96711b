import HydroxKernel.Util.BitVector
import Mathlib.Data.Finset.Sort

/-!
# Bit Vectors as Sets

The operations of `FixedBitVector` that combine whole vectors, resize one or list its members.
Each works on words, so each has to leave the bits of the last word that no index below `N` names
clear. A vector that is built by the operations has no such bit, and then it is the same as the
set of its members.

## Main results

* `Built.members_lt`: a vector that is built by the operations has only members below `N`.
* `built_actsAsSet`: every operation on such a vector is that of its set.
* `setRange_iff`: when `setRange` writes the bits of its range and no others.
-/

namespace HydroxKernel.Util

namespace FixedBitVector

variable {N : ℕ}

/-- The masking of the last word, at the end of `invert` and `resize`. -/
def maskLast (v : FixedBitVector N) : FixedBitVector N :=
  let lastBits := N % 32
  if lastBits ≠ 0 then
    v.setWord (innerSize N - 1) (v.word (innerSize N - 1) &&& maskBelow lastBits)
  else v

/-- `invert`. -/
def invert (v : FixedBitVector N) : FixedBitVector N :=
  maskLast ⟨v.contents.map (· ^^^ BitVec.allOnes 32)⟩

/-- The loop of the assigning operators, over the words of both vectors. -/
def zipWords (f : BitVec 32 → BitVec 32 → BitVec 32) (v rhs : FixedBitVector N) :
    FixedBitVector N :=
  ⟨Vector.zipWith f v.contents rhs.contents⟩

/-- `bitand`. -/
def bitand (v rhs : FixedBitVector N) : FixedBitVector N := zipWords (· &&& ·) v rhs

/-- `bitor`. -/
def bitor (v rhs : FixedBitVector N) : FixedBitVector N := zipWords (· ||| ·) v rhs

/-- `sub`. -/
def sub (v rhs : FixedBitVector N) : FixedBitVector N := zipWords (fun w r => w &&& ~~~r) v rhs

/-- `not`. -/
def not (v : FixedBitVector N) : FixedBitVector N := v.invert

/-- `resize`. -/
def resize (v : FixedBitVector N) (M : ℕ) : FixedBitVector M :=
  if N ≤ M then ⟨Vector.ofFn fun idx => if idx < innerSize N then v.word idx else 0⟩
  else maskLast ⟨Vector.ofFn fun idx => v.word idx⟩

end FixedBitVector

/-- `FixedBitVectorIter`. -/
structure FixedBitVectorIter (N : ℕ) where
  bv : FixedBitVector N
  start : ℕ

/-- `iter`. -/
def FixedBitVector.iter {N : ℕ} (v : FixedBitVector N) : FixedBitVectorIter N := ⟨v, 0⟩

namespace FixedBitVectorIter

variable {N : ℕ}

/-- `next`. -/
def next (it : FixedBitVectorIter N) : Option ℕ × FixedBitVectorIter N :=
  match it.bv.findNext it.start with
  | some idx => (some idx, ⟨it.bv, idx + 1⟩)
  | none => (none, ⟨it.bv, N⟩)

/-- What a number of calls of `next` return. -/
def nexts : ℕ → FixedBitVectorIter N → List (Option ℕ)
  | 0, _ => []
  | k + 1, it => it.next.1 :: nexts k it.next.2

end FixedBitVectorIter

namespace FixedBitVector

variable {N : ℕ}

/-- The values that the operations build, from vectors of all sizes. -/
inductive Built : {N : ℕ} → FixedBitVector N → Prop
  | new (N : ℕ) (default : Bool) : Built (new N default)
  | set {N i : ℕ} {v v' : FixedBitVector N} {val old : Bool} :
      Built v → v.set i val = .ok (old, v') → Built v'
  | setRange {N : ℕ} {v v' : FixedBitVector N} {startBound endBound : Bound} {val : Bool} :
      Built v → v.setRange startBound endBound val = .ok v' → Built v'
  | invert {N : ℕ} {v : FixedBitVector N} : Built v → Built v.invert
  | bitand {N : ℕ} {v w : FixedBitVector N} : Built v → Built w → Built (v.bitand w)
  | bitor {N : ℕ} {v w : FixedBitVector N} : Built v → Built w → Built (v.bitor w)
  | sub {N : ℕ} {v w : FixedBitVector N} : Built v → Built w → Built (v.sub w)
  | not {N : ℕ} {v : FixedBitVector N} : Built v → Built v.not
  | resize {N : ℕ} {v : FixedBitVector N} (M : ℕ) : Built v → Built (v.resize M)

/-- All members are below `N`. -/
def Below (v : FixedBitVector N) : Prop := ∀ i, v.mem i = true → i < N

/-! ### Words and bits -/

/-- Two vectors with the same bits are the same. -/
theorem ext_mem {v w : FixedBitVector N} (h : ∀ i, v.mem i = w.mem i) : v = w := by
  have hword : ∀ idx, v.word idx = w.word idx := by
    intro idx
    refine BitVec.eq_of_getLsbD_eq fun bit hbit => ?_
    have hmem := h (32 * idx + bit)
    rwa [mem, mem, (by omega : (32 * idx + bit) / 32 = idx),
      (by omega : (32 * idx + bit) % 32 = bit)] at hmem
  obtain ⟨vs⟩ := v
  obtain ⟨ws⟩ := w
  congr 1
  refine Vector.ext fun idx hidx => ?_
  simpa [word, hidx] using hword idx

/-- A bit of a vector that is given by its words. -/
theorem mem_mk {ws : Vector (BitVec 32) (innerSize N)} {f : ℕ → BitVec 32}
    (h : ∀ idx (hidx : idx < innerSize N), ws[idx] = f idx) {i : ℕ} (hi : i / 32 < innerSize N) :
    (mk ws).mem i = (f (i / 32)).getLsbD (i % 32) := by
  rw [mem, word, Vector.getElem?_eq_getElem hi, Option.getD_some, h]

/-- The words of a vector cover its indices. -/
theorem lt_of_div_lt {i : ℕ} (h : i / 32 < innerSize N) (hlast : N % 32 = 0 ∨
    i / 32 ≠ innerSize N - 1 ∨ i % 32 < N % 32) : i < N := by
  rw [innerSize] at h hlast
  omega

/-- The bits after the last word is masked. -/
theorem mem_maskLast (v : FixedBitVector N) (i : ℕ) :
    v.maskLast.mem i = (v.mem i && decide (i < N)) := by
  by_cases hidx : i / 32 < innerSize N
  · rw [maskLast]
    split_ifs with hlast
    · have hpos : innerSize N - 1 < innerSize N := by omega
      rw [mem_setWord v hpos]
      split_ifs with heq
      · rw [BitVec.getLsbD_and, getLsbD_maskBelow (Nat.mod_lt N (by decide)), mem, heq]
        congr 1
        rw [decide_eq_decide]
        rw [innerSize] at heq hidx
        omega
      · rw [decide_eq_true (lt_of_div_lt hidx (.inr (.inl heq))), Bool.and_true]
    · rw [decide_eq_true (lt_of_div_lt hidx (.inl (not_not.mp hlast))), Bool.and_true]
  · have hge : 32 * innerSize N ≤ i := by omega
    rw [mem_of_ge _ hge, mem_of_ge _ hge, Bool.false_and]

/-- The bits of a vector that an operator makes of two. -/
theorem mem_zipWords {f : BitVec 32 → BitVec 32 → BitVec 32} {g : Bool → Bool → Bool}
    (hf : ∀ a b j, j < 32 → (f a b).getLsbD j = g (a.getLsbD j) (b.getLsbD j))
    (hg : g false false = false) (v rhs : FixedBitVector N) (i : ℕ) :
    (zipWords f v rhs).mem i = g (v.mem i) (rhs.mem i) := by
  by_cases hidx : i / 32 < innerSize N
  · have hword : ∀ u : FixedBitVector N, u.contents[i / 32] = u.word (i / 32) := by
      intro u
      rw [word, Vector.getElem?_eq_getElem hidx, Option.getD_some]
    rw [zipWords, mem, word, Vector.getElem?_eq_getElem hidx, Option.getD_some,
      Vector.getElem_zipWith, hf _ _ _ (Nat.mod_lt i (by decide)), hword, hword, mem, mem]
  · have hge : 32 * innerSize N ≤ i := by omega
    rw [mem_of_ge _ hge, mem_of_ge _ hge, mem_of_ge _ hge, hg]

/-! ### What the operations do to the bits -/

/-- `&` has the bits that both have. -/
theorem mem_bitand (v w : FixedBitVector N) (i : ℕ) :
    (v.bitand w).mem i = (v.mem i && w.mem i) :=
  mem_zipWords (fun _ _ _ _ => BitVec.getLsbD_and) rfl v w i

/-- `|` has the bits that one has. -/
theorem mem_bitor (v w : FixedBitVector N) (i : ℕ) :
    (v.bitor w).mem i = (v.mem i || w.mem i) :=
  mem_zipWords (fun _ _ _ _ => BitVec.getLsbD_or) rfl v w i

/-- `-` has the bits that the first has and the second has not. -/
theorem mem_sub (v w : FixedBitVector N) (i : ℕ) :
    (v.sub w).mem i = (v.mem i && !w.mem i) := by
  refine mem_zipWords (g := fun a b => a && !b) (fun a b j hj => ?_) rfl v w i
  rw [BitVec.getLsbD_and, BitVec.getLsbD_not, decide_eq_true hj, Bool.true_and]

/-- `!` has the bits in range that the vector has not. -/
theorem mem_invert (v : FixedBitVector N) (i : ℕ) :
    v.invert.mem i = (!v.mem i && decide (i < N)) := by
  rw [invert, mem_maskLast]
  by_cases hi : i < N
  · have hidx := div_lt_innerSize hi
    rw [mem_mk (f := fun idx => v.word idx ^^^ BitVec.allOnes 32) ?_ hidx, BitVec.getLsbD_xor,
      BitVec.getLsbD_allOnes, decide_eq_true (Nat.mod_lt i (by decide)), Bool.xor_true, mem]
    intro idx hidx
    rw [Vector.getElem_map, word, Vector.getElem?_eq_getElem hidx, Option.getD_some]
  · rw [decide_eq_false hi, Bool.and_false, Bool.and_false]

/-- `resize` keeps the bits below the new size. -/
theorem mem_resize {v : FixedBitVector N} (hv : Below v) (M i : ℕ) :
    (v.resize M).mem i = (v.mem i && decide (i < M)) := by
  have hpast : ∀ u : FixedBitVector M, ¬ i / 32 < innerSize M → u.mem i = false :=
    fun u hidx => mem_of_ge u (by omega)
  have hge : ¬ i / 32 < innerSize M → decide (i < M) = false := by
    intro hidx
    exact decide_eq_false fun hlt => hidx (div_lt_innerSize hlt)
  rw [resize]
  split_ifs with hNM
  · by_cases hidx : i / 32 < innerSize M
    · rw [mem_mk (f := fun idx => if idx < innerSize N then v.word idx else 0) (by simp) hidx]
      by_cases hmem : v.mem i = true
      · have hN := hv i hmem
        rw [if_pos (div_lt_innerSize hN), ← mem, decide_eq_true (hN.trans_le hNM), Bool.and_true]
      · rw [Bool.not_eq_true] at hmem
        rw [hmem, Bool.false_and]
        split_ifs
        · exact hmem
        · exact BitVec.getLsbD_zero
    · rw [hpast _ hidx, hge hidx, Bool.and_false]
  · rw [mem_maskLast]
    by_cases hidx : i / 32 < innerSize M
    · rw [mem_mk (f := v.word) (by simp) hidx, ← mem]
    · rw [hpast _ hidx, hge hidx, Bool.and_false, Bool.and_false]

/-- A new vector of set bits has all bits in range. -/
theorem mem_new_true (i : ℕ) : (new N true).mem i = decide (i < N) := by
  have hnew : new N true = maskLast ⟨Vector.replicate _ (BitVec.allOnes 32)⟩ := rfl
  rw [hnew, mem_maskLast]
  by_cases hi : i < N
  · rw [mem_mk (f := fun _ => BitVec.allOnes 32) (by simp) (div_lt_innerSize hi),
      BitVec.getLsbD_allOnes, decide_eq_true (Nat.mod_lt i (by decide)), Bool.true_and]
  · rw [decide_eq_false hi, Bool.and_false]

/-- An index out of range has no place. -/
theorem getBitPos_of_ge {i : ℕ} (h : N ≤ i) : getBitPos N i = .error .outOfBounds := by
  rw [getBitPos, ensure_neg (not_lt.mpr h), error_bind]

/-- `set` panics for an index that is not below `N`. -/
theorem set_of_ge (v : FixedBitVector N) {i : ℕ} (h : N ≤ i) (val : Bool) :
    v.set i val = .error .outOfBounds := by
  rw [set, getBitPos_of_ge h, error_bind]

/-- `get` panics for an index that is not below `N`. -/
theorem get_of_ge (v : FixedBitVector N) {i : ℕ} (h : N ≤ i) : v.get i = .error .outOfBounds := by
  rw [get, getBitPos_of_ge h, error_bind]

/-- `getBitPos` returns only for an index below `N`. -/
theorem lt_of_getBitPos_eq_ok {i : ℕ} {r : ℕ × ℕ} (h : getBitPos N i = .ok r) : i < N :=
  (ensure_bind_eq_ok.mp h).1

/-! ### Ranges -/

/-- The first index of a range, if there is one. -/
def firstIndex : Bound → Option ℕ
  | .excluded start => if start = usizeMax then none else some (start + 1)
  | .included start => some start
  | .unbounded => some 0

/-- The last index of a range, if there is one. -/
def lastIndex (N : ℕ) : Bound → Option ℕ
  | .excluded 0 => none
  | .excluded (last + 1) => some last
  | .included last => some last
  | .unbounded => some (N - 1)

/-- `setRange`, by the first index of its range. -/
theorem setRange_def (v : FixedBitVector N) (startBound endBound : Bound) (val : Bool) :
    v.setRange startBound endBound val =
      match firstIndex startBound with
      | none => .ok v
      | some start =>
          match endBound with
          | .excluded 0 => .ok v
          | .excluded (last + 1) => v.setBetween start last val
          | .included last => v.setBetween start last val
          | .unbounded =>
              ensure (N ≠ 0) .overflow >>= fun _ => v.setBetween start (N - 1) val := rfl

/-- `setRange` writes from the first to the last index. -/
theorem setRange_eq (hN : N ≠ 0) (v : FixedBitVector N) (startBound endBound : Bound)
    (val : Bool) : v.setRange startBound endBound val =
      match firstIndex startBound, lastIndex N endBound with
      | some start, some last => v.setBetween start last val
      | _, _ => .ok v := by
  rw [setRange_def]
  cases firstIndex startBound with
  | none => rfl
  | some start =>
      cases endBound with
      | included last => rfl
      | excluded last =>
          cases last with
          | zero => rfl
          | succ last => rfl
      | unbounded =>
          simp only [ensure_pos hN, ok_bind]
          rfl

/-! ### Members -/

/-- A bit is set if it is a member. -/
theorem mem_eq_decide (v : FixedBitVector N) (i : ℕ) : v.mem i = decide (i ∈ v.members) := by
  rw [Bool.eq_iff_iff, decide_eq_true_iff, mem_members]

/-- The members of a new vector: all or none. -/
theorem members_new (default : Bool) :
    (new N default).members = if default then Finset.range N else ∅ := by
  ext i
  rw [mem_members]
  cases default with
  | true => simp [mem_new_true]
  | false => simp [mem_new_false]

/-- `&` is the intersection. -/
theorem members_bitand (v w : FixedBitVector N) :
    (v.bitand w).members = v.members ∩ w.members := by
  ext i
  simp only [mem_members, mem_bitand, Finset.mem_inter, Bool.and_eq_true]

/-- `|` is the union. -/
theorem members_bitor (v w : FixedBitVector N) :
    (v.bitor w).members = v.members ∪ w.members := by
  ext i
  simp only [mem_members, mem_bitor, Finset.mem_union, Bool.or_eq_true]

/-- `-` is the difference. -/
theorem members_sub (v w : FixedBitVector N) :
    (v.sub w).members = v.members \ w.members := by
  ext i
  simp only [mem_members, mem_sub, Finset.mem_sdiff, Bool.and_eq_true, Bool.not_eq_true',
    Bool.not_eq_true]

/-- `!` is the complement. -/
theorem members_invert (v : FixedBitVector N) :
    v.invert.members = Finset.range N \ v.members := by
  ext i
  simp only [mem_members, mem_invert, Finset.mem_sdiff, Finset.mem_range, Bool.and_eq_true,
    Bool.not_eq_true', Bool.not_eq_true, decide_eq_true_iff, and_comm]

/-- `resize` keeps the members below the new size. -/
theorem members_resize {v : FixedBitVector N} (hv : Below v) (M : ℕ) :
    (v.resize M).members = v.members.filter (· < M) := by
  ext i
  simp only [mem_members, mem_resize hv, Finset.mem_filter, Bool.and_eq_true, decide_eq_true_iff]

/-! ### Vectors that are built by the operations -/

/-- `setRange` leaves the vector alone, or writes a range of at least two indices below `N`. -/
theorem setRange_cases (hN : N ≠ 0) {v v' : FixedBitVector N} {startBound endBound : Bound}
    {val : Bool} (h : v.setRange startBound endBound val = .ok v') :
    v' = v ∨ ∃ start last, start < last ∧ last < N ∧ v.setBetween start last val = .ok v' := by
  rw [setRange_eq hN] at h
  split at h
  · rename_i start last _ _
    by_cases hle : last ≤ start
    · rw [setBetween, if_pos hle] at h
      exact .inl (Except.ok.inj h).symm
    · have hrest := h
      rw [setBetween, if_neg hle] at hrest
      obtain ⟨_, -, hrest⟩ := bind_eq_ok.mp hrest
      obtain ⟨_, hlast, -⟩ := bind_eq_ok.mp hrest
      exact .inr ⟨start, last, not_le.mp hle, lt_of_getBitPos_eq_ok hlast, h⟩
  · exact .inl (Except.ok.inj h).symm

/-- `set` sets no bit out of range. -/
theorem Below.set {v v' : FixedBitVector N} {i : ℕ} {val old : Bool} (h : Below v)
    (hset : v.set i val = .ok (old, v')) : Below v' := by
  have hi : i < N := by
    rw [FixedBitVector.set] at hset
    obtain ⟨_, hpos, -⟩ := bind_eq_ok.mp hset
    exact lt_of_getBitPos_eq_ok hpos
  obtain ⟨v'', hok, hmem⟩ := set_spec v hi val
  rw [hok] at hset
  obtain ⟨-, rfl⟩ := Prod.mk.inj (Except.ok.inj hset)
  intro j hj
  rw [hmem] at hj
  split_ifs at hj with heq
  · exact heq ▸ hi
  · exact h j hj

/-- `set_range` sets no bit out of range. -/
theorem Below.setRange {v v' : FixedBitVector N} {startBound endBound : Bound} {val : Bool}
    (h : Below v) (hset : v.setRange startBound endBound val = .ok v') : Below v' := by
  by_cases hN : N = 0
  · intro j hj
    rw [mem_of_ge v' (by simp [hN, innerSize])] at hj
    exact absurd hj Bool.false_ne_true
  rcases setRange_cases hN hset with rfl | ⟨start, last, hlt, hlast, hbetween⟩
  · exact h
  · obtain ⟨v'', hok, hmem⟩ := setBetween_spec v hlt hlast val
    obtain rfl := Except.ok.inj (hok.symm.trans hbetween)
    intro j hj
    rw [hmem] at hj
    split_ifs at hj with hrange
    · exact hrange.2.trans_lt hlast
    · exact h j hj

/-- **A vector that is built by the operations** has only members below `N`. -/
theorem Built.members_lt {v : FixedBitVector N} (h : Built v) : Below v := by
  induction h with
  | new N default =>
      intro i hi
      rw [← mem_members, members_new] at hi
      cases default with
      | true => exact Finset.mem_range.mp hi
      | false => exact absurd hi (Finset.notMem_empty i)
  | set _ hset ih => exact ih.set hset
  | setRange _ hset ih => exact ih.setRange hset
  | @invert N v _ _ =>
      intro i hi
      rw [mem_invert, Bool.and_eq_true, decide_eq_true_iff] at hi
      exact hi.2
  | @bitand N v w _ _ ihv _ =>
      intro i hi
      rw [mem_bitand, Bool.and_eq_true] at hi
      exact ihv i hi.1
  | @bitor N v w _ _ ihv ihw =>
      intro i hi
      rw [mem_bitor, Bool.or_eq_true] at hi
      exact hi.elim (ihv i) (ihw i)
  | @sub N v w _ _ ihv _ =>
      intro i hi
      rw [mem_sub, Bool.and_eq_true] at hi
      exact ihv i hi.1
  | @not N v _ _ =>
      intro i hi
      rw [FixedBitVector.not, mem_invert, Bool.and_eq_true, decide_eq_true_iff] at hi
      exact hi.2
  | @resize N v M _ ih =>
      intro i hi
      rw [mem_resize ih, Bool.and_eq_true, decide_eq_true_iff] at hi
      exact hi.2

/-! ### The iterator -/

/-- The members that are not below a number. -/
def membersFrom (v : FixedBitVector N) (start : ℕ) : Finset ℕ := v.members.filter (start ≤ ·)

/-- The iterator returns the least member that is left, and goes on after it. -/
theorem next_spec {v : FixedBitVector N} (hv : Below v) (start : ℕ) :
    (∃ idx, (FixedBitVectorIter.mk v start).next = (some idx, ⟨v, idx + 1⟩) ∧
        v.membersFrom start = insert idx (v.membersFrom (idx + 1))) ∨
      ((FixedBitVectorIter.mk v start).next = (none, ⟨v, N⟩) ∧ v.membersFrom start = ∅ ∧
        v.membersFrom N = ∅) := by
  have hN : v.membersFrom N = ∅ := by
    refine Finset.filter_eq_empty_iff.mpr fun i hi hle => ?_
    exact absurd (hv i (mem_members.mp hi)) (not_lt.mpr hle)
  by_cases hstart : start < N
  · rcases findNext_spec v hstart with ⟨idx, hfind, hle, hmem, hmin⟩ | ⟨hfind, hno⟩
    · refine .inl ⟨idx, by simp only [FixedBitVectorIter.next, hfind], ?_⟩
      ext j
      simp only [membersFrom, Finset.mem_filter, Finset.mem_insert, mem_members]
      constructor
      · rintro ⟨hj, hstartj⟩
        have := hmin j hstartj hj
        by_cases heq : j = idx
        · exact .inl heq
        · exact .inr ⟨hj, by omega⟩
      · rintro (rfl | ⟨hj, hlt⟩)
        · exact ⟨hmem, hle⟩
        · exact ⟨hj, by omega⟩
    · refine .inr ⟨by simp only [FixedBitVectorIter.next, hfind], ?_, hN⟩
      refine Finset.filter_eq_empty_iff.mpr fun i hi hle => ?_
      rw [mem_members, hno i hle] at hi
      exact Bool.false_ne_true hi
  · have hfind : v.findNext start = none := by rw [findNext, if_pos (not_lt.mp hstart)]
    refine .inr ⟨by simp only [FixedBitVectorIter.next, hfind], ?_, hN⟩
    refine Finset.filter_eq_empty_iff.mpr fun i hi hle => ?_
    have := hv i (mem_members.mp hi)
    omega

/-- The iterator lists the members that are left in increasing order. -/
theorem nexts_eq {v : FixedBitVector N} (hv : Below v) (k start : ℕ) :
    FixedBitVectorIter.nexts k ⟨v, start⟩ =
      (List.range k).map fun j => ((v.membersFrom start).sort (· ≤ ·))[j]? := by
  induction k generalizing start with
  | zero => rfl
  | succ k ih =>
      rw [FixedBitVectorIter.nexts, List.range_succ_eq_map, List.map_cons, List.map_map]
      rcases next_spec hv start with ⟨idx, hnext, hmembers⟩ | ⟨hnext, hempty, hN⟩
      · have hle : ∀ j ∈ v.membersFrom (idx + 1), idx ≤ j := fun j hj =>
          Nat.le_of_succ_le (Finset.mem_filter.mp hj).2
        have hnot : idx ∉ v.membersFrom (idx + 1) := fun hidx =>
          Nat.not_succ_le_self idx (Finset.mem_filter.mp hidx).2
        rw [hnext, ih, hmembers, Finset.sort_insert (· ≤ ·) hle hnot]
        rfl
      · rw [hnext, ih, hempty, hN, Finset.sort_empty]
        rfl

/-! ### The set of a vector -/

/-- The operations of a vector do what they are named for to the set of its members. -/
structure ActsAsSet (v : FixedBitVector N) : Prop where
  /-- No bit of the words is set that no index names. -/
  tail : ∀ idx bit, bit < 32 → N ≤ 32 * idx + bit → (v.word idx).getLsbD bit = false
  /-- The words are equal if the sets are. -/
  eq_iff : ∀ w : FixedBitVector N, Built w → (v = w ↔ v.members = w.members)
  get : ∀ i, v.get i = if i < N then .ok (decide (i ∈ v.members)) else .error .outOfBounds
  /-- `set` inserts or removes, and returns the old membership. -/
  set : ∀ i < N, ∀ val, ∃ v', v.set i val = .ok (decide (i ∈ v.members), v') ∧
    v'.members = if val then insert i v.members else v.members.erase i
  set_panic : ∀ i, N ≤ i → ∀ val, v.set i val = .error .outOfBounds
  count : v.count = v.members.card
  /-- `find_next` returns the least member from the start on, if there is one. -/
  findNext : ∀ start, (∃ i, v.findNext start = some i ∧
      IsLeast {j | j ∈ v.members ∧ start ≤ j} i) ∨
    (v.findNext start = none ∧ ∀ j ∈ v.members, j < start)
  /-- The calls of `next` return the members in increasing order, and then nothing more. -/
  iter : ∀ k, v.iter.nexts k = (List.range k).map fun j => (v.members.sort (· ≤ ·))[j]?
  bitand : ∀ w : FixedBitVector N, Built w → (v.bitand w).members = v.members ∩ w.members
  bitor : ∀ w : FixedBitVector N, Built w → (v.bitor w).members = v.members ∪ w.members
  sub : ∀ w : FixedBitVector N, Built w → (v.sub w).members = v.members \ w.members
  invert : v.invert.members = Finset.range N \ v.members
  not : v.not.members = Finset.range N \ v.members
  resize : ∀ M, (v.resize M).members = v.members.filter (· < M)

/-- **A vector that is built by the operations is the set of its members.** -/
theorem built_actsAsSet {v : FixedBitVector N} (h : Built v) : ActsAsSet v where
  tail idx bit hbit hN := by
    have hmem : v.mem (32 * idx + bit) = (v.word idx).getLsbD bit := by
      rw [mem, (by omega : (32 * idx + bit) / 32 = idx), (by omega : (32 * idx + bit) % 32 = bit)]
    rw [← hmem, ← Bool.not_eq_true]
    exact fun hset => absurd (h.members_lt _ hset) (not_lt.mpr hN)
  eq_iff w _ := by
    refine ⟨congrArg members, fun heq => ext_mem fun i => ?_⟩
    rw [mem_eq_decide, mem_eq_decide, heq]
  get i := by
    split_ifs with hi
    · rw [get_of_lt v hi, mem_eq_decide]
    · exact get_of_ge v (not_lt.mp hi)
  set i hi val := by
    obtain ⟨v', hok, hmem⟩ := set_spec v hi val
    refine ⟨v', by rw [hok, mem_eq_decide], ?_⟩
    ext j
    rw [mem_members, hmem]
    cases val with
    | true =>
        rw [if_pos rfl, Finset.mem_insert, mem_members]
        by_cases hj : j = i
        · simp [hj]
        · simp [hj]
    | false =>
        rw [if_neg Bool.false_ne_true, Finset.mem_erase, mem_members]
        by_cases hj : j = i
        · simp [hj]
        · simp [hj]
  set_panic i hi val := set_of_ge v hi val
  count := count_eq_card v
  findNext start := by
    by_cases hstart : start < N
    · rcases findNext_spec v hstart with ⟨i, hfind, hle, hmem, hmin⟩ | ⟨hfind, hno⟩
      · refine .inl ⟨i, hfind, ⟨mem_members.mpr hmem, hle⟩, fun j hj => ?_⟩
        exact hmin j hj.2 (mem_members.mp hj.1)
      · refine .inr ⟨hfind, fun j hj => ?_⟩
        by_contra hge
        rw [mem_members, hno j (not_lt.mp hge)] at hj
        exact Bool.false_ne_true hj
    · refine .inr ⟨by rw [FixedBitVector.findNext, if_pos (not_lt.mp hstart)], fun j hj => ?_⟩
      exact (h.members_lt j (mem_members.mp hj)).trans_le (not_lt.mp hstart)
  iter k := by
    have hall : v.membersFrom 0 = v.members := Finset.filter_true_of_mem fun i _ => Nat.zero_le i
    rw [FixedBitVector.iter, nexts_eq h.members_lt, hall]
  bitand w _ := members_bitand v w
  bitor w _ := members_bitor v w
  sub w _ := members_sub v w
  invert := members_invert v
  not := members_invert v
  resize M := members_resize h.members_lt M

/-- Vectors of several sizes, one of them a multiple of the size of a word. -/
theorem built_actsAsSet_resized :
    ActsAsSet
      ((((new 33 true).sub ((new 32 false).not.resize 33)).resize 40).bitor (new 40 false)) :=
  built_actsAsSet
    (.bitor (.resize 40 (.sub (.new 33 true) (.resize 33 (.not (.new 32 false))))) (.new 40 false))

/-! ### Writing ranges -/

/-- The start of a range lets an index in. -/
def FromStart : Bound → ℕ → Prop
  | .included start, i => start ≤ i
  | .excluded start, i => start < i
  | .unbounded, _ => True

/-- The end of a range lets an index in. A range without an end goes up to the last index. -/
def UpToEnd (N : ℕ) : Bound → ℕ → Prop
  | .included last, i => i ≤ last
  | .excluded stop, i => i < stop
  | .unbounded, i => i < N

/-- `RangeBounds::contains`, for the indices of a vector. -/
def InRange (N : ℕ) (startBound endBound : Bound) (i : ℕ) : Prop :=
  FromStart startBound i ∧ UpToEnd N endBound i

/-- `setRange` returns, and then the bits of the range are `val` and the others as before. -/
def SetsRange (v : FixedBitVector N) (startBound endBound : Bound) (val : Bool) : Prop :=
  ∃ v', v.setRange startBound endBound val = .ok v' ∧
    ∀ i < N, (InRange N startBound endBound i → v'.get i = .ok val) ∧
      (¬ InRange N startBound endBound i → v'.get i = v.get i)

/-- A bound at the start that there is an index for. -/
theorem fromStart_iff {startBound : Bound} {start : ℕ} (h : firstIndex startBound = some start)
    (i : ℕ) : FromStart startBound i ↔ start ≤ i := by
  cases startBound with
  | included s =>
      obtain rfl := Option.some.inj h
      rfl
  | excluded s =>
      rw [firstIndex] at h
      split_ifs at h
      obtain rfl := Option.some.inj h
      rfl
  | unbounded =>
      obtain rfl := Option.some.inj h
      exact iff_of_true trivial (Nat.zero_le i)

/-- A bound at the start that is past every index. -/
theorem lt_of_firstIndex_eq_none {startBound : Bound} (h : firstIndex startBound = none) {i : ℕ}
    (hi : FromStart startBound i) : usizeMax < i := by
  cases startBound with
  | included s => cases h
  | excluded s =>
      rw [firstIndex] at h
      split_ifs at h with heq
      exact heq ▸ hi
  | unbounded => cases h

/-- A bound at the end that there is an index for. -/
theorem upToEnd_iff (hN : N ≠ 0) {endBound : Bound} {last : ℕ}
    (h : lastIndex N endBound = some last) (i : ℕ) : UpToEnd N endBound i ↔ i ≤ last := by
  cases endBound with
  | included l =>
      obtain rfl := Option.some.inj h
      rfl
  | excluded stop =>
      cases stop with
      | zero => cases h
      | succ l =>
          obtain rfl := Option.some.inj h
          exact Nat.lt_succ_iff
  | unbounded =>
      obtain rfl := Option.some.inj h
      rw [UpToEnd]
      omega

/-- A bound at the end that is before every index. -/
theorem not_upToEnd {endBound : Bound} (h : lastIndex N endBound = none) (i : ℕ) :
    ¬ UpToEnd N endBound i := by
  cases endBound with
  | included l => cases h
  | excluded stop =>
      cases stop with
      | zero => exact Nat.not_lt_zero i
      | succ l => cases h
  | unbounded => cases h

/-- If nothing is written, the bits of the range have to be right already. -/
theorem setsRange_iff_of_eq {v : FixedBitVector N} {startBound endBound : Bound} {val : Bool}
    (h : v.setRange startBound endBound val = .ok v) : SetsRange v startBound endBound val ↔
      ∀ i < N, InRange N startBound endBound i → v.get i = .ok val := by
  constructor
  · rintro ⟨v', hok, hget⟩ i hi hin
    obtain rfl := Except.ok.inj (h.symm.trans hok)
    exact (hget i hi).1 hin
  · intro hget
    exact ⟨v, h, fun i hi => ⟨hget i hi, fun _ => rfl⟩⟩

/-- **`setRange` is the setting of each bit of its range**, but for a range of exactly one index:
the bit of that index stays as it is. -/
theorem setRange_iff {v : FixedBitVector N} (hN : 1 ≤ N) (hmax : N ≤ usizeMax)
    {startBound endBound : Bound} (hmem : ∀ i, InRange N startBound endBound i → i < N)
    (val : Bool) : SetsRange v startBound endBound val ↔
      ∀ i, (∀ j, InRange N startBound endBound j ↔ j = i) → v.get i = .ok val := by
  have hset := setRange_eq (by omega) v startBound endBound val
  have hempty : v.setRange startBound endBound val = .ok v →
      (∀ i, ¬ InRange N startBound endBound i) → (SetsRange v startBound endBound val ↔
        ∀ i, (∀ j, InRange N startBound endBound j ↔ j = i) → v.get i = .ok val) := by
    intro hok hno
    rw [setsRange_iff_of_eq hok]
    exact iff_of_true (fun i _ hi => absurd hi (hno i)) fun i hi => absurd ((hi i).mpr rfl) (hno i)
  cases hfirst : firstIndex startBound with
  | none =>
      rw [hfirst] at hset
      refine hempty hset fun i hi => ?_
      have := lt_of_firstIndex_eq_none hfirst hi.1
      have := hmem i hi
      omega
  | some start =>
      cases hlast : lastIndex N endBound with
      | none =>
          rw [hfirst, hlast] at hset
          exact hempty hset fun i hi => not_upToEnd hlast i hi.2
      | some last =>
          rw [hfirst, hlast] at hset
          have hin : ∀ i, InRange N startBound endBound i ↔ start ≤ i ∧ i ≤ last := fun i =>
            and_congr (fromStart_iff hfirst i) (upToEnd_iff (by omega) hlast i)
          rcases lt_trichotomy last start with hlt | rfl | hlt
          · refine hempty (hset.trans (if_pos hlt.le)) fun i hi => ?_
            have := (hin i).mp hi
            omega
          · -- a range of one index is taken to be empty
            have honly : ∀ i, InRange N startBound endBound i ↔ i = last := fun i => by
              rw [hin]
              omega
            have hok : v.setRange startBound endBound val = .ok v :=
              hset.trans (if_pos (le_refl last))
            rw [setsRange_iff_of_eq hok]
            constructor
            · intro h i hi
              have hlasti : i = last := (honly i).mp ((hi i).mpr rfl)
              subst hlasti
              exact h i (hmem i ((hi i).mpr rfl)) ((hi i).mpr rfl)
            · intro h i _ hi
              rw [(honly i).mp hi]
              exact h last honly
          · have hlastN : last < N := hmem last ((hin last).mpr ⟨hlt.le, le_refl last⟩)
            obtain ⟨v', hok, hmem'⟩ := setBetween_spec v hlt hlastN val
            refine iff_of_true ⟨v', hset.trans hok, fun i hi => ?_⟩ fun i hi => ?_
            · rw [get_of_lt v' hi, get_of_lt v hi, hmem', hin]
              exact ⟨fun h => by rw [if_pos h], fun h => by rw [if_neg h]⟩
            · have h1 := (hi start).mp ((hin start).mpr ⟨le_refl start, hlt.le⟩)
              have h2 := (hi last).mp ((hin last).mpr ⟨hlt.le, le_refl last⟩)
              omega

/-- A range of several indices is written. -/
theorem setRange_several : SetsRange (FixedBitVector.new 40 false) (.excluded 30) .unbounded true :=
  (setRange_iff (by decide) (by decide) (fun _ h => h.2) true).mpr fun i hi => by
    have h1 : 31 = i := (hi 31).mp ⟨by simp [FromStart], by simp [UpToEnd]⟩
    have h2 : 32 = i := (hi 32).mp ⟨by simp [FromStart], by simp [UpToEnd]⟩
    omega

/-- A range of one index is not written. -/
theorem setRange_one : (∀ i, InRange 8 (.included 3) (.excluded 4) i → i < 8) ∧
    ¬ SetsRange (FixedBitVector.new 8 false) (.included 3) (.excluded 4) true := by
  refine ⟨fun i hi => Nat.lt_trans hi.2 (by decide), ?_⟩
  rintro ⟨v', hok, hget⟩
  obtain rfl := Except.ok.inj hok
  have h3 := (hget 3 (by decide)).1 ⟨le_refl 3, Nat.lt_succ_self 3⟩
  exact absurd h3 (by decide)

end FixedBitVector

end HydroxKernel.Util
