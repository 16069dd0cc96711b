import HydroxKernel.Lib.Assert
import Mathlib.Algebra.Group.Nat.Defs
import Mathlib.Data.List.Basic
import Mathlib.Logic.Function.Basic
import Mathlib.Order.Nat

/-!
# The Array Deque

`ArrayDeque` is a ring buffer in an array of fixed capacity: `head` is where the first element
lies, and the elements wrap around at the end of the array. A slot of the array that was never
written, or whose element was moved out, holds nothing. Indexing the array outside of its bounds
panics, and reading a slot that holds nothing is an error of its own.

## Main results

* `Represents`: the deque holds a list.
* `Represents.get`, `Represents.writeAt`: reading and writing an element.
* `Represents.pushBack`, `Represents.pushFront`, `Represents.popFront_cons` and
  `Represents.popBack_concat`: pushing and popping do to the list what they are named for.
-/

namespace HydroxKernel

/-- The panics of `ArrayDeque`. -/
inductive ArrayDequePanic
  /-- An index of the array is out of bounds. -/
  | outOfBounds
  /-- A slot that holds nothing is read. -/
  | uninit
  /-- The assertion of `tail_inclusive`, that the deque is not empty. -/
  | emptyTail
  deriving DecidableEq

/-- `ArrayDeque`, of capacity `N`. -/
structure ArrayDeque (α : Type) (N : ℕ) where
  head : ℕ
  len : ℕ
  data : ℕ → Option α

namespace ArrayDeque

variable {α : Type} {N : ℕ}

/-- `ArrayDeque::new`. -/
def new : ArrayDeque α N := ⟨0, 0, fun _ => none⟩

/-- `ArrayDeque::idx`. -/
def idx (N head i : ℕ) : ℕ := if N - head ≤ i then i - (N - head) else head + i

/-- `ArrayDeque::tail_exclusive`. -/
def tailExclusive (d : ArrayDeque α N) : ℕ := idx N d.head d.len

/-- `ArrayDeque::tail_inclusive`. -/
def tailInclusive (d : ArrayDeque α N) : Except ArrayDequePanic ℕ := do
  ensure (d.len ≠ 0) .emptyTail
  return idx N d.head (d.len - 1)

/-- `ArrayDeque::is_empty`. -/
def isEmpty (d : ArrayDeque α N) : Bool := d.len == 0

/-- `ArrayDeque::is_full`. -/
def isFull (d : ArrayDeque α N) : Bool := d.len == N

/-- Reads a slot of the array. -/
def readSlot (d : ArrayDeque α N) (i : ℕ) : Except ArrayDequePanic α := do
  ensure (i < N) .outOfBounds
  match d.data i with
  | some a => return a
  | none => .error .uninit

/-- `ArrayDeque::get`. -/
def get (d : ArrayDeque α N) (i : ℕ) : Except ArrayDequePanic (Option α) :=
  if i < d.len then do
    let elem ← d.readSlot (idx N d.head i)
    return some elem
  else .ok none

/-- `ArrayDeque::front`. -/
def front (d : ArrayDeque α N) : Except ArrayDequePanic (Option α) := d.get 0

/-- `usize::wrapping_sub(1)`. -/
def wrappingPred (n : ℕ) : ℕ := (n + (2 ^ 64 - 1)) % 2 ^ 64

/-- `ArrayDeque::back`. -/
def back (d : ArrayDeque α N) : Except ArrayDequePanic (Option α) := d.get (wrappingPred d.len)

/-- `ArrayDeque::get_mut`, with a value that is written through the reference. The result is the
element that was there, which the write drops. -/
def writeAt (d : ArrayDeque α N) (i : ℕ) (val : α) :
    Except ArrayDequePanic (Option α × ArrayDeque α N) :=
  if i < d.len then do
    let elem ← d.readSlot (idx N d.head i)
    return (some elem, ⟨d.head, d.len, Function.update d.data (idx N d.head i) (some val)⟩)
  else .ok (none, d)

/-- `ArrayDeque::front_mut`, with a value that is written through the reference. -/
def writeFront (d : ArrayDeque α N) (val : α) :
    Except ArrayDequePanic (Option α × ArrayDeque α N) := d.writeAt 0 val

/-- `ArrayDeque::back_mut`, with a value that is written through the reference. -/
def writeBack (d : ArrayDeque α N) (val : α) :
    Except ArrayDequePanic (Option α × ArrayDeque α N) := d.writeAt (wrappingPred d.len) val

/-- The slots after the element of one of them is moved out, by `assume_init_read`. -/
def emptied (d : ArrayDeque α N) (i : ℕ) : ℕ → Option α := Function.update d.data i none

/-- `ArrayDeque::pop_front`. -/
def popFront (d : ArrayDeque α N) : Except ArrayDequePanic (Option α × ArrayDeque α N) :=
  if d.len ≠ 0 then do
    let elem ← d.readSlot d.head
    return (some elem, ⟨if d.head = N - 1 then 0 else d.head + 1, d.len - 1, d.emptied d.head⟩)
  else .ok (none, d)

/-- `ArrayDeque::pop_back`. -/
def popBack (d : ArrayDeque α N) : Except ArrayDequePanic (Option α × ArrayDeque α N) :=
  if d.len ≠ 0 then do
    let tail ← d.tailInclusive
    let elem ← d.readSlot tail
    return (some elem, ⟨d.head, d.len - 1, d.emptied tail⟩)
  else .ok (none, d)

/-- `ArrayDeque::push_front`. The result says whether there was room. -/
def pushFront (d : ArrayDeque α N) (val : α) : Except ArrayDequePanic (Bool × ArrayDeque α N) :=
  if d.len = N then .ok (false, d)
  else do
    let head := if d.head = 0 then N - 1 else d.head - 1
    ensure (head < N) .outOfBounds
    return (true, ⟨head, d.len + 1, Function.update d.data head (some val)⟩)

/-- `ArrayDeque::push_back`. The result says whether there was room. -/
def pushBack (d : ArrayDeque α N) (val : α) : Except ArrayDequePanic (Bool × ArrayDeque α N) :=
  if d.len = N then .ok (false, d)
  else do
    ensure (d.tailExclusive < N) .outOfBounds
    return (true, ⟨d.head, d.len + 1, Function.update d.data d.tailExclusive (some val)⟩)

/-- The deque holds the elements of the list, in order. -/
structure Represents (d : ArrayDeque α N) (l : List α) : Prop where
  head : d.head < N ∨ d.head = 0
  len : d.len = l.length
  le : l.length ≤ N
  data : ∀ i (h : i < l.length), d.data (idx N d.head i) = some l[i]

/-- The elements of the deque, from the front. -/
def toList (d : ArrayDeque α N) : List α :=
  (List.range d.len).filterMap fun i => d.data (idx N d.head i)

/-- Collecting the elements of a list by their indices gives the list. -/
theorem filterMap_range_eq {l : List α} {f : ℕ → Option α}
    (hf : ∀ i (h : i < l.length), f i = some l[i]) : (List.range l.length).filterMap f = l := by
  induction l generalizing f with
  | nil => rfl
  | cons a l ih =>
      have htail : (List.range l.length).filterMap (f ∘ Nat.succ) = l :=
        ih fun i h => hf (i + 1) (Nat.succ_lt_succ h)
      rw [List.length_cons, List.range_succ_eq_map,
        List.filterMap_cons_some (hf 0 (Nat.succ_pos _)), List.filterMap_map, htail]
      rfl

/-- The deque represents no other list than its elements. -/
theorem Represents.toList_eq {d : ArrayDeque α N} {l : List α} (h : Represents d l) :
    d.toList = l := by
  rw [toList, h.len]
  exact filterMap_range_eq h.data

/-! ### Places in the array -/

/-- The first element is at the head. -/
theorem idx_zero {head : ℕ} (h : head < N) : idx N head 0 = head := by
  rw [idx, if_neg (Nat.not_le.mpr (Nat.sub_pos_of_lt h)), Nat.add_zero]

/-- An element is in the buffer. -/
theorem idx_lt {head i : ℕ} (hi : i < N) : idx N head i < N := by
  rw [idx]
  split
  · omega
  · omega

/-- Different elements lie in different places. -/
theorem idx_ne {head i j : ℕ} (hi : i < N) (hj : j < N) (hne : i ≠ j) :
    idx N head i ≠ idx N head j := by
  rw [idx, idx]
  split <;> split <;> omega

/-- The places after the first one, from the next head. -/
theorem idx_succ {head i : ℕ} (h : head < N) (hi : i + 1 < N) :
    idx N head (i + 1) = idx N (if head = N - 1 then 0 else head + 1) i := by
  rw [idx, idx]
  repeat' split
  all_goals omega

/-! ### What the operations do to the list -/

/-- A new deque is empty. -/
theorem represents_new : Represents (new : ArrayDeque α N) [] :=
  ⟨.inr rfl, rfl, Nat.zero_le N, fun _ h => absurd h (Nat.not_lt_zero _)⟩

/-- An element of the list lies in its slot. -/
theorem Represents.readSlot {d : ArrayDeque α N} {l : List α} (h : Represents d l) {i : ℕ}
    (hi : i < l.length) : d.readSlot (idx N d.head i) = .ok l[i] := by
  rw [ArrayDeque.readSlot, ensure_pos (idx_lt (hi.trans_le h.le)), ok_bind, h.data i hi]
  rfl

/-- **Getting** an element reads the list. -/
theorem Represents.get {d : ArrayDeque α N} {l : List α} (h : Represents d l) (i : ℕ) :
    d.get i = .ok l[i]? := by
  rw [ArrayDeque.get, h.len]
  split
  · rename_i hi
    rw [h.readSlot hi, List.getElem?_eq_getElem hi]
    rfl
  · rename_i hi
    rw [List.getElem?_eq_none (not_lt.mp hi)]

/-- **Writing** an element writes the list, and the old element is dropped. -/
theorem Represents.writeAt {d : ArrayDeque α N} {l : List α} (h : Represents d l) (i : ℕ)
    (val : α) : ∃ d', d.writeAt i val = .ok (l[i]?, d') ∧ Represents d' (l.set i val) := by
  rw [ArrayDeque.writeAt, h.len]
  split
  · rename_i hi
    refine ⟨⟨d.head, l.length, Function.update d.data (idx N d.head i) (some val)⟩, ?_,
      ⟨h.head, by rw [List.length_set], by rw [List.length_set]; exact h.le, fun j hj => ?_⟩⟩
    · rw [h.readSlot hi, List.getElem?_eq_getElem hi]
      rfl
    · rw [List.length_set] at hj
      rw [List.getElem_set]
      by_cases heq : i = j
      · subst heq
        rw [if_pos rfl]
        exact Function.update_self _ _ _
      · have hne : idx N d.head j ≠ idx N d.head i :=
          idx_ne (hj.trans_le h.le) (hi.trans_le h.le) (Ne.symm heq)
        rw [if_neg heq]
        exact (Function.update_of_ne hne _ _).trans (h.data j hj)
  · rename_i hi
    refine ⟨d, by rw [List.getElem?_eq_none (not_lt.mp hi)], ?_⟩
    rwa [List.set_eq_of_length_le (not_lt.mp hi)]

/-- Pushing to a full deque does nothing. -/
theorem Represents.pushBack_full {d : ArrayDeque α N} {l : List α} (h : Represents d l)
    (hfull : l.length = N) (val : α) : d.pushBack val = .ok (false, d) := by
  rw [ArrayDeque.pushBack, if_pos (h.len.trans hfull)]

/-- **Pushing** appends to the list. -/
theorem Represents.pushBack {d : ArrayDeque α N} {l : List α} (h : Represents d l)
    (hroom : l.length < N) (val : α) :
    ∃ d', d.pushBack val = .ok (true, d') ∧ Represents d' (l ++ [val]) := by
  have hlen := h.len
  have hhead := h.head
  have htail : d.tailExclusive < N := by
    rw [tailExclusive, hlen]
    exact idx_lt hroom
  refine ⟨⟨d.head, d.len + 1, Function.update d.data d.tailExclusive (some val)⟩, ?_, ?_⟩
  · rw [ArrayDeque.pushBack, if_neg (by omega), ensure_pos htail, ok_bind]
    rfl
  · refine ⟨hhead, by simp [hlen], by rw [List.length_append]; exact hroom, ?_⟩
    intro i hi
    rw [List.length_append, List.length_singleton] at hi
    rcases Nat.lt_succ_iff_lt_or_eq.mp hi with hlt | rfl
    · have hne : idx N d.head i ≠ d.tailExclusive := by
        rw [tailExclusive, hlen]
        exact idx_ne (hlt.trans hroom) hroom hlt.ne
      rw [List.getElem_append_left hlt]
      exact (Function.update_of_ne hne _ _).trans (h.data i hlt)
    · have heq : idx N d.head l.length = d.tailExclusive := by rw [tailExclusive, hlen]
      rw [List.getElem_concat_length rfl, heq]
      exact Function.update_self _ _ _

/-- Popping from an empty deque does nothing. -/
theorem Represents.popFront_nil {d : ArrayDeque α N} (h : Represents d []) :
    d.popFront = .ok (none, d) := by
  rw [ArrayDeque.popFront, if_neg (by simp [h.len])]

/-- A slot that holds no element of the list may be written. -/
theorem Represents.update_dead {d : ArrayDeque α N} {l : List α} (h : Represents d l) {i : ℕ}
    (hdead : ∀ j < l.length, idx N d.head j ≠ i) (o : Option α) :
    Represents (⟨d.head, d.len, Function.update d.data i o⟩ : ArrayDeque α N) l :=
  ⟨h.head, h.len, h.le, fun j hj =>
    (Function.update_of_ne (hdead j hj) _ _).trans (h.data j hj)⟩

/-- Moving the head past the first element. -/
theorem Represents.tail {d : ArrayDeque α N} {a : α} {l : List α} (h : Represents d (a :: l)) :
    d.head < N ∧ d.readSlot d.head = .ok a ∧ Represents
      (⟨if d.head = N - 1 then 0 else d.head + 1, d.len - 1, d.data⟩ : ArrayDeque α N) l := by
  have hlen := h.len
  have hle := h.le
  rw [List.length_cons] at hlen hle
  have hhead : d.head < N := by
    have := h.head
    omega
  have hfirst := h.readSlot (Nat.succ_pos l.length)
  rw [idx_zero hhead, List.getElem_cons_zero] at hfirst
  refine ⟨hhead, hfirst, .inl ?_, by simp [hlen], by omega, fun i hi => ?_⟩
  · dsimp only
    split <;> omega
  · have hdata := h.data (i + 1) (Nat.succ_lt_succ hi)
    rwa [idx_succ hhead (by omega), List.getElem_cons_succ] at hdata

/-- Leaving the last element out. -/
theorem Represents.dropLast {d : ArrayDeque α N} {a : α} {l : List α}
    (h : Represents d (l ++ [a])) : d.readSlot (idx N d.head l.length) = .ok a ∧
      Represents (⟨d.head, d.len - 1, d.data⟩ : ArrayDeque α N) l := by
  have hlen := h.len
  have hle := h.le
  rw [List.length_append, List.length_singleton] at hlen hle
  have hlast := h.readSlot (i := l.length) (by simp)
  rw [List.getElem_concat_length rfl] at hlast
  refine ⟨hlast, h.head, by simp [hlen], by omega, fun i hi => ?_⟩
  have hdata := h.data i (by rw [List.length_append]; omega)
  rwa [List.getElem_append_left hi] at hdata

/-- **Popping** takes the first element of the list. -/
theorem Represents.popFront_cons {d : ArrayDeque α N} {a : α} {l : List α}
    (h : Represents d (a :: l)) :
    ∃ d', d.popFront = .ok (some a, d') ∧ Represents d' l := by
  have hlen := h.len
  have hle := h.le
  rw [List.length_cons] at hlen hle
  obtain ⟨hhead, hfirst, hrep⟩ := h.tail
  refine ⟨_, ?_, hrep.update_dead (i := d.head) (fun j hj => ?_) none⟩
  · rw [ArrayDeque.popFront, if_pos (by omega), hfirst]
    rfl
  · have hne : idx N d.head (j + 1) ≠ idx N d.head 0 :=
      idx_ne (by omega) (by omega) (Nat.succ_ne_zero j)
    rwa [idx_zero hhead, idx_succ hhead (by omega)] at hne

/-- Popping from the back of an empty deque does nothing. -/
theorem Represents.popBack_nil {d : ArrayDeque α N} (h : Represents d []) :
    d.popBack = .ok (none, d) := by
  rw [ArrayDeque.popBack, if_neg (by simp [h.len])]

/-- **Popping from the back** takes the last element of the list. -/
theorem Represents.popBack_concat {d : ArrayDeque α N} {a : α} {l : List α}
    (h : Represents d (l ++ [a])) :
    ∃ d', d.popBack = .ok (some a, d') ∧ Represents d' l := by
  have hlen := h.len
  have hle := h.le
  rw [List.length_append, List.length_singleton] at hlen hle
  obtain ⟨hlast, hrep⟩ := h.dropLast
  have htail : d.tailInclusive = .ok (idx N d.head l.length) := by
    rw [tailInclusive, ensure_pos (by omega), ok_bind, hlen]
    rfl
  refine ⟨_, ?_, hrep.update_dead (i := idx N d.head l.length) (fun j hj => ?_) none⟩
  · rw [ArrayDeque.popBack, if_pos (by omega), htail, ok_bind, hlast]
    rfl
  · exact idx_ne (by omega) (by omega) hj.ne

/-- Pushing to the front of a full deque does nothing. -/
theorem Represents.pushFront_full {d : ArrayDeque α N} {l : List α} (h : Represents d l)
    (hfull : l.length = N) (val : α) : d.pushFront val = .ok (false, d) := by
  rw [ArrayDeque.pushFront, if_pos (h.len.trans hfull)]

/-- **Pushing to the front** prepends to the list. -/
theorem Represents.pushFront {d : ArrayDeque α N} {l : List α} (h : Represents d l)
    (hroom : l.length < N) (val : α) :
    ∃ d', d.pushFront val = .ok (true, d') ∧ Represents d' (val :: l) := by
  have hlen := h.len
  have hhead := h.head
  obtain ⟨head, heq⟩ : ∃ head, (if d.head = 0 then N - 1 else d.head - 1) = head := ⟨_, rfl⟩
  have hlt : head < N := by
    rw [← heq]
    split <;> omega
  have hnext : (if head = N - 1 then 0 else head + 1) = d.head := by
    rw [← heq]
    repeat' split
    all_goals omega
  refine ⟨⟨head, d.len + 1, Function.update d.data head (some val)⟩, ?_,
    ⟨.inl hlt, by simp [hlen], hroom, fun i hi => ?_⟩⟩
  · rw [ArrayDeque.pushFront, if_neg (by omega)]
    simp only [heq]
    rw [ensure_pos hlt, ok_bind]
    rfl
  · cases i with
    | zero =>
        dsimp only
        rw [idx_zero hlt, List.getElem_cons_zero]
        exact Function.update_self _ _ _
    | succ i =>
        rw [List.length_cons] at hi
        have hne : idx N head (i + 1) ≠ idx N head 0 :=
          idx_ne (by omega) (by omega) (Nat.succ_ne_zero i)
        rw [idx_zero hlt] at hne
        have hidx : idx N head (i + 1) = idx N d.head i := by rw [idx_succ hlt (by omega), hnext]
        dsimp only
        rw [Function.update_of_ne hne, hidx, List.getElem_cons_succ]
        exact h.data i (Nat.lt_of_succ_lt_succ hi)

/-- The first element. -/
theorem Represents.front {d : ArrayDeque α N} {l : List α} (h : Represents d l) :
    d.front = .ok l.head? := by
  rw [ArrayDeque.front, h.get, List.head?_eq_getElem?]

/-- Subtracting one from a positive number does not wrap. -/
theorem wrappingPred_of_pos {n : ℕ} (hpos : 0 < n) (hlt : n < 2 ^ 64) :
    wrappingPred n = n - 1 := by
  rw [wrappingPred]
  omega

/-- The index of the last element of a list, and no index if there is none. -/
theorem getElem?_wrappingPred {l : List α} (h : l.length < 2 ^ 64) :
    l[wrappingPred l.length]? = l[l.length - 1]? := by
  rcases Nat.eq_zero_or_pos l.length with hzero | hpos
  · rw [List.getElem?_eq_none (by omega), List.getElem?_eq_none (by omega)]
  · rw [wrappingPred_of_pos hpos h]

/-- The last element. -/
theorem Represents.back {d : ArrayDeque α N} {l : List α} (h : Represents d l)
    (hN : N < 2 ^ 64) : d.back = .ok l.getLast? := by
  rw [ArrayDeque.back, h.get, h.len, getElem?_wrappingPred (h.le.trans_lt hN),
    List.getLast?_eq_getElem?]

end ArrayDeque

end HydroxKernel
