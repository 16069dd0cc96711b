import HydroxKernel.Lib.Ends
import HydroxKernel.Util.ArrayDeque

/-!
# The Iterator of the Array Deque

`ArrayDequeIter` reads the elements of a deque without taking them out: a position moves from the
head on, and a count of the elements that are left moves the other end. Both ends may be asked in
any interleaving.

The hint of its size is that of the whole deque at every point, not of what is left.

## Main results

* `runCalls_iter`: the calls return what the calls on a list return, and never fail.
* `iter_contract_iff`: when an iterator meets its whole contract, with the hints of its size.
-/

namespace HydroxKernel

variable {α : Type} {N : ℕ}

/-- `ArrayDequeIter`. -/
structure ArrayDequeIter (α : Type) (N : ℕ) where
  deque : ArrayDeque α N
  pos : ℕ
  left : ℕ

/-- `ArrayDeque::iter`. -/
def ArrayDeque.iter (d : ArrayDeque α N) : ArrayDequeIter α N := ⟨d, d.head, d.len⟩

namespace ArrayDequeIter

open ArrayDeque (Represents idx)

/-- `next`. -/
def next (it : ArrayDequeIter α N) : Except ArrayDequePanic (Option α × ArrayDequeIter α N) :=
  if it.left ≠ 0 then do
    let item ← it.deque.readSlot it.pos
    return (some item, ⟨it.deque, if it.pos = N - 1 then 0 else it.pos + 1, it.left - 1⟩)
  else .ok (none, it)

/-- `next_back`. -/
def nextBack (it : ArrayDequeIter α N) : Except ArrayDequePanic (Option α × ArrayDequeIter α N) :=
  if it.left ≠ 0 then do
    let left := it.left - 1
    let item ← it.deque.readSlot (idx N it.pos left)
    return (some item, ⟨it.deque, it.pos, left⟩)
  else .ok (none, it)

/-- `size_hint`. -/
def sizeHint (it : ArrayDequeIter α N) : ℕ × Option ℕ := (it.deque.len, some it.deque.len)

/-- A call at one of the ends. -/
def call (it : ArrayDequeIter α N) : End → Except ArrayDequePanic (Option α × ArrayDequeIter α N)
  | .front => it.next
  | .back => it.nextBack

/-- A sequence of calls, with their results. -/
def runCalls : List End → ArrayDequeIter α N →
    Except ArrayDequePanic (List (Option α) × ArrayDequeIter α N)
  | [], it => .ok ([], it)
  | e :: calls, it => do
      let (result, it) ← it.call e
      let (results, it) ← runCalls calls it
      return (result :: results, it)

/-! ### The elements -/

/-- The iterator stands before the elements of the list. -/
def Before (it : ArrayDequeIter α N) (l : List α) : Prop :=
  Represents (⟨it.pos, it.left, it.deque.data⟩ : ArrayDeque α N) l

/-- A call returns the element at its end of the list, and leaves the rest. -/
theorem Before.call {it : ArrayDequeIter α N} {l : List α} (h : it.Before l) (e : End) :
    ∃ it', it.call e = .ok ((takeEnd e l).1, it') ∧ it'.deque = it.deque ∧
      it'.Before (takeEnd e l).2 := by
  have hlen : it.left = l.length := h.len
  rcases eq_or_ne l [] with rfl | hne
  · have hzero : ¬ it.left ≠ 0 := not_not.mpr hlen
    refine ⟨it, ?_, rfl, ?_⟩
    · cases e with
      | front => rw [ArrayDequeIter.call, next, if_neg hzero, takeEnd_nil]
      | back => rw [ArrayDequeIter.call, nextBack, if_neg hzero, takeEnd_nil]
    · rwa [takeEnd_nil]
  have hpos : it.left ≠ 0 := hlen.trans_ne (List.length_pos_of_ne_nil hne).ne'
  cases e with
  | front =>
      obtain ⟨a, l, rfl⟩ := List.exists_cons_of_ne_nil hne
      obtain ⟨-, hread, hrep⟩ := h.tail
      refine ⟨⟨it.deque, if it.pos = N - 1 then 0 else it.pos + 1, it.left - 1⟩, ?_, rfl, hrep⟩
      have hitem : it.deque.readSlot it.pos = .ok a := hread
      rw [ArrayDequeIter.call, next, if_pos hpos, hitem]
      rfl
  | back =>
      obtain ⟨l, a, rfl⟩ := (List.eq_nil_or_concat' l).resolve_left hne
      obtain ⟨hread, hrep⟩ := h.dropLast
      rw [List.length_append, List.length_singleton] at hlen
      refine ⟨⟨it.deque, it.pos, it.left - 1⟩, ?_, rfl, ?_⟩
      · have hitem : it.deque.readSlot (idx N it.pos (it.left - 1)) = .ok a := by
          rw [hlen, Nat.add_sub_cancel]
          exact hread
        have hlast : (takeEnd .back (l ++ [a])).1 = some a := List.getLast?_concat
        rw [ArrayDequeIter.call, nextBack, if_pos hpos, hlast]
        simp only [hitem, ok_bind]
        rfl
      · rw [takeEnd, List.dropLast_concat]
        exact hrep

/-- **The calls return what the calls on a list return.** -/
theorem Before.runCalls {it : ArrayDequeIter α N} {l : List α} (h : it.Before l)
    (calls : List End) :
    ∃ it', runCalls calls it = .ok ((takeEnds calls l).1, it') ∧ it'.deque = it.deque := by
  induction calls generalizing it l with
  | nil => exact ⟨it, rfl, rfl⟩
  | cons e calls ih =>
      obtain ⟨it₁, hcall, hdeque, hrest⟩ := h.call e
      obtain ⟨it₂, hcalls, hdeque'⟩ := ih hrest
      refine ⟨it₂, ?_, hdeque'.trans hdeque⟩
      rw [ArrayDequeIter.runCalls, hcall, ok_bind]
      simp only [hcalls, ok_bind]
      rfl

/-- **Iterating** over a deque, from both ends in any interleaving. -/
theorem runCalls_iter {d : ArrayDeque α N} {l : List α} (h : Represents d l) (calls : List End) :
    ∃ it, runCalls calls d.iter = .ok ((takeEnds calls l).1, it) ∧ it.deque = d := by
  have hbefore : d.iter.Before l := h
  exact hbefore.runCalls calls

/-! ### The contract -/

/-- The hint of a size bounds the number of elements that are still to come. -/
def ValidHint (hint : ℕ × Option ℕ) (toCome : ℕ) : Prop :=
  hint.1 ≤ toCome ∧ ∀ upper, hint.2 = some upper → toCome ≤ upper

/-- The elements that calls returned. -/
def elements (results : List (Option α)) : List α := results.filterMap id

/-- The contract of an iterator over a list, for a sequence of calls. -/
structure IterContract (d : ArrayDeque α N) (l : List α) (calls : List End) : Prop where
  /-- The calls return the elements at their ends, each once, and nothing exactly when all of
  them have been returned. -/
  elements : ∃ results it rest, runCalls calls d.iter = .ok (results, it) ∧
    takenAt .front calls results ++ rest ++ (takenAt .back calls results).reverse = l ∧
    ∀ k < calls.length, results[k]? = some none ↔ (elements (results.take k)).length = l.length
  /-- The hints are valid before the first call and after each of them. -/
  hints : ∀ k ≤ calls.length, ∃ results it, runCalls (calls.take k) d.iter = .ok (results, it) ∧
    ValidHint it.sizeHint (l.length - (ArrayDequeIter.elements results).length)

/-- The elements are always returned as the contract says. -/
theorem iter_elements {d : ArrayDeque α N} {l : List α} (h : Represents d l)
    (calls : List End) : ∃ results it rest, runCalls calls d.iter = .ok (results, it) ∧
      takenAt .front calls results ++ rest ++ (takenAt .back calls results).reverse = l ∧
      ∀ k < calls.length,
        results[k]? = some none ↔ (elements (results.take k)).length = l.length := by
  obtain ⟨it, hcalls, -⟩ := runCalls_iter h calls
  refine ⟨(takeEnds calls l).1, it, (takeEnds calls l).2, hcalls, takeEnds_split calls l,
    fun k hk => ?_⟩
  rw [takeEnds_getElem?_eq_none hk, ← takeEnds_take, elements, takeEnds_count,
    List.length_take]
  omega

/-- **The iterator meets its contract** if and only if it is never called or the deque is empty:
its hint is the length of the whole deque at every point. -/
theorem iter_contract_iff {d : ArrayDeque α N} {l : List α} (h : Represents d l)
    (calls : List End) : IterContract d l calls ↔ calls = [] ∨ l = [] := by
  have hhint : ∀ k, ∃ it, runCalls (calls.take k) d.iter =
      .ok ((takeEnds (calls.take k) l).1, it) ∧ it.sizeHint = (l.length, some l.length) := by
    intro k
    obtain ⟨it, hcalls, hdeque⟩ := runCalls_iter h (calls.take k)
    exact ⟨it, hcalls, by rw [sizeHint, hdeque, h.len]⟩
  constructor
  · intro hcontract
    by_contra hnot
    rw [not_or] at hnot
    have hcalls := List.length_pos_of_ne_nil hnot.1
    have hlen := List.length_pos_of_ne_nil hnot.2
    obtain ⟨results, it, hrun, hvalid⟩ := hcontract.hints 1 hcalls
    obtain ⟨it', hrun', hsize⟩ := hhint 1
    obtain ⟨rfl, rfl⟩ := Prod.mk.inj (Except.ok.inj (hrun.symm.trans hrun'))
    have hle := hvalid.1
    rw [hsize, elements, takeEnds_count, List.length_take] at hle
    simp only at hle
    omega
  · intro hcond
    refine ⟨iter_elements h calls, fun k hk => ?_⟩
    obtain ⟨it, hrun, hsize⟩ := hhint k
    have hcount : (elements (takeEnds (calls.take k) l).1).length = 0 := by
      rw [elements, takeEnds_count, List.length_take]
      rcases hcond with rfl | rfl
      · simp
      · simp
    refine ⟨_, it, hrun, ?_⟩
    rw [hsize, hcount, Nat.sub_zero]
    exact ⟨le_refl _, fun upper hupper => (Option.some.inj hupper).le⟩

/-- An empty deque, called at both ends. -/
theorem iter_contract_empty :
    IterContract (ArrayDeque.new : ArrayDeque ℕ 4) [] [.front, .back, .front] :=
  (iter_contract_iff ArrayDeque.represents_new _).mpr (.inr rfl)

/-- A deque of one element that lies in the last slot. -/
def oneElement : ArrayDeque ℕ 4 := ⟨3, 1, Function.update (fun _ => none) 3 (some 7)⟩

/-- The hint after the only element was returned is one. -/
theorem iter_hint_stale : Represents oneElement [7] ∧ ¬ IterContract oneElement [7] [.front] := by
  constructor
  · refine ⟨.inl (by decide), rfl, by decide, fun i hi => ?_⟩
    obtain rfl : i = 0 := Nat.lt_one_iff.mp hi
    rfl
  · intro hcontract
    obtain ⟨results, it, hrun, hvalid⟩ := hcontract.hints 1 (le_refl 1)
    obtain ⟨rfl, rfl⟩ := Prod.mk.inj (Except.ok.inj hrun)
    exact absurd hvalid.1 (by decide)

end ArrayDequeIter

end HydroxKernel
