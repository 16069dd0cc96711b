import HydroxKernel.Util.ArrayDequeIter
import Mathlib.Data.List.Forall2
import Mathlib.Data.List.Perm.Basic

/-!
# The Elements of Array Deques

An `ArrayDeque` owns its elements. A push hands an element over to a deque, a pop and a drain hand
one back, and what else leaves a deque is dropped: the elements that a drain leaves, those of a
deque that is cleared or dropped, and what is written over. Clones make further deques.

The operations act on any number of deques of one capacity. Beside the deques, the state counts
the elements that were handed over, handed back and dropped.

## Main results

* `Represents.apply`: an operation on a deque is that on its list, and loses or doubles no element.
* `deques_refine_lists`: every sequence of operations gives the results it gives on lists.
-/

namespace HydroxKernel

variable {α : Type} {N : ℕ}

/-- What can go wrong in a loop over a deque. -/
inductive DequeFault
  | deque (why : ArrayDequePanic)
  /-- The loop has not come to an end. -/
  | diverges
  deriving DecidableEq

namespace ArrayDeque

/-- `next` and `next_back` of `ArrayDequeDrain`. -/
def drainCall (d : ArrayDeque α N) : End → Except ArrayDequePanic (Option α × ArrayDeque α N)
  | .front => d.popFront
  | .back => d.popBack

/-- The calls that consume a drain. -/
def drainCalls : List End → ArrayDeque α N →
    Except ArrayDequePanic (List (Option α) × ArrayDeque α N)
  | [], d => .ok ([], d)
  | e :: calls, d => do
      let (result, d) ← d.drainCall e
      let (results, d) ← drainCalls calls d
      return (result :: results, d)

/-- `ArrayDequeDrain::drop`: the loop over what is left. Its elements are dropped. -/
def drainRest : ℕ → ArrayDeque α N → Except DequeFault (List α × ArrayDeque α N)
  | 0, _ => .error .diverges
  | fuel + 1, d => do
      let (elem, d) ← d.popFront.mapError .deque
      match elem with
      | none => return ([], d)
      | some elem =>
          let (rest, d) ← drainRest fuel d
          return (elem :: rest, d)

/-- `ArrayDeque::drain`, consumed by calls and then dropped. -/
def drain (d : ArrayDeque α N) (calls : List End) :
    Except DequeFault (List (Option α) × List α × ArrayDeque α N) := do
  let (results, d) ← (drainCalls calls d).mapError .deque
  let (dropped, d) ← drainRest (d.len + 1) d
  return (results, dropped, d)

/-- `ArrayDeque::clear`. -/
def clear (d : ArrayDeque α N) : Except DequeFault (List α × ArrayDeque α N) := do
  let (_, dropped, d) ← d.drain []
  return (dropped, ⟨0, d.len, d.data⟩)

/-- `ArrayDeque::drop`. -/
def drop (d : ArrayDeque α N) : Except DequeFault (List α) := do
  let (_, dropped, _) ← d.drain []
  return dropped

/-- The loop of `ArrayDeque::clone`. It returns the clones that were pushed. -/
def cloneLoop (cl : α → α) : ℕ → ArrayDequeIter α N → ArrayDeque α N →
    Except DequeFault (List α × ArrayDeque α N)
  | 0, _, _ => .error .diverges
  | fuel + 1, it, new => do
      let (val, it) ← it.next.mapError .deque
      match val with
      | none => return ([], new)
      | some val =>
          let (room, new) ← (new.pushBack (cl val)).mapError .deque
          let (pushed, new) ← cloneLoop cl fuel it new
          return (if room then cl val :: pushed else pushed, new)

/-- `ArrayDeque::clone`. -/
def clone (cl : α → α) (d : ArrayDeque α N) : Except DequeFault (List α × ArrayDeque α N) :=
  cloneLoop cl (d.len + 1) d.iter new

end ArrayDeque

/-! ### Operations -/

/-- The operations on a deque. -/
inductive DequeOp (α : Type)
  | pushFront (val : α)
  | pushBack (val : α)
  | popFront
  | popBack
  | get (i : ℕ)
  | front
  | back
  /-- A write through `get_mut`. -/
  | writeAt (i : ℕ) (val : α)
  /-- A write through `front_mut`. -/
  | writeFront (val : α)
  /-- A write through `back_mut`. -/
  | writeBack (val : α)
  | len
  | isEmpty
  | isFull
  | clear
  | clone
  | drain (calls : List End)
  | drop

/-- The results of the operations. -/
inductive DequeResult (α : Type)
  /-- A push that took the value, or handed it back. -/
  | push (result : Except α Unit)
  | elem (elem : Option α)
  /-- Whether there was an element to write over. -/
  | written (wrote : Bool)
  | size (len : ℕ)
  | flag (b : Bool)
  | drained (results : List (Option α))
  | unit
  /-- There is no such deque. -/
  | noDeque

/-- What an operation on a deque does. -/
structure DequeEffect (α : Type) (N : ℕ) where
  result : DequeResult α
  /-- What takes the place of the deque: a clone stands next to its original, and nothing stands
  where a deque was dropped. -/
  deques : List (ArrayDeque α N)
  /-- The elements that deques have taken over. -/
  entered : List α
  /-- The elements that were handed back. -/
  out : List α
  dropped : List α

namespace ArrayDeque

/-- A push that returned. -/
def pushEffect (val : α) : Bool × ArrayDeque α N → DequeEffect α N
  | (true, d) => ⟨.push (.ok ()), [d], [val], [], []⟩
  | (false, d) => ⟨.push (.error val), [d], [], [], []⟩

/-- A pop that returned. -/
def popEffect : Option α × ArrayDeque α N → DequeEffect α N
  | (elem, d) => ⟨.elem elem, [d], [], elem.toList, []⟩

/-- A write that returned. -/
def writeEffect (val : α) : Option α × ArrayDeque α N → DequeEffect α N
  | (some old, d) => ⟨.written true, [d], [val], [], [old]⟩
  | (none, d) => ⟨.written false, [d], [], [], []⟩

/-- An operation that only looks. -/
def lookEffect (d : ArrayDeque α N) (result : DequeResult α) : DequeEffect α N :=
  ⟨result, [d], [], [], []⟩

/-- An operation on a deque. -/
def apply (cl : α → α) (d : ArrayDeque α N) : DequeOp α → Except DequeFault (DequeEffect α N)
  | .pushFront val => (pushEffect val <$> d.pushFront val).mapError .deque
  | .pushBack val => (pushEffect val <$> d.pushBack val).mapError .deque
  | .popFront => (popEffect <$> d.popFront).mapError .deque
  | .popBack => (popEffect <$> d.popBack).mapError .deque
  | .get i => ((fun elem => d.lookEffect (.elem elem)) <$> d.get i).mapError .deque
  | .front => ((fun elem => d.lookEffect (.elem elem)) <$> d.front).mapError .deque
  | .back => ((fun elem => d.lookEffect (.elem elem)) <$> d.back).mapError .deque
  | .writeAt i val => (writeEffect val <$> d.writeAt i val).mapError .deque
  | .writeFront val => (writeEffect val <$> d.writeFront val).mapError .deque
  | .writeBack val => (writeEffect val <$> d.writeBack val).mapError .deque
  | .len => .ok (d.lookEffect (.size d.len))
  | .isEmpty => .ok (d.lookEffect (.flag d.isEmpty))
  | .isFull => .ok (d.lookEffect (.flag d.isFull))
  | .clear => do
      let (dropped, d) ← d.clear
      return ⟨.unit, [d], [], [], dropped⟩
  | .clone => do
      let (pushed, new) ← d.clone cl
      return ⟨.unit, [d, new], pushed, [], []⟩
  | .drain calls => do
      let (results, dropped, d) ← d.drain calls
      return ⟨.drained results, [d], [], results.filterMap id, dropped⟩
  | .drop => do
      let dropped ← d.drop
      return ⟨.unit, [], [], [], dropped⟩

end ArrayDeque

/-- The operations on all deques: a new one, or an operation on one of them. -/
inductive DequesOp (α : Type)
  | new
  | on (k : ℕ) (op : DequeOp α)

/-- All deques, with what became of the elements so far. -/
structure Deques (α : Type) (N : ℕ) where
  deques : List (ArrayDeque α N)
  entered : List α
  out : List α
  dropped : List α

namespace Deques

/-- No deques. -/
def empty : Deques α N := ⟨[], [], [], []⟩

/-- An operation. -/
def step (cl : α → α) (s : Deques α N) :
    DequesOp α → Except DequeFault (DequeResult α × Deques α N)
  | .new => .ok (.unit, ⟨s.deques ++ [.new], s.entered, s.out, s.dropped⟩)
  | .on k op =>
      match s.deques[k]? with
      | none => .ok (.noDeque, s)
      | some d => do
          let e ← d.apply cl op
          return (e.result, ⟨s.deques.take k ++ e.deques ++ s.deques.drop (k + 1),
            s.entered ++ e.entered, s.out ++ e.out, s.dropped ++ e.dropped⟩)

/-- A sequence of operations, with their results. -/
def run (cl : α → α) : List (DequesOp α) → Deques α N →
    Except DequeFault (List (DequeResult α) × Deques α N)
  | [], s => .ok ([], s)
  | op :: ops, s => do
      let (result, s) ← s.step cl op
      let (results, s) ← run cl ops s
      return (result :: results, s)

end Deques

/-! ### The same operations on lists -/

/-- What an operation returns for a list of at most `N` elements, and the lists that take its
place. -/
def listApply (N : ℕ) (cl : α → α) (l : List α) : DequeOp α → DequeResult α × List (List α)
  | .pushFront val =>
      if l.length = N then (.push (.error val), [l]) else (.push (.ok ()), [val :: l])
  | .pushBack val =>
      if l.length = N then (.push (.error val), [l]) else (.push (.ok ()), [l ++ [val]])
  | .popFront => (.elem l.head?, [l.tail])
  | .popBack => (.elem l.getLast?, [l.dropLast])
  | .get i => (.elem l[i]?, [l])
  | .front => (.elem l.head?, [l])
  | .back => (.elem l.getLast?, [l])
  | .writeAt i val => (.written (decide (i < l.length)), [l.set i val])
  | .writeFront val => (.written (decide (l ≠ [])), [l.set 0 val])
  | .writeBack val => (.written (decide (l ≠ [])), [l.set (l.length - 1) val])
  | .len => (.size l.length, [l])
  | .isEmpty => (.flag (decide (l = [])), [l])
  | .isFull => (.flag (decide (l.length = N)), [l])
  | .clear => (.unit, [[]])
  | .clone => (.unit, [l, l.map cl])
  | .drain calls => (.drained (takeEnds calls l).1, [[]])
  | .drop => (.unit, [])

/-- An operation on all lists. -/
def listStep (N : ℕ) (cl : α → α) (ls : List (List α)) :
    DequesOp α → DequeResult α × List (List α)
  | .new => (.unit, ls ++ [[]])
  | .on k op =>
      match ls[k]? with
      | none => (.noDeque, ls)
      | some l =>
          ((listApply N cl l op).1, ls.take k ++ (listApply N cl l op).2 ++ ls.drop (k + 1))

/-- A sequence of operations on lists, with their results. -/
def listRun (N : ℕ) (cl : α → α) :
    List (DequesOp α) → List (List α) → List (DequeResult α) × List (List α)
  | [], ls => ([], ls)
  | op :: ops, ls =>
      ((listStep N cl ls op).1 :: (listRun N cl ops (listStep N cl ls op).2).1,
        (listRun N cl ops (listStep N cl ls op).2).2)

/-! ### Loops -/

namespace ArrayDeque

/-- A call on a drain takes the element at its end. -/
theorem Represents.drainCall {d : ArrayDeque α N} {l : List α} (h : Represents d l) (e : End) :
    ∃ d', d.drainCall e = .ok ((takeEnd e l).1, d') ∧ Represents d' (takeEnd e l).2 := by
  cases e with
  | front =>
      cases l with
      | nil => exact ⟨d, h.popFront_nil, h⟩
      | cons a l => exact h.popFront_cons
  | back =>
      rcases List.eq_nil_or_concat' l with rfl | ⟨l, a, rfl⟩
      · exact ⟨d, h.popBack_nil, h⟩
      · rw [takeEnd, List.getLast?_concat, List.dropLast_concat]
        exact h.popBack_concat

/-- The calls on a drain. -/
theorem Represents.drainCalls {d : ArrayDeque α N} {l : List α} (h : Represents d l)
    (calls : List End) :
    ∃ d', drainCalls calls d = .ok ((takeEnds calls l).1, d') ∧
      Represents d' (takeEnds calls l).2 := by
  induction calls generalizing d l with
  | nil => exact ⟨d, rfl, h⟩
  | cons e calls ih =>
      obtain ⟨d₁, hcall, hrep⟩ := h.drainCall e
      obtain ⟨d₂, hcalls, hrep'⟩ := ih hrep
      refine ⟨d₂, ?_, hrep'⟩
      rw [ArrayDeque.drainCalls, hcall, ok_bind]
      simp only [hcalls, ok_bind]
      rfl

/-- A drain that is dropped empties the deque. -/
theorem Represents.drainRest {d : ArrayDeque α N} {l : List α} (h : Represents d l) {fuel : ℕ}
    (hfuel : l.length < fuel) : ∃ d', drainRest fuel d = .ok (l, d') ∧ Represents d' [] := by
  induction fuel generalizing d l with
  | zero => exact absurd hfuel (Nat.not_lt_zero _)
  | succ fuel ih =>
      cases l with
      | nil =>
          refine ⟨d, ?_, h⟩
          rw [ArrayDeque.drainRest, h.popFront_nil]
          rfl
      | cons a l =>
          obtain ⟨d₁, hpop, hrep⟩ := h.popFront_cons
          obtain ⟨d₂, hrest, hrep'⟩ := ih hrep (Nat.lt_of_succ_lt_succ hfuel)
          refine ⟨d₂, ?_, hrep'⟩
          rw [ArrayDeque.drainRest, hpop]
          simp only [Except.mapError, ok_bind, hrest]
          rfl

/-- **A drain** returns what its calls take, drops the rest and leaves the deque empty. -/
theorem Represents.drain {d : ArrayDeque α N} {l : List α} (h : Represents d l)
    (calls : List End) :
    ∃ d', d.drain calls = .ok ((takeEnds calls l).1, (takeEnds calls l).2, d') ∧
      Represents d' [] := by
  obtain ⟨d₁, hcalls, hrep⟩ := h.drainCalls calls
  obtain ⟨d₂, hrest, hrep'⟩ := hrep.drainRest (Nat.lt_succ_of_le hrep.len.ge)
  refine ⟨d₂, ?_, hrep'⟩
  rw [ArrayDeque.drain, hcalls]
  simp only [Except.mapError, ok_bind, hrest]
  rfl

/-- Clearing a deque drops its elements. -/
theorem Represents.clear {d : ArrayDeque α N} {l : List α} (h : Represents d l) :
    ∃ d', d.clear = .ok (l, d') ∧ Represents d' [] := by
  obtain ⟨d', hdrain, hrep⟩ := h.drain []
  refine ⟨⟨0, d'.len, d'.data⟩, ?_, .inr rfl, hrep.len, hrep.le, fun i hi => ?_⟩
  · rw [ArrayDeque.clear, hdrain]
    rfl
  · exact absurd hi (Nat.not_lt_zero i)

/-- Dropping a deque drops its elements. -/
theorem Represents.drop {d : ArrayDeque α N} {l : List α} (h : Represents d l) :
    d.drop = .ok l := by
  obtain ⟨d', hdrain, -⟩ := h.drain []
  rw [ArrayDeque.drop, hdrain]
  rfl

/-- The loop of `clone` pushes a clone of each element that is left. -/
theorem cloneLoop_spec (cl : α → α) {it : ArrayDequeIter α N} {new : ArrayDeque α N}
    {l l' : List α} (hit : it.Before l) (hnew : Represents new l')
    (hroom : l'.length + l.length ≤ N) {fuel : ℕ} (hfuel : l.length < fuel) :
    ∃ new', cloneLoop cl fuel it new = .ok (l.map cl, new') ∧
      Represents new' (l' ++ l.map cl) := by
  induction fuel generalizing it new l l' with
  | zero => exact absurd hfuel (Nat.not_lt_zero _)
  | succ fuel ih =>
      obtain ⟨it₁, hnext, -, hrest⟩ := hit.call .front
      have hnext' : it.next = .ok ((takeEnd .front l).1, it₁) := hnext
      rw [cloneLoop, hnext']
      cases l with
      | nil =>
          refine ⟨new, rfl, ?_⟩
          rwa [List.map_nil, List.append_nil]
      | cons a l =>
          rw [List.length_cons] at hroom hfuel
          obtain ⟨new₁, hpush, hrep⟩ := hnew.pushBack (by omega) (cl a)
          obtain ⟨new₂, hloop, hrep'⟩ := ih hrest hrep
            (by rw [List.length_append, List.length_singleton, takeEnd]; simp; omega)
            (Nat.lt_of_succ_lt_succ hfuel)
          refine ⟨new₂, ?_, ?_⟩
          · simp only [takeEnd, List.head?_cons, Except.mapError, ok_bind, hpush, hloop]
            rfl
          · rwa [List.append_assoc] at hrep'

/-- **A clone** has a clone of each element. -/
theorem Represents.clone {d : ArrayDeque α N} {l : List α} (h : Represents d l) (cl : α → α) :
    ∃ new, d.clone cl = .ok (l.map cl, new) ∧ Represents new (l.map cl) := by
  have hbefore : d.iter.Before l := h
  exact cloneLoop_spec cl hbefore represents_new (by simpa using h.le)
    (Nat.lt_succ_of_le h.len.ge)

/-! ### One operation -/

/-- An effect is that on a list: it has the result, it leaves the lists, and every element that was
there or entered is there, handed back or dropped. -/
structure EffectSpec (e : DequeEffect α N) (l : List α) (r : DequeResult α × List (List α)) :
    Prop where
  result : e.result = r.1
  deques : List.Forall₂ Represents e.deques r.2
  owners : (l ++ e.entered).Perm (r.2.flatten ++ (e.out ++ e.dropped))

/-- Looking at a deque. -/
theorem EffectSpec.look {d : ArrayDeque α N} {l : List α} (h : Represents d l)
    (result : DequeResult α) : EffectSpec (d.lookEffect result) l (result, [l]) :=
  ⟨rfl, .cons h .nil, by simp [lookEffect]⟩

/-- A push to either end. -/
theorem EffectSpec.push {d : ArrayDeque α N} {l l' : List α} (h : Represents d l)
    {push : Except ArrayDequePanic (Bool × ArrayDeque α N)} {val : α}
    (hfull : l.length = N → push = .ok (false, d))
    (hroom : l.length < N → ∃ d', push = .ok (true, d') ∧ Represents d' l')
    (hperm : (l ++ [val]).Perm l') :
    ∃ e, (pushEffect val <$> push).mapError DequeFault.deque = .ok e ∧ EffectSpec e l
      (if l.length = N then (.push (.error val), [l]) else (.push (.ok ()), [l'])) := by
  by_cases hlen : l.length = N
  · refine ⟨⟨.push (.error val), [d], [], [], []⟩, by rw [hfull hlen]; rfl, ?_⟩
    rw [if_pos hlen]
    exact ⟨rfl, .cons h .nil, by simp⟩
  · obtain ⟨d', hpush, hrep⟩ := hroom (lt_of_le_of_ne h.le hlen)
    refine ⟨⟨.push (.ok ()), [d'], [val], [], []⟩, by rw [hpush]; rfl, ?_⟩
    rw [if_neg hlen]
    exact ⟨rfl, .cons hrep .nil, by simpa using hperm⟩

/-- A pop at either end. -/
theorem EffectSpec.pop {d : ArrayDeque α N} {l : List α} (h : Represents d l) (e : End) :
    ∃ eff, (popEffect <$> d.drainCall e).mapError DequeFault.deque = .ok eff ∧
      EffectSpec eff l (.elem (takeEnd e l).1, [(takeEnd e l).2]) := by
  obtain ⟨d', hcall, hrep⟩ := h.drainCall e
  refine ⟨⟨.elem (takeEnd e l).1, [d'], [], (takeEnd e l).1.toList, []⟩, by rw [hcall]; rfl,
    rfl, .cons hrep .nil, ?_⟩
  have hsplit := (takeEnd_perm e l).symm
  simpa using hsplit.trans List.perm_append_comm

/-- A write to an element, with what the list says about whether there is one. -/
theorem EffectSpec.write {d : ArrayDeque α N} {l : List α} (h : Represents d l) (i : ℕ) (val : α) :
    ∃ e, (writeEffect val <$> d.writeAt i val).mapError DequeFault.deque = .ok e ∧
      EffectSpec e l (.written (decide (i < l.length)), [l.set i val]) := by
  obtain ⟨d', hwrite, hrep⟩ := h.writeAt i val
  rw [hwrite]
  by_cases hi : i < l.length
  · rw [List.getElem?_eq_getElem hi, decide_eq_true hi]
    refine ⟨⟨.written true, [d'], [val], [], [l[i]]⟩, rfl, rfl, .cons hrep .nil, ?_⟩
    have hset := List.set_perm_cons_eraseIdx hi val
    have hget := List.getElem_cons_eraseIdx_perm hi
    have hfrom : (l ++ [val]).Perm (val :: l[i] :: l.eraseIdx i) :=
      List.perm_append_comm.trans (hget.symm.cons val)
    have hto : (l.set i val ++ [l[i]]).Perm (l[i] :: val :: l.eraseIdx i) :=
      List.perm_append_comm.trans (hset.cons _)
    simpa using (hfrom.trans (List.Perm.swap _ _ _)).trans hto.symm
  · rw [List.getElem?_eq_none (not_lt.mp hi), decide_eq_false hi]
    refine ⟨⟨.written false, [d'], [], [], []⟩, rfl, rfl, .cons hrep .nil, ?_⟩
    rw [List.set_eq_of_length_le (not_lt.mp hi)]
    simp

/-- **An operation on a deque is that on its list**, and loses or doubles no element. -/
theorem Represents.apply {d : ArrayDeque α N} {l : List α} (h : Represents d l) (hN : N < 2 ^ 64)
    (cl : α → α) (op : DequeOp α) :
    ∃ e, d.apply cl op = .ok e ∧ EffectSpec e l (listApply N cl l op) := by
  have hlt : l.length < 2 ^ 64 := h.le.trans_lt hN
  cases op with
  | pushFront val =>
      exact EffectSpec.push h (fun hfull => h.pushFront_full hfull val)
        (fun hroom => h.pushFront hroom val) List.perm_append_comm
  | pushBack val =>
      exact EffectSpec.push h (fun hfull => h.pushBack_full hfull val)
        (fun hroom => h.pushBack hroom val) (List.Perm.refl _)
  | popFront => exact EffectSpec.pop h .front
  | popBack => exact EffectSpec.pop h .back
  | get i => exact ⟨_, by rw [ArrayDeque.apply, h.get]; rfl, .look h _⟩
  | front => exact ⟨_, by rw [ArrayDeque.apply, h.front]; rfl, .look h _⟩
  | back => exact ⟨_, by rw [ArrayDeque.apply, h.back hN]; rfl, .look h _⟩
  | writeAt i val => exact EffectSpec.write h i val
  | writeFront val =>
      have hwrite := EffectSpec.write h 0 val
      rwa [decide_eq_decide.mpr List.length_pos_iff] at hwrite
  | writeBack val =>
      have hwrite := EffectSpec.write h (wrappingPred d.len) val
      rw [h.len] at hwrite
      rcases List.eq_nil_or_concat' l with rfl | ⟨l, a, rfl⟩
      · rw [List.length_nil, decide_eq_false (Nat.not_lt_zero _), List.set_nil] at hwrite
        rw [ArrayDeque.apply, ArrayDeque.writeBack, h.len]
        exact hwrite
      · have hpos : 0 < (l ++ [a]).length := by simp
        rw [wrappingPred_of_pos hpos hlt, decide_eq_true (Nat.sub_lt hpos Nat.one_pos)] at hwrite
        rw [listApply, decide_eq_true (List.ne_nil_of_length_pos hpos)]
        rwa [ArrayDeque.apply, ArrayDeque.writeBack, h.len, wrappingPred_of_pos hpos hlt]
  | len => exact ⟨_, rfl, h.len ▸ .look h _⟩
  | isEmpty =>
      have hempty : d.isEmpty = decide (l = []) := by
        rw [ArrayDeque.isEmpty, h.len, Bool.eq_iff_iff, beq_iff_eq, decide_eq_true_iff,
          List.length_eq_zero_iff]
      exact ⟨_, rfl, hempty ▸ .look h _⟩
  | isFull =>
      have hfull : d.isFull = decide (l.length = N) := by
        rw [ArrayDeque.isFull, h.len, Bool.eq_iff_iff, beq_iff_eq, decide_eq_true_iff]
      exact ⟨_, rfl, hfull ▸ .look h _⟩
  | clear =>
      obtain ⟨d', hclear, hrep⟩ := h.clear
      exact ⟨⟨.unit, [d'], [], [], l⟩, by rw [ArrayDeque.apply, hclear]; rfl, rfl,
        .cons hrep .nil, by simp [listApply]⟩
  | clone =>
      obtain ⟨new, hclone, hrep⟩ := h.clone cl
      exact ⟨⟨.unit, [d, new], l.map cl, [], []⟩, by rw [ArrayDeque.apply, hclone]; rfl, rfl,
        .cons h (.cons hrep .nil), by simp [listApply]⟩
  | drain calls =>
      obtain ⟨d', hdrain, hrep⟩ := h.drain calls
      refine ⟨⟨.drained (takeEnds calls l).1, [d'], [], (takeEnds calls l).1.filterMap id,
        (takeEnds calls l).2⟩, by rw [ArrayDeque.apply, hdrain]; rfl, rfl, .cons hrep .nil, ?_⟩
      simpa [listApply] using (takeEnds_perm calls l).symm
  | drop =>
      exact ⟨⟨.unit, [], [], [], l⟩, by rw [ArrayDeque.apply, h.drop]; rfl, rfl, .nil,
        by simp [listApply]⟩

end ArrayDeque

/-! ### All deques -/

namespace Deques

/-- The deques hold the lists, and every element that entered is held, handed back or dropped. -/
structure Inv (s : Deques α N) (ls : List (List α)) : Prop where
  lists : List.Forall₂ ArrayDeque.Represents s.deques ls
  owners : s.entered.Perm (ls.flatten ++ (s.out ++ s.dropped))

/-- One of the deques, and its list. -/
theorem getElem?_cases {ds : List (ArrayDeque α N)} {ls : List (List α)}
    (h : List.Forall₂ ArrayDeque.Represents ds ls) (k : ℕ) :
    (ds[k]? = none ∧ ls[k]? = none) ∨
      ∃ d l, ds[k]? = some d ∧ ls[k]? = some l ∧ d.Represents l := by
  induction h generalizing k with
  | nil => exact .inl ⟨rfl, rfl⟩
  | @cons d l ds ls hd _ ih =>
      cases k with
      | zero => exact .inr ⟨d, l, rfl, rfl, hd⟩
      | succ k => exact ih k

/-- Replacing one list by others, with the elements that the lists gain and lose. -/
theorem perm_replace {ls new : List (List α)} {l : List α} {k : ℕ} (hl : ls[k]? = some l)
    {entered entered' gone gone' : List α} (h : entered.Perm (ls.flatten ++ gone))
    (h' : (l ++ entered').Perm (new.flatten ++ gone')) :
    (entered ++ entered').Perm
      ((ls.take k ++ new ++ ls.drop (k + 1)).flatten ++ (gone ++ gone')) := by
  classical
  obtain ⟨hk, rfl⟩ := List.getElem?_eq_some_iff.mp hl
  have hls : ls = ls.take k ++ ls[k] :: ls.drop (k + 1) := by
    rw [List.getElem_cons_drop, List.take_append_drop]
  rw [hls] at h
  rw [List.perm_iff_count] at h h' ⊢
  intro a
  have ha := h a
  have ha' := h' a
  simp only [List.flatten_append, List.flatten_cons, List.count_append] at ha ha' ⊢
  omega

/-- **The step lemma**: an operation on the deques is that on their lists. -/
theorem Inv.step {s : Deques α N} {ls : List (List α)} (h : Inv s ls) (hN : N < 2 ^ 64)
    (cl : α → α) (op : DequesOp α) :
    ∃ s', s.step cl op = .ok ((listStep N cl ls op).1, s') ∧ Inv s' (listStep N cl ls op).2 := by
  cases op with
  | new =>
      refine ⟨⟨s.deques ++ [.new], s.entered, s.out, s.dropped⟩, rfl,
        List.rel_append h.lists (.cons ArrayDeque.represents_new .nil), ?_⟩
      have howners := h.owners
      simpa [listStep] using howners
  | on k op =>
      rcases getElem?_cases h.lists k with ⟨hd, hl⟩ | ⟨d, l, hd, hl, hrep⟩
      · refine ⟨s, ?_, ?_⟩
        · simp only [Deques.step, listStep, hd, hl]
        · simpa only [listStep, hl] using h
      · obtain ⟨e, happly, heff⟩ := hrep.apply hN cl op
        refine ⟨⟨s.deques.take k ++ e.deques ++ s.deques.drop (k + 1), s.entered ++ e.entered,
          s.out ++ e.out, s.dropped ++ e.dropped⟩, ?_, ?_⟩
        · simp only [Deques.step, listStep, hd, hl, happly, ok_bind, heff.result]
          rfl
        · simp only [listStep, hl]
          refine ⟨List.rel_append (List.rel_append (List.forall₂_take k h.lists) heff.deques)
            (List.forall₂_drop (k + 1) h.lists), ?_⟩
          refine (perm_replace hl h.owners heff.owners).trans (List.Perm.append_left _ ?_)
          rw [List.append_assoc, List.append_assoc]
          refine List.Perm.append_left _ ?_
          rw [← List.append_assoc, ← List.append_assoc]
          exact List.perm_append_comm.append_right _

/-- The run lemma. -/
theorem Inv.run {s : Deques α N} {ls : List (List α)} (h : Inv s ls) (hN : N < 2 ^ 64)
    (cl : α → α) (ops : List (DequesOp α)) :
    ∃ s', run cl ops s = .ok ((listRun N cl ops ls).1, s') ∧ Inv s' (listRun N cl ops ls).2 := by
  induction ops generalizing s ls with
  | nil => exact ⟨s, rfl, h⟩
  | cons op ops ih =>
      obtain ⟨s₁, hstep, hinv⟩ := h.step hN cl op
      obtain ⟨s₂, hrun, hinv'⟩ := ih hinv
      refine ⟨s₂, ?_, hinv'⟩
      rw [Deques.run, hstep, ok_bind]
      simp only [hrun, ok_bind]
      rfl

/-- **Array deques are lists of at most `N` elements.** Every sequence of operations returns, with
the results it has on lists, so it never reads a slot that holds nothing. At its end the deques
hold the lists, no head is past the array, and every element that a deque took over is held, or
was handed back or dropped, once. -/
theorem deques_refine_lists (hN : N < 2 ^ 64) (cl : α → α) (ops : List (DequesOp α)) :
    ∃ s, run cl ops (empty : Deques α N) = .ok ((listRun N cl ops []).1, s) ∧
      List.Forall₂ (fun d l => d.toList = l ∧ l.length ≤ N) s.deques (listRun N cl ops []).2 ∧
      (0 < N → ∀ d ∈ s.deques, d.head < N) ∧
      s.entered.Perm ((s.deques.map ArrayDeque.toList).flatten ++ (s.out ++ s.dropped)) := by
  have hempty : Inv (empty : Deques α N) [] := ⟨.nil, List.Perm.refl _⟩
  obtain ⟨s, hrun, hinv⟩ := hempty.run hN cl ops
  have hlists : ∀ ds ls, List.Forall₂ (@ArrayDeque.Represents α N) ds ls →
      ds.map ArrayDeque.toList = ls ∧ (0 < N → ∀ d ∈ ds, d.head < N) := by
    intro ds ls h
    induction h with
    | nil => exact ⟨rfl, fun _ _ hd => absurd hd List.not_mem_nil⟩
    | @cons d l ds ls hd _ ih =>
        refine ⟨by rw [List.map_cons, hd.toList_eq, ih.1], fun hpos d' hd' => ?_⟩
        rcases List.mem_cons.mp hd' with rfl | hmem
        · have := hd.head
          omega
        · exact ih.2 hpos d' hmem
  obtain ⟨hmap, hhead⟩ := hlists _ _ hinv.lists
  exact ⟨s, hrun, hinv.lists.imp fun d l hd => ⟨hd.toList_eq, hd.le⟩, hhead,
    hmap ▸ hinv.owners⟩

/-- A deque of two elements whose elements wrap around, and its clone. -/
theorem deques_refine_lists_two : ∃ s, run (· + 10)
    [.new, .on 0 (.pushFront 1), .on 0 (.pushBack 2), .on 0 (.pushBack 3), .on 0 .clone,
      .on 0 (.writeBack 4), .on 0 (.drain [.back]), .on 1 .popBack, .on 1 .drop]
    (empty : Deques ℕ 2) =
      .ok ([.unit, .push (.ok ()), .push (.ok ()), .push (.error 3), .unit, .written true,
        .drained [some 4], .elem (some 12), .unit], s) := by
  obtain ⟨s, hrun, -⟩ := deques_refine_lists (N := 2) (by decide) (· + 10)
    [.new, .on 0 (.pushFront 1), .on 0 (.pushBack 2), .on 0 (.pushBack 3), .on 0 .clone,
      .on 0 (.writeBack 4), .on 0 (.drain [.back]), .on 1 .popBack, .on 1 .drop]
  exact ⟨s, hrun⟩

end Deques

end HydroxKernel
