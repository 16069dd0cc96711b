import Mathlib.Data.List.Nodup

/-!
# Linked Lists in a Store

Intrusive lists are kept by the kernel as partial functions from a node to its
neighbours: `next : ι → Option ι`, and for doubly linked lists also
`prev : ι → Option ι`. This module relates such functions to the list of nodes they
link, over an arbitrary type of nodes.

* `Chain next h l e`: following `next` from `h` visits exactly the nodes `l` and stops
  at `e`.
* `DSeg prev next a l b`: the nodes `l` are linked in both directions, the first one
  pointing back to `a` and the last one forward to `b`.

## Main results

* `chain_append`, `dseg_append`: a chain or a segment splits where its list splits.
* `chain_congr`, `dseg_congr`: only the links of the nodes on the list matter.
* `Chain.nodup`: a chain that ends visits no node twice.
* `dseg_pushBack`, `dseg_insert`, `dseg_unlink`: adding and removing a node.
* `DSeg.prev_of_next`, `DSeg.next_of_prev`: the two link directions are inverse.
-/

namespace HydroxKernel.Links

variable {ι : Type*} {prev next prev' next' : ι → Option ι}

/-! ### Singly linked chains -/

/-- Following `next` from `h` visits exactly the nodes `l`, in order, and stops at `e`. -/
def Chain (next : ι → Option ι) : Option ι → List ι → Option ι → Prop
  | h, [], e => h = e
  | h, x :: xs, e => h = some x ∧ Chain next (next x) xs e

/-- An empty chain. -/
@[simp] theorem chain_nil (h e : Option ι) : Chain next h [] e ↔ h = e := Iff.rfl

/-- A chain from its first element. -/
@[simp] theorem chain_cons (h e : Option ι) (x : ι) (xs : List ι) :
    Chain next h (x :: xs) e ↔ h = some x ∧ Chain next (next x) xs e := Iff.rfl

/-- A chain splits where its list splits. -/
theorem chain_append {h e : Option ι} {xs ys : List ι} :
    Chain next h (xs ++ ys) e ↔ ∃ m, Chain next h xs m ∧ Chain next m ys e := by
  induction xs generalizing h with
  | nil => simp
  | cons x xs ih => simp [ih, and_assoc]

/-- Only the links of the nodes on the chain matter. -/
theorem chain_congr {h e : Option ι} {l : List ι} (hn : ∀ x ∈ l, next' x = next x) :
    Chain next' h l e ↔ Chain next h l e := by
  induction l generalizing h with
  | nil => simp
  | cons x xs ih =>
      rw [chain_cons, chain_cons, hn x (by simp), ih fun y hy => hn y (by simp [hy])]

/-- The nodes visited before the end of a chain are determined by its start. -/
theorem Chain.unique {h : Option ι} {l l' : List ι} (hl : Chain next h l none)
    (hl' : Chain next h l' none) : l = l' := by
  induction l generalizing h l' with
  | nil =>
      cases l' with
      | nil => rfl
      | cons y ys =>
          rw [chain_nil] at hl
          rw [hl] at hl'
          exact absurd hl'.1 (by simp)
  | cons x xs ih =>
      cases l' with
      | nil =>
          rw [chain_nil] at hl'
          rw [hl'] at hl
          exact absurd hl.1 (by simp)
      | cons y ys =>
          obtain rfl : x = y := Option.some.inj (hl.1.symm.trans hl'.1)
          rw [ih hl.2 hl'.2]

/-- A chain that ends visits no node twice. -/
theorem Chain.nodup {h : Option ι} {l : List ι} (hl : Chain next h l none) : l.Nodup := by
  induction l generalizing h with
  | nil => exact List.nodup_nil
  | cons x xs ih =>
      refine List.nodup_cons.mpr ⟨fun hx => ?_, ih hl.2⟩
      -- a second visit of `x` would be followed by the same nodes as the first one
      obtain ⟨as, bs, rfl⟩ := List.append_of_mem hx
      obtain ⟨m, -, hm⟩ := chain_append.mp hl.2
      have hself := hl.2.unique hm.2
      have := congrArg List.length hself
      simp only [List.length_append, List.length_cons] at this
      omega

/-! ### Doubly linked segments -/

/-- The nodes `l` are linked in both directions: the first one points back to `a`, the
last one forward to `b`. -/
def DSeg (prev next : ι → Option ι) : Option ι → List ι → Option ι → Prop
  | _, [], _ => True
  | a, x :: xs, b => prev x = a ∧ next x = xs.head?.or b ∧ DSeg prev next (some x) xs b

/-- An empty segment. -/
@[simp] theorem dseg_nil (a b : Option ι) : DSeg prev next a [] b := trivial

/-- A segment from its first element. -/
@[simp] theorem dseg_cons (a b : Option ι) (x : ι) (xs : List ι) :
    DSeg prev next a (x :: xs) b ↔
      prev x = a ∧ next x = xs.head?.or b ∧ DSeg prev next (some x) xs b := Iff.rfl

/-- A segment splits where its list splits. -/
theorem dseg_append {a b : Option ι} {xs ys : List ι} :
    DSeg prev next a (xs ++ ys) b ↔
      DSeg prev next a xs (ys.head?.or b) ∧ DSeg prev next (xs.getLast?.or a) ys b := by
  induction xs generalizing a with
  | nil => simp
  | cons x xs ih =>
      rw [List.cons_append, dseg_cons, dseg_cons, ih, List.head?_append, Option.or_assoc]
      have hlast : (x :: xs).getLast?.or a = xs.getLast?.or (some x) := by
        cases xs with
        | nil => simp
        | cons y ys => simp [List.getLast?_cons]
      rw [hlast]
      tauto

/-- The links around one node of a segment. -/
theorem dseg_focus {a b : Option ι} {xs ys : List ι} {x : ι} :
    DSeg prev next a (xs ++ x :: ys) b ↔
      DSeg prev next a xs (some x) ∧ prev x = xs.getLast?.or a ∧ next x = ys.head?.or b ∧
        DSeg prev next (some x) ys b := by
  rw [dseg_append, dseg_cons]
  simp

/-- A segment with one more node at its end. -/
theorem dseg_concat {a b : Option ι} {xs : List ι} {x : ι} :
    DSeg prev next a (xs ++ [x]) b ↔
      DSeg prev next a xs (some x) ∧ prev x = xs.getLast?.or a ∧ next x = b := by
  rw [dseg_focus]
  simp

/-- Only the links of the nodes on the segment matter. -/
theorem dseg_congr {a b : Option ι} {l : List ι} (hp : ∀ x ∈ l, prev' x = prev x)
    (hn : ∀ x ∈ l, next' x = next x) : DSeg prev' next' a l b ↔ DSeg prev next a l b := by
  induction l generalizing a with
  | nil => simp
  | cons x xs ih =>
      rw [dseg_cons, dseg_cons, hp x (by simp), hn x (by simp),
        ih (fun y hy => hp y (by simp [hy])) fun y hy => hn y (by simp [hy])]

/-- Redirecting what the first node points back to. -/
theorem dseg_set_before {a a' b : Option ι} {x : ι} {xs : List ι}
    (h : DSeg prev next a (x :: xs) b) (hx : prev' x = a')
    (hp : ∀ y ∈ xs, prev' y = prev y) (hn : ∀ y ∈ x :: xs, next' y = next y) :
    DSeg prev' next' a' (x :: xs) b := by
  obtain ⟨-, h2, h3⟩ := h
  refine ⟨hx, (hn x (by simp)).trans h2, ?_⟩
  exact (dseg_congr hp fun y hy => hn y (by simp [hy])).mpr h3

/-- Unlinking the node after `p`. -/
theorem dseg_unlink {a b : Option ι} {xs ys : List ι} {p q : ι}
    (h : DSeg prev next a (xs ++ p :: q :: ys) b) (hnp : next' p = ys.head?.or b)
    (hpy : ∀ y, ys.head? = some y → prev' y = some p)
    (hp : ∀ x ∈ xs ++ p :: ys.tail, prev' x = prev x) (hn : ∀ x ∈ xs ++ ys, next' x = next x) :
    DSeg prev' next' a (xs ++ p :: ys) b := by
  obtain ⟨h1, h2, -, -, -, h3⟩ := dseg_focus.mp h
  refine dseg_focus.mpr ⟨?_, (hp p (by simp)).trans h2, hnp, ?_⟩
  · exact (dseg_congr (fun x hx => hp x (by simp [hx])) fun x hx => hn x (by simp [hx])).mpr h1
  · cases ys with
    | nil => simp
    | cons y ys =>
        exact dseg_set_before h3 (hpy y rfl) (fun x hx => hp x (by simp [hx]))
          fun x hx => hn x (List.mem_append_right _ hx)

/-- Linking a node after `p`. -/
theorem dseg_insert {a b : Option ι} {xs ys : List ι} {p q : ι}
    (h : DSeg prev next a (xs ++ p :: ys) b) (hnp : next' p = some q) (hpq : prev' q = some p)
    (hnq : next' q = ys.head?.or b) (hpy : ∀ y, ys.head? = some y → prev' y = some q)
    (hp : ∀ x ∈ xs ++ p :: ys.tail, prev' x = prev x) (hn : ∀ x ∈ xs ++ ys, next' x = next x) :
    DSeg prev' next' a (xs ++ p :: q :: ys) b := by
  obtain ⟨h1, h2, -, h3⟩ := dseg_focus.mp h
  refine dseg_focus.mpr ⟨?_, (hp p (by simp)).trans h2, by simpa using hnp, hpq, hnq, ?_⟩
  · exact (dseg_congr (fun x hx => hp x (by simp [hx])) fun x hx => hn x (by simp [hx])).mpr h1
  · cases ys with
    | nil => simp
    | cons y ys =>
        exact dseg_set_before h3 (hpy y rfl) (fun x hx => hp x (by simp [hx]))
          fun x hx => hn x (List.mem_append_right _ hx)

/-- Appending a node at the end of a doubly linked list. -/
theorem dseg_pushBack {l : List ι} {x : ι} (h : DSeg prev next none l none)
    (hp : ∀ y ∈ l, prev' y = prev y) (hn : ∀ y ∈ l.dropLast, next' y = next y)
    (hlast : ∀ y, l.getLast? = some y → next' y = some x) (hpx : prev' x = l.getLast?)
    (hnx : next' x = none) : DSeg prev' next' none (l ++ [x]) none := by
  rw [dseg_concat]
  refine ⟨?_, by simpa using hpx, hnx⟩
  rcases List.eq_nil_or_concat l with rfl | ⟨ys, y, rfl⟩
  · simp
  · rw [List.concat_eq_append] at *
    rw [dseg_concat] at h ⊢
    simp only [List.dropLast_concat] at hn
    refine ⟨(dseg_congr (fun z hz => hp z (by simp [hz])) hn).mpr h.1, ?_, hlast y (by simp)⟩
    rw [hp y (by simp)]
    exact h.2.1

/-- In a doubly linked list without repetitions, the successor of a node points back to
it. -/
theorem DSeg.prev_of_next {a b : Option ι} {l : List ι} (h : DSeg prev next a l b)
    {x y : ι} (hx : x ∈ l) (hb : b ≠ some y) (hxy : next x = some y) :
    prev y = some x := by
  obtain ⟨as, bs, rfl⟩ := List.append_of_mem hx
  obtain ⟨-, -, h2, h3⟩ := dseg_focus.mp h
  rw [hxy] at h2
  cases bs with
  | nil => exact absurd (by simpa using h2.symm) hb
  | cons z zs =>
      obtain rfl : y = z := by simpa using h2
      exact h3.1

/-- In a doubly linked list without repetitions, the predecessor of a node points
forward to it. -/
theorem DSeg.next_of_prev {a b : Option ι} {l : List ι} (h : DSeg prev next a l b)
    {x y : ι} (hx : x ∈ l) (hy : y ∈ l) (ha : a ≠ some x) (hyx : prev y = some x) :
    next x = some y := by
  obtain ⟨as, bs, rfl⟩ := List.append_of_mem hy
  obtain ⟨h1, h2, -, -⟩ := dseg_focus.mp h
  rw [hyx] at h2
  rcases List.eq_nil_or_concat as with rfl | ⟨ys, z, rfl⟩
  · exact absurd (by simpa using h2.symm) ha
  · rw [List.concat_eq_append] at *
    obtain rfl : x = z := by simpa using h2
    exact (dseg_concat.mp h1).2.2

/-- The forward links of a segment form a chain. -/
theorem DSeg.chain {a b : Option ι} {l : List ι} (h : DSeg prev next a l b) :
    Chain next (l.head?.or b) l b := by
  induction l generalizing a with
  | nil => simp
  | cons x xs ih =>
      refine ⟨by simp, ?_⟩
      rw [h.2.1]
      exact ih h.2.2

/-- A doubly linked list that ends visits no node twice. -/
theorem DSeg.nodup {a : Option ι} {l : List ι} (h : DSeg prev next a l none) : l.Nodup :=
  h.chain.nodup

end HydroxKernel.Links
