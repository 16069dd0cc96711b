import HydroxKernel.Lib.Links

/-!
# Families of Intrusive Queues

Several queues may share one set of nodes: every queue `k` has a head and a tail, and every
node carries one pair of links, for the one queue it can be on. This module relates such a
family of queues to the lists of nodes they hold, over arbitrary types of queues and nodes.

## Main results

* `Queues.pushBack`: appending a node that is on no queue.
* `Queues.unlink`: removing a node, wherever it stands on its queue.
* `Queues.popFront`: removing the first node of a queue.
-/

namespace HydroxKernel.Links

variable {κ ι : Type*}
variable {head tail head' tail' : κ → Option ι} {prev next prev' next' : ι → Option ι}
variable {q : κ → List ι} {k : κ} {x : ι}

/-- The queues hold the lists `q`: each list is linked in both directions, the head and the
tail of its queue are its ends, and no node is on two queues. -/
structure Queues (head tail : κ → Option ι) (prev next : ι → Option ι) (q : κ → List ι) :
    Prop where
  dseg : ∀ k, DSeg prev next none (q k) none
  head_eq : ∀ k, head k = (q k).head?
  tail_eq : ∀ k, tail k = (q k).getLast?
  disjoint : ∀ {k j x}, x ∈ q k → x ∈ q j → k = j

/-- Queues without nodes. -/
theorem queues_empty : Queues (fun _ : κ => none) (fun _ => none) prev next fun _ => [] where
  dseg _ := dseg_nil _ _
  head_eq _ := rfl
  tail_eq _ := rfl
  disjoint := by simp

/-- No node is on a queue twice. -/
theorem Queues.nodup (h : Queues head tail prev next q) (k : κ) : (q k).Nodup :=
  (h.dseg k).nodup

/-- The links around one node of a queue. -/
theorem Queues.focus (h : Queues head tail prev next q) {xs ys : List ι}
    (hq : q k = xs ++ x :: ys) :
    DSeg prev next none xs (some x) ∧ prev x = xs.getLast? ∧ next x = ys.head? ∧
      DSeg prev next (some x) ys none := by
  have hseg := h.dseg k
  rw [hq, dseg_focus, Option.or_none, Option.or_none] at hseg
  exact hseg

/-- The tail of a queue is on it. -/
theorem Queues.mem_of_tail (h : Queues head tail prev next q) (ht : tail k = some x) :
    x ∈ q k := by
  rw [h.tail_eq] at ht
  exact List.mem_of_getLast? ht

/-- Queues are unchanged if the ends and the links of their nodes are. -/
theorem Queues.congr (h : Queues head tail prev next q) (hh : ∀ j, head' j = head j)
    (ht : ∀ j, tail' j = tail j) (hp : ∀ j, ∀ y ∈ q j, prev' y = prev y)
    (hn : ∀ j, ∀ y ∈ q j, next' y = next y) : Queues head' tail' prev' next' q where
  dseg j := (dseg_congr (hp j) (hn j)).mpr (h.dseg j)
  head_eq j := (hh j).trans (h.head_eq j)
  tail_eq j := (ht j).trans (h.tail_eq j)
  disjoint := h.disjoint

/-- Redirecting what the last node of a segment points forward to. -/
theorem dseg_set_after {a b b' : Option ι} {xs : List ι} (h : DSeg prev next a xs b)
    (hp : ∀ y ∈ xs, prev' y = prev y) (hn : ∀ y ∈ xs.dropLast, next' y = next y)
    (hlast : ∀ y, xs.getLast? = some y → next' y = b') : DSeg prev' next' a xs b' := by
  rcases List.eq_nil_or_concat xs with rfl | ⟨ys, y, rfl⟩
  · simp
  · rw [List.concat_eq_append] at *
    rw [dseg_concat] at h ⊢
    rw [List.dropLast_concat] at hn
    refine ⟨(dseg_congr (fun z hz => hp z (by simp [hz])) hn).mpr h.1, ?_, hlast y (by simp)⟩
    rw [hp y (by simp)]
    exact h.2.1

/-- The last node of a list without repetitions occurs nowhere before. -/
theorem getLast?_ne_of_mem_dropLast {xs : List ι} (hnd : xs.Nodup) {y : ι}
    (hy : y ∈ xs.dropLast) : xs.getLast? ≠ some y := by
  intro hlast
  obtain ⟨zs, rfl⟩ := List.getLast?_eq_some_iff.mp hlast
  rw [List.dropLast_concat] at hy
  exact (List.nodup_append.mp hnd).2.2 y hy y (by simp) rfl

/-- A node between two other ones is unlinked from a segment without repetitions. -/
theorem dseg_unlink_mid {xs ys : List ι} (h : DSeg prev next none (xs ++ x :: ys) none)
    (hp : ∀ y ∈ xs ++ ys, ys.head? ≠ some y → prev' y = prev y)
    (hn : ∀ y ∈ xs ++ ys, xs.getLast? ≠ some y → next' y = next y)
    (hpy : ∀ y, ys.head? = some y → prev' y = xs.getLast?)
    (hnx : ∀ y, xs.getLast? = some y → next' y = ys.head?) :
    DSeg prev' next' none (xs ++ ys) none := by
  have hnd : (xs ++ x :: ys).Nodup := h.nodup
  have hdis : ∀ y ∈ xs, y ∉ ys := fun y hy hy' =>
    (List.nodup_append.mp hnd).2.2 y hy y (by simp [hy']) rfl
  rw [dseg_focus] at h
  rw [dseg_append, Option.or_none, Option.or_none]
  refine ⟨dseg_set_after h.1 (fun y hy => hp y (by simp [hy]) fun hy' => ?_)
    (fun y hy => hn y (by simp [List.dropLast_subset _ hy]) ?_) hnx, ?_⟩
  · exact hdis y hy (List.mem_of_mem_head? hy')
  · exact getLast?_ne_of_mem_dropLast (List.nodup_append.mp hnd).1 hy
  · cases ys with
    | nil => simp
    | cons y ys =>
        have hy : y ∉ ys := (List.nodup_cons.mp (List.nodup_cons.mp
          (List.nodup_append.mp hnd).2.1).2).1
        refine dseg_set_before h.2.2.2 (hpy y rfl) (fun z hz => hp z (by simp [hz]) ?_)
          fun z hz => hn z (by simp [hz]) fun hz' => ?_
        · rintro heq
          rw [List.head?_cons, Option.some.injEq] at heq
          exact hy (heq ▸ hz)
        · exact hdis z (List.mem_of_getLast? hz') hz

variable [DecidableEq κ] [DecidableEq ι]

/-- **Appending a node** that is on no queue. -/
theorem Queues.pushBack (h : Queues head tail prev next q) (hx : ∀ j, x ∉ q j)
    (hhead : ∀ j, head' j = if j = k ∧ tail k = none then some x else head j)
    (htail : ∀ j, tail' j = if j = k then some x else tail j)
    (hprev : ∀ y, prev' y = if y = x then tail k else prev y)
    (hnext : ∀ y, next' y = if y = x then none else if tail k = some y then some x else next y) :
    Queues head' tail' prev' next' (Function.update q k (q k ++ [x])) := by
  have hne : ∀ j, ∀ y ∈ q j, y ≠ x := fun j y hy heq => hx j (heq ▸ hy)
  have hp : ∀ j, ∀ y ∈ q j, prev' y = prev y := fun j y hy => by
    rw [hprev, if_neg (hne j y hy)]
  have hn : ∀ j, ∀ y ∈ q j, tail k ≠ some y → next' y = next y := fun j y hy ht => by
    rw [hnext, if_neg (hne j y hy), if_neg ht]
  constructor
  · intro j
    by_cases hj : j = k
    · subst hj
      rw [Function.update_self]
      refine dseg_pushBack (h.dseg j) (hp j)
        (fun y hy => hn j y (List.dropLast_subset _ hy) ?_) (fun y hy => ?_) ?_ ?_
      · rw [h.tail_eq]
        exact getLast?_ne_of_mem_dropLast (h.nodup j) hy
      · rw [hnext, if_neg (hne j y (List.mem_of_getLast? hy)), if_pos]
        rw [h.tail_eq, hy]
      · rw [hprev, if_pos rfl, h.tail_eq]
      · rw [hnext, if_pos rfl]
    · rw [Function.update_of_ne hj]
      exact (dseg_congr (hp j) fun y hy => hn j y hy fun ht =>
        hj (h.disjoint hy (h.mem_of_tail ht))).mpr (h.dseg j)
  · intro j
    rw [hhead]
    by_cases hj : j = k
    · subst hj
      rw [Function.update_self, h.tail_eq, h.head_eq]
      cases hq : q j with
      | nil => simp
      | cons y ys => simp
    · rw [Function.update_of_ne hj, if_neg fun hc => hj hc.1, h.head_eq]
  · intro j
    rw [htail]
    by_cases hj : j = k
    · subst hj
      rw [Function.update_self, if_pos rfl, List.getLast?_append]
      simp
    · rw [Function.update_of_ne hj, if_neg hj, h.tail_eq]
  · have hmem : ∀ {i y}, y ∈ Function.update q k (q k ++ [x]) i → y ∈ q i ∨ (y = x ∧ i = k) := by
      intro i y hy
      by_cases hi : i = k
      · subst hi
        rw [Function.update_self, List.mem_append, List.mem_singleton] at hy
        exact hy.imp_right fun hyx => ⟨hyx, rfl⟩
      · rw [Function.update_of_ne hi] at hy
        exact Or.inl hy
    intro i j y hi hj
    rcases hmem hi with hi | ⟨hyi, hik⟩ <;> rcases hmem hj with hj | ⟨hyj, hjk⟩
    · exact h.disjoint hi hj
    · exact absurd hyj (hne i y hi)
    · exact absurd hyi (hne j y hj)
    · rw [hik, hjk]

/-- **Removing a node** from its queue. The links of the removed node do not matter. -/
theorem Queues.unlink (h : Queues head tail prev next q) (hx : x ∈ q k)
    (hhead : ∀ j, head' j = if j = k ∧ prev x = none then next x else head j)
    (htail : ∀ j, tail' j = if j = k ∧ next x = none then prev x else tail j)
    (hprev : ∀ y, y ≠ x → prev' y = if next x = some y then prev x else prev y)
    (hnext : ∀ y, y ≠ x → next' y = if prev x = some y then next x else next y) :
    Queues head' tail' prev' next' (Function.update q k ((q k).erase x)) := by
  have hnd := h.nodup k
  obtain ⟨xs, ys, hq⟩ := List.append_of_mem hx
  obtain ⟨-, hpx, hnx, -⟩ := h.focus hq
  rw [hq] at hnd
  have hxs : x ∉ xs := fun hm => (List.nodup_append.mp hnd).2.2 x hm x (by simp) rfl
  have hys : x ∉ ys := (List.nodup_cons.mp (List.nodup_append.mp hnd).2.1).1
  have herase : (q k).erase x = xs ++ ys := by
    rw [hq, List.erase_append_right _ hxs, List.erase_cons_head]
  have hin : ∀ y ∈ xs ++ ys, y ∈ q k ∧ y ≠ x := by
    intro y hy
    rw [hq]
    rcases List.mem_append.mp hy with hy | hy
    · exact ⟨by simp [hy], fun heq => hxs (heq ▸ hy)⟩
    · exact ⟨by simp [hy], fun heq => hys (heq ▸ hy)⟩
  have hother : ∀ j, j ≠ k → ∀ y ∈ q j, y ≠ x ∧ next x ≠ some y ∧ prev x ≠ some y := by
    intro j hj y hy
    refine ⟨fun heq => hj (h.disjoint hy (heq ▸ hx)), fun hny => ?_, fun hpy => ?_⟩
    · rw [hnx] at hny
      exact hj (h.disjoint hy (hin y (by simp [List.mem_of_mem_head? hny])).1)
    · rw [hpx] at hpy
      exact hj (h.disjoint hy (hin y (by simp [List.mem_of_getLast? hpy])).1)
  rw [herase]
  constructor
  · intro j
    by_cases hj : j = k
    · subst hj
      rw [Function.update_self]
      refine dseg_unlink_mid (hq ▸ h.dseg j) (fun y hy hne => ?_) (fun y hy hne => ?_)
        (fun y hy => ?_) fun y hy => ?_
      · rw [hprev y (hin y hy).2, hnx, if_neg hne]
      · rw [hnext y (hin y hy).2, hpx, if_neg hne]
      · rw [hprev y (hin y (by simp [List.mem_of_mem_head? hy])).2, hnx, if_pos hy, hpx]
      · rw [hnext y (hin y (by simp [List.mem_of_getLast? hy])).2, hpx, if_pos hy, hnx]
    · rw [Function.update_of_ne hj]
      refine (dseg_congr (fun y hy => ?_) fun y hy => ?_).mpr (h.dseg j)
      · obtain ⟨hyx, hny, -⟩ := hother j hj y hy
        rw [hprev y hyx, if_neg hny]
      · obtain ⟨hyx, -, hpy⟩ := hother j hj y hy
        rw [hnext y hyx, if_neg hpy]
  · intro j
    rw [hhead]
    by_cases hj : j = k
    · subst hj
      rw [Function.update_self, hpx, hnx, h.head_eq, hq]
      cases xs with
      | nil => simp
      | cons y xs => simp [List.getLast?_cons]
    · rw [Function.update_of_ne hj, if_neg fun hc => hj hc.1, h.head_eq]
  · intro j
    rw [htail]
    by_cases hj : j = k
    · subst hj
      rw [Function.update_self, hpx, hnx, h.tail_eq, hq]
      cases ys with
      | nil => simp
      | cons y ys => simp [List.getLast?_append, List.getLast?_cons]
    · rw [Function.update_of_ne hj, if_neg fun hc => hj hc.1, h.tail_eq]
  · have hmem : ∀ {i y}, y ∈ Function.update q k (xs ++ ys) i → y ∈ q i := by
      intro i y hy
      by_cases hi : i = k
      · subst hi
        rw [Function.update_self] at hy
        exact (hin y hy).1
      · rwa [Function.update_of_ne hi] at hy
    intro i j y hi hj
    exact h.disjoint (hmem hi) (hmem hj)

/-- **Removing the first node** of a queue. -/
theorem Queues.popFront (h : Queues head tail prev next q) {l : List ι} (hq : q k = x :: l)
    (hhead : ∀ j, head' j = if j = k then next x else head j)
    (htail : ∀ j, tail' j = if j = k ∧ next x = none then none else tail j)
    (hprev : ∀ y, y ≠ x → prev' y = if next x = some y then none else prev y)
    (hnext : ∀ y, y ≠ x → next' y = next y) :
    Queues head' tail' prev' next' (Function.update q k l) := by
  have hsplit : q k = [] ++ x :: l := hq
  obtain ⟨-, hpx, -, -⟩ := h.focus hsplit
  rw [List.getLast?_nil] at hpx
  have hl : l = (q k).erase x := by rw [hq, List.erase_cons_head]
  rw [hl]
  refine h.unlink (by simp [hq]) ?_ ?_ ?_ ?_
  · simpa [hpx] using hhead
  · simpa [hpx] using htail
  · simpa [hpx] using hprev
  · simpa [hpx] using hnext

end HydroxKernel.Links
