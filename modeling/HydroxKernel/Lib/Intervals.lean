import Mathlib.Order.Interval.Set.Basic
import Mathlib.Order.Interval.Set.LinearOrder
import Mathlib.Data.List.Pairwise
import Mathlib.Tactic.Tauto

/-!
# Lists of Half-Open Intervals

A set of points of a linear order can be kept as a list of half-open intervals `(a, b)`.
The list is canonical when its intervals are non-empty, increasing, and neither overlap
nor touch; then it is as short as possible, and it is determined by the set it covers.

## Main results

* `canonical_append`, `cover_append`: canonicity and coverage of a concatenation.
* `canonical_insert`, `canonical_extend_left`, `canonical_extend_right`,
  `canonical_bridge`: adding an interval that touches none of the list, or some of it.
* `eq_of_mem_Ico`: a point lies in one interval of a canonical list at most.
* `end_le_last`, `not_mem_cover_of_gap`: where a canonical list ends, and where its gaps are.
* `canonical_replace`, `cover_replace`: an interval may be replaced by canonical
  intervals inside it.
* `eq_of_cover_eq`: a canonical list is determined by the set it covers.
-/

namespace HydroxKernel.Intervals

variable {α : Type*} [LinearOrder α]

/-- The intervals are non-empty, increasing, and neither overlap nor touch. -/
def Canonical (l : List (α × α)) : Prop :=
  (∀ r ∈ l, r.1 < r.2) ∧ l.Pairwise fun a b => a.2 < b.1

/-- The points the intervals cover. -/
def cover (l : List (α × α)) : Set α := {x | ∃ r ∈ l, r.1 ≤ x ∧ x < r.2}

/-- What intervals cover. -/
theorem mem_cover {l : List (α × α)} {x : α} : x ∈ cover l ↔ ∃ r ∈ l, r.1 ≤ x ∧ x < r.2 :=
  Iff.rfl

/-- No interval covers nothing. -/
@[simp] theorem cover_nil : cover ([] : List (α × α)) = ∅ := by
  ext x
  simp [mem_cover]

/-- What an interval and others cover. -/
@[simp] theorem cover_cons (r : α × α) (l : List (α × α)) :
    cover (r :: l) = Set.Ico r.1 r.2 ∪ cover l := by
  ext x
  simp [mem_cover]

/-- What intervals and further ones cover. -/
@[simp] theorem cover_append (l l' : List (α × α)) : cover (l ++ l') = cover l ∪ cover l' := by
  ext x
  simp only [mem_cover, List.mem_append, Set.mem_union]
  constructor
  · rintro ⟨r, hr | hr, hx⟩
    · exact Or.inl ⟨r, hr, hx⟩
    · exact Or.inr ⟨r, hr, hx⟩
  · rintro (⟨r, hr, hx⟩ | ⟨r, hr, hx⟩)
    · exact ⟨r, Or.inl hr, hx⟩
    · exact ⟨r, Or.inr hr, hx⟩

/-- No intervals are canonical. -/
@[simp] theorem canonical_nil : Canonical ([] : List (α × α)) := by simp [Canonical]

/-- An interval before canonical ones, with a gap. -/
@[simp] theorem canonical_cons (r : α × α) (l : List (α × α)) :
    Canonical (r :: l) ↔ r.1 < r.2 ∧ (∀ b ∈ l, r.2 < b.1) ∧ Canonical l := by
  simp only [Canonical, List.forall_mem_cons, List.pairwise_cons]
  tauto

/-- A concatenation is canonical when both parts are and the first lies before the
second. -/
theorem canonical_append {l l' : List (α × α)} :
    Canonical (l ++ l') ↔ Canonical l ∧ Canonical l' ∧ ∀ a ∈ l, ∀ b ∈ l', a.2 < b.1 := by
  simp only [Canonical, List.forall_mem_append, List.pairwise_append]
  tauto

/-- A point lies in one interval of a canonical list at most. -/
theorem eq_of_mem_Ico {l : List (α × α)} {x y : α × α} {a : α} (h : Canonical l)
    (hx : x ∈ l) (hy : y ∈ l) (hax : a ∈ Set.Ico x.1 x.2) (hay : a ∈ Set.Ico y.1 y.2) :
    x = y := by
  induction l with
  | nil => simp at hx
  | cons b l ih =>
      obtain ⟨-, hlt, hl⟩ := (canonical_cons b l).mp h
      rcases List.mem_cons.mp hx with rfl | hxl <;> rcases List.mem_cons.mp hy with rfl | hyl
      · rfl
      · exact absurd (hax.2.trans (hlt y hyl)) (not_lt.mpr hay.1)
      · exact absurd (hay.2.trans (hlt x hxl)) (not_lt.mpr hax.1)
      · exact ih hl hxl hyl

/-- No interval of a canonical list ends behind the last one. -/
theorem end_le_last {l : List (α × α)} {a z : α × α} (h : Canonical l)
    (hz : l.getLast? = some z) (ha : a ∈ l) : a.2 ≤ z.2 := by
  obtain ⟨l, rfl⟩ := List.getLast?_eq_some_iff.mp hz
  rcases List.mem_append.mp ha with ha | ha
  · have hlt := (canonical_append.mp h).2.2 a ha z (by simp)
    exact (hlt.trans (h.1 z (by simp))).le
  · rw [List.mem_singleton.mp ha]

/-- A point between two parts of a list is not covered. -/
theorem not_mem_cover_of_gap {l k : List (α × α)} {x : α} (hl : ∀ a ∈ l, a.2 ≤ x)
    (hk : ∀ b ∈ k, x < b.1) : x ∉ cover (l ++ k) := by
  rintro ⟨r, hr, hrx, hxr⟩
  rcases List.mem_append.mp hr with hr | hr
  · exact absurd hxr (not_lt.mpr (hl r hr))
  · exact absurd hrx (not_le.mpr (hk r hr))

/-- An interval that touches none of the list may be inserted. -/
theorem canonical_insert {l l' : List (α × α)} {r : α × α} (h : Canonical (l ++ l'))
    (hr : r.1 < r.2) (hl : ∀ a ∈ l, a.2 < r.1) (hl' : ∀ b ∈ l', r.2 < b.1) :
    Canonical (l ++ r :: l') ∧
      cover (l ++ r :: l') = cover (l ++ l') ∪ Set.Ico r.1 r.2 := by
  obtain ⟨h1, h2, h3⟩ := canonical_append.mp h
  constructor
  · refine canonical_append.mpr ⟨h1, (canonical_cons _ _).mpr ⟨hr, hl', h2⟩, ?_⟩
    intro a ha b hb
    rcases List.mem_cons.mp hb with rfl | hb
    · exact hl a ha
    · exact h3 a ha b hb
  · ext z
    simp only [cover_append, cover_cons, Set.mem_union]
    tauto

/-- An interval may be replaced by canonical intervals inside it. -/
theorem canonical_replace {l l' m : List (α × α)} {r : α × α} (h : Canonical (l ++ r :: l'))
    (hm : Canonical m) (hin : ∀ q ∈ m, r.1 ≤ q.1 ∧ q.2 ≤ r.2) :
    Canonical (l ++ (m ++ l')) := by
  obtain ⟨h1, h2, h3⟩ := canonical_append.mp h
  obtain ⟨-, h4, h5⟩ := (canonical_cons _ _).mp h2
  refine canonical_append.mpr ⟨h1, canonical_append.mpr ⟨hm, h5, ?_⟩, ?_⟩
  · intro a ha b hb
    exact lt_of_le_of_lt (hin a ha).2 (h4 b hb)
  · intro a ha b hb
    rcases List.mem_append.mp hb with hb | hb
    · exact lt_of_lt_of_le (h3 a ha r (by simp)) (hin b hb).1
    · exact h3 a ha b (by simp [hb])

/-- The points of one interval of a canonical list are covered by no other interval. -/
theorem not_mem_cover_of_mem_Ico {l l' : List (α × α)} {r : α × α}
    (h : Canonical (l ++ r :: l')) {x : α} (hx : x ∈ Set.Ico r.1 r.2) :
    x ∉ cover l ∧ x ∉ cover l' := by
  obtain ⟨-, h2, h3⟩ := canonical_append.mp h
  obtain ⟨-, h4, -⟩ := (canonical_cons _ _).mp h2
  constructor
  · rintro ⟨a, ha, -, hxa⟩
    exact absurd (lt_trans hxa (h3 a ha r (by simp))) (not_lt.mpr hx.1)
  · rintro ⟨b, hb, hbx, -⟩
    exact absurd (lt_of_lt_of_le (h4 b hb) hbx) (not_lt.mpr hx.2.le)

/-- Cutting `s` out of an interval that contains it cuts `s` out of the covered set. -/
theorem cover_replace {l l' m : List (α × α)} {r : α × α} {s : Set α}
    (h : Canonical (l ++ r :: l')) (hs : s ⊆ Set.Ico r.1 r.2)
    (hm : cover m = Set.Ico r.1 r.2 \ s) :
    cover (l ++ (m ++ l')) = cover (l ++ r :: l') \ s := by
  ext x
  have hx : x ∈ s → x ∉ cover l ∧ x ∉ cover l' := fun hx =>
    not_mem_cover_of_mem_Ico h (hs hx)
  simp only [cover_append, cover_cons, hm, Set.mem_union, Set.mem_sdiff]
  tauto

/-- An interval between two that it touches joins them to one. -/
theorem canonical_bridge {l l' : List (α × α)} {x y r : α × α}
    (h : Canonical (l ++ x :: y :: l')) (hx : x.2 = r.1) (hr : r.1 < r.2) (hy : y.1 = r.2) :
    Canonical (l ++ (x.1, y.2) :: l') ∧
      cover (l ++ (x.1, y.2) :: l') = cover (l ++ x :: y :: l') ∪ Set.Ico r.1 r.2 := by
  obtain ⟨h1, h2, h3⟩ := canonical_append.mp h
  obtain ⟨hxx, -, h5⟩ := (canonical_cons _ _).mp h2
  obtain ⟨hyy, h6, h7⟩ := (canonical_cons _ _).mp h5
  have hxr : x.1 < r.2 := (hx ▸ hxx).trans hr
  have hjoin : Set.Ico x.1 y.2 = Set.Ico x.1 x.2 ∪ Set.Ico r.1 r.2 ∪ Set.Ico y.1 y.2 := by
    rw [hx, Set.Ico_union_Ico_eq_Ico (hx ▸ hxx.le) hr.le, hy,
      Set.Ico_union_Ico_eq_Ico hxr.le (hy ▸ hyy.le)]
  constructor
  · refine canonical_append.mpr ⟨h1, (canonical_cons _ _).mpr ⟨?_, h6, h7⟩, ?_⟩
    · exact hxr.trans (hy ▸ hyy)
    · intro a ha b hb
      rcases List.mem_cons.mp hb with rfl | hb
      · exact h3 a ha x (by simp)
      · exact h3 a ha b (by simp [hb])
  · ext z
    simp only [cover_append, cover_cons, hjoin, Set.mem_union]
    tauto

/-- An interval that starts where one of the list ends extends that one. -/
theorem canonical_extend_right {l l' : List (α × α)} {x r : α × α}
    (h : Canonical (l ++ x :: l')) (hx : x.2 = r.1) (hr : r.1 < r.2) (hl' : ∀ b ∈ l', r.2 < b.1) :
    Canonical (l ++ (x.1, r.2) :: l') ∧
      cover (l ++ (x.1, r.2) :: l') = cover (l ++ x :: l') ∪ Set.Ico r.1 r.2 := by
  obtain ⟨h1, h2, h3⟩ := canonical_append.mp h
  obtain ⟨hxx, -, h5⟩ := (canonical_cons _ _).mp h2
  have hxr : x.1 < r.1 := hx ▸ hxx
  constructor
  · refine canonical_append.mpr ⟨h1, (canonical_cons _ _).mpr ⟨hxr.trans hr, hl', h5⟩, ?_⟩
    intro a ha b hb
    rcases List.mem_cons.mp hb with rfl | hb
    · exact h3 a ha x (by simp)
    · exact h3 a ha b (by simp [hb])
  · ext z
    simp only [cover_append, cover_cons, ← Set.Ico_union_Ico_eq_Ico hxr.le hr.le, hx,
      Set.mem_union]
    tauto

/-- An interval that ends where one of the list starts extends that one. -/
theorem canonical_extend_left {l l' : List (α × α)} {y r : α × α}
    (h : Canonical (l ++ y :: l')) (hl : ∀ a ∈ l, a.2 < r.1) (hr : r.1 < r.2) (hy : y.1 = r.2) :
    Canonical (l ++ (r.1, y.2) :: l') ∧
      cover (l ++ (r.1, y.2) :: l') = cover (l ++ y :: l') ∪ Set.Ico r.1 r.2 := by
  obtain ⟨h1, h2, h3⟩ := canonical_append.mp h
  obtain ⟨hyy, h4, h5⟩ := (canonical_cons _ _).mp h2
  have hry : r.2 < y.2 := hy ▸ hyy
  constructor
  · refine canonical_append.mpr ⟨h1, (canonical_cons _ _).mpr ⟨hr.trans hry, h4, h5⟩, ?_⟩
    intro a ha b hb
    rcases List.mem_cons.mp hb with rfl | hb
    · exact hl a ha
    · exact h3 a ha b (by simp [hb])
  · ext z
    simp only [cover_append, cover_cons, ← Set.Ico_union_Ico_eq_Ico hr.le hry.le, hy,
      Set.mem_union]
    tauto

/-- No point before the first interval of a canonical list is covered. -/
theorem le_of_mem_cover {r : α × α} {l : List (α × α)} {x : α} (h : Canonical (r :: l))
    (hx : x ∈ cover (r :: l)) : r.1 ≤ x := by
  obtain ⟨hr, hlt, -⟩ := (canonical_cons r l).mp h
  obtain ⟨q, hq, hqx, -⟩ := hx
  rcases List.mem_cons.mp hq with rfl | hq
  · exact hqx
  · exact (hr.trans (hlt q hq)).le.trans hqx

/-- A point that the first interval covers begins no later one. -/
theorem mem_cover_cons_iff {r : α × α} {l : List (α × α)} {x : α} (h : Canonical (r :: l)) :
    x ∈ cover l ↔ x ∈ cover (r :: l) ∧ r.2 ≤ x := by
  obtain ⟨-, hlt, -⟩ := (canonical_cons r l).mp h
  rw [cover_cons, Set.mem_union, Set.mem_Ico]
  constructor
  · intro hx
    have hcovered := hx
    obtain ⟨q, hq, hqx, -⟩ := hcovered
    exact ⟨.inr hx, (hlt q hq).le.trans hqx⟩
  · rintro ⟨hx | hx, hle⟩
    · exact absurd hx.2 (not_lt.mpr hle)
    · exact hx

/-- The first interval of a canonical list ends no later than that of another one for the same
points. -/
theorem end_le_of_cover_eq {r r' : α × α} {l l' : List (α × α)} (h' : Canonical (r' :: l'))
    (hstart : r.1 = r'.1) (hcover : cover (r :: l) = cover (r' :: l')) : r.2 ≤ r'.2 := by
  by_contra hlt
  obtain ⟨hr', hafter, -⟩ := (canonical_cons r' l').mp h'
  have hend : r'.2 ∈ cover (r :: l) := by
    rw [cover_cons]
    exact .inl ⟨hstart.le.trans hr'.le, not_le.mp hlt⟩
  rw [hcover] at hend
  obtain ⟨q, hq, hqx, -⟩ := (mem_cover_cons_iff h').mpr ⟨hend, le_rfl⟩
  exact absurd (hafter q hq) (not_lt.mpr hqx)

/-- **A canonical list is determined** by the points that it covers. -/
theorem eq_of_cover_eq {l l' : List (α × α)} (h : Canonical l) (h' : Canonical l')
    (hcover : cover l = cover l') : l = l' := by
  induction l generalizing l' with
  | nil =>
      cases l' with
      | nil => rfl
      | cons r' l' =>
          have hstart : r'.1 ∈ cover (r' :: l') :=
            ⟨r', List.mem_cons_self, le_rfl, h'.1 r' List.mem_cons_self⟩
          rw [← hcover, cover_nil] at hstart
          exact absurd hstart (Set.notMem_empty _)
  | cons r l ih =>
      have hstart : r.1 ∈ cover (r :: l) :=
        ⟨r, List.mem_cons_self, le_rfl, h.1 r List.mem_cons_self⟩
      cases l' with
      | nil =>
          rw [hcover, cover_nil] at hstart
          exact absurd hstart (Set.notMem_empty _)
      | cons r' l' =>
          have hstart' : r'.1 ∈ cover (r' :: l') :=
            ⟨r', List.mem_cons_self, le_rfl, h'.1 r' List.mem_cons_self⟩
          have h1 : r.1 = r'.1 := le_antisymm (le_of_mem_cover h (hcover ▸ hstart'))
            (le_of_mem_cover h' (hcover ▸ hstart))
          have h2 : r.2 = r'.2 := le_antisymm (end_le_of_cover_eq h' h1 hcover)
            (end_le_of_cover_eq h h1.symm hcover.symm)
          have hrest : cover l = cover l' := by
            ext x
            rw [mem_cover_cons_iff h, mem_cover_cons_iff h', hcover, h2]
          rw [Prod.ext h1 h2, ih ((canonical_cons r l).mp h).2.2
            ((canonical_cons r' l').mp h').2.2 hrest]

end HydroxKernel.Intervals
