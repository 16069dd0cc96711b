import HydroxKernel.Mem.VirtPages

/-!
# Page Lists that the Allocator Can Work On

The well-formed page lists of the allocator (`Good`), those that its operations can work on
(`Sound`), the search for the place of a region, and the regions that are read along `next`
(`Reads`). Freeing is in `HydroxKernel.Mem.VirtFree`, allocating and reserving in
`HydroxKernel.Mem.VirtTake`.

## Main results

* `binarySearchByKey_spec`: the search finds the key, or the place for it.
* `findPage_around`, `findIdxForRegionInsert_spec`: the place of a region.
* `Represents.reads`: the regions of a represented list are read along `next`.
-/

namespace HydroxKernel.Virt

open Links Intervals

/-- A well-formed page list: pages do not overflow, only a lone page is empty, and the
regions are canonical. -/
structure Good (L : List (ℕ × List VirtualAllocRegion)) : Prop where
  fits : Fits L
  filled : L.length ≤ 1 ∨ Filled L
  canonical : Canonical (regionsOf L)

/-- A page list that the operations can work on: like a well-formed one, but the first page
may be empty although others follow. -/
structure Sound (L : List (ℕ × List VirtualAllocRegion)) : Prop where
  fits : Fits L
  filled : Filled L.tail
  canonical : Canonical (regionsOf L)

/-- The operations can work on a well-formed list. -/
theorem Good.sound {L : List (ℕ × List VirtualAllocRegion)} (hg : Good L) : Sound L := by
  refine ⟨hg.fits, fun e he => ?_, hg.canonical⟩
  rcases hg.filled with hlen | hfill
  · have hnil : L.tail = [] := List.length_eq_zero_iff.mp (by rw [List.length_tail]; omega)
    simp [hnil] at he
  · exact hfill e (List.mem_of_mem_tail he)

/-- The first page is empty, others follow, and the region ends where the first of these
begins. -/
def MeetsEmptyHead (L : List (ℕ × List VirtualAllocRegion)) (r : VirtualAllocRegion) : Prop :=
  ∃ p₀ q y ys B, L = (p₀, []) :: (q, y :: ys) :: B ∧ y.1 = r.2

/-- The first page of a well-formed list is not empty when others follow. -/
theorem Good.not_meetsEmptyHead {L : List (ℕ × List VirtualAllocRegion)}
    {r : VirtualAllocRegion} (hg : Good L) : ¬ MeetsEmptyHead L r := by
  rintro ⟨p₀, q, y, ys, B, rfl, -⟩
  rcases hg.filled with hlen | hfill
  · simp at hlen
  · exact (filled_cons.mp hfill).1 rfl

section Lists

variable {α : Type*} {X Y : List α} {x y a : α}

/-- The element after a first part. -/
@[simp] theorem getElem?_length_append : (X ++ x :: Y)[X.length]? = some x := by simp

/-- The element after a first part is written. -/
@[simp] theorem set_length_append : (X ++ x :: Y).set X.length a = X ++ a :: Y := by
  simp [List.set_append_right]

/-- The element after a first part is removed. -/
@[simp] theorem eraseIdx_length_append : (X ++ x :: Y).eraseIdx X.length = X ++ Y := by
  simp [List.eraseIdx_append_of_length_le]

/-- The second element after a first part is removed. -/
@[simp] theorem eraseIdx_succ_length_append :
    (X ++ x :: y :: Y).eraseIdx (X.length + 1) = X ++ x :: Y := by
  simp [List.eraseIdx_append_of_length_le]

/-- An element is inserted after a first part. -/
theorem insertIdx_length_append : (X ++ Y).insertIdx X.length a = X ++ a :: Y := by
  induction X with
  | nil => cases Y <;> rfl
  | cons b X ih => simpa [List.insertIdx_succ_cons] using ih

/-- The first index whose key is not below `key` splits a list. -/
theorem exists_findIdx_split (f : α → ℕ) (key : ℕ) (rs : List α) :
    ∃ X Y, rs = X ++ Y ∧ (rs.map f).findIdx (fun k => key ≤ k) = X.length ∧
      (∀ x ∈ X, f x < key) ∧ ∀ y, Y.head? = some y → key ≤ f y := by
  induction rs with
  | nil => exact ⟨[], [], by simp⟩
  | cons r rs ih =>
      by_cases hr : key ≤ f r
      · exact ⟨[], r :: rs, rfl, by simp [List.findIdx_cons, hr], by simp, by simpa using hr⟩
      · obtain ⟨X, Y, rfl, hidx, hX, hY⟩ := ih
        refine ⟨r :: X, Y, rfl, ?_, ?_, hY⟩
        · rw [List.map_cons, List.findIdx_cons, hidx]
          simp [hr]
        · intro x hx
          rcases List.mem_cons.mp hx with rfl | hx
          · exact not_le.mp hr
          · exact hX x hx

/-- **The search** in a list with increasing keys finds the key, or the place between the
smaller and the larger ones. -/
theorem binarySearchByKey_spec {f : α → ℕ} {rs : List α} (key : ℕ)
    (hsorted : rs.Pairwise fun a b => f a < f b) :
    (∃ X x Y, rs = X ++ x :: Y ∧ f x = key ∧ (∀ a ∈ X, f a < key) ∧
      binarySearchByKey (rs.map f) key = .ok X.length) ∨
    ∃ X Y, rs = X ++ Y ∧ (∀ a ∈ X, f a < key) ∧ (∀ b ∈ Y, key < f b) ∧
      binarySearchByKey (rs.map f) key = .error X.length := by
  obtain ⟨X, Y, rfl, hidx, hX, hY⟩ := exists_findIdx_split f key rs
  cases Y with
  | nil =>
      have hget : ((X ++ []).map f)[X.length]? = none := by simp
      refine Or.inr ⟨X, [], rfl, hX, by simp, ?_⟩
      rw [binarySearchByKey, hidx, hget]
      simp
  | cons y Y =>
      have hget : ((X ++ y :: Y).map f)[X.length]? = some (f y) := by simp
      have hle := hY y rfl
      by_cases hkey : f y = key
      · refine Or.inl ⟨X, y, Y, rfl, hkey, hX, ?_⟩
        rw [binarySearchByKey, hidx, hget]
        simp [hkey]
      · have hlt : key < f y := lt_of_le_of_ne hle (Ne.symm hkey)
        refine Or.inr ⟨X, y :: Y, rfl, hX, ?_, ?_⟩
        · intro b hb
          rcases List.mem_cons.mp hb with rfl | hb
          · exact hlt
          · have := (List.pairwise_cons.mp (List.pairwise_append.mp hsorted).2.1).1 b hb
            omega
        · rw [binarySearchByKey, hidx, hget]
          simp [hkey]

end Lists

section Search

variable {m : Mem} {A B L : List (ℕ × List VirtualAllocRegion)} {p : ℕ}
  {rs : List VirtualAllocRegion} {r : VirtualAllocRegion}

/-- A canonical list has increasing starts and increasing ends. -/
theorem canonical_sorted {l : List VirtualAllocRegion} (h : Canonical l) :
    l.Pairwise (fun a b => a.1 < b.1) ∧ l.Pairwise fun a b => a.2 < b.2 := by
  constructor
  · refine h.2.imp_of_mem fun {a b} ha hb hab => ?_
    have := h.1 a ha
    omega
  · refine h.2.imp_of_mem fun {a b} ha hb hab => ?_
    have := h.1 b hb
    omega

/-- The bounds of a page with regions. -/
theorem range_concat {x y : VirtualAllocRegion} (hx : rs.head? = some x)
    (hy : rs.getLast? = some y) : range rs = some (x.1, y.2) := by
  simp [range, hx, hy]

/-- A region that meets no point of the list lies before or after each of its regions. -/
theorem before_or_after {l : List VirtualAllocRegion} (hl : ∀ q ∈ l, q.1 < q.2)
    (hr : r.1 < r.2) (hdis : Disjoint (Set.Ico r.1 r.2) (cover l)) :
    ∀ q ∈ l, q.2 ≤ r.1 ∨ r.2 ≤ q.1 := by
  intro q hq
  by_contra hcon
  rw [not_or, not_le, not_le] at hcon
  have hq' := hl q hq
  have hmem : max q.1 r.1 ∈ Set.Ico r.1 r.2 := ⟨by omega, by omega⟩
  exact Set.disjoint_left.mp hdis hmem ⟨q, hq, by omega, by omega⟩

/-- The walk of `free` stops at the last page that starts at or before the end of the
region. -/
theorem findPage_spec {A₀ B₀ : List (ℕ × List VirtualAllocRegion)} {p₀ : ℕ}
    {rs₀ : List VirtualAllocRegion} {fuel : ℕ} (h : Represents m L)
    (hL : L = A₀ ++ (p₀, rs₀) :: B₀) (hB : Filled B₀) (hcan : Canonical (regionsOf L))
    (hfuel : B₀.length < fuel) (hstart : A₀ = [] ∨ ∃ y ys, rs₀ = y :: ys ∧ y.1 ≤ r.2) :
    ∃ A p rs B, L = A ++ (p, rs) :: B ∧ findPage m r fuel p₀ = .ok p ∧
      (A = [] ∨ ∃ y ys, rs = y :: ys ∧ y.1 ≤ r.2) ∧ ∀ b ∈ regionsOf B, r.2 < b.1 := by
  induction fuel generalizing A₀ p₀ rs₀ B₀ with
  | zero => omega
  | succ fuel ih =>
      have hnext := (hL ▸ h).focus.2.1
      cases B₀ with
      | nil =>
          exact ⟨A₀, p₀, rs₀, [], hL, by simp [findPage, hnext], hstart, by simp⟩
      | cons e B₀ =>
          obtain ⟨q, qs⟩ := e
          have hnext' : m.next p₀ = some q := by simp [hnext]
          have hqr : m.regions q = qs := h.regions (q, qs) (by simp [hL])
          obtain ⟨y, ys, rfl⟩ := List.exists_cons_of_ne_nil (hB (q, qs) (by simp))
          obtain ⟨z, hz⟩ : ∃ z, (y :: ys).getLast? = some z := by simp [List.getLast?_cons]
          have hrange := range_concat (List.head?_cons : (y :: ys).head? = some y) hz
          rw [findPage]
          simp only [hnext', hqr, rangeUnwrap, hrange, bind, Except.bind]
          simp only [List.length_cons] at hfuel
          by_cases hge : r.2 ≥ y.1
          · rw [if_pos hge]
            have hL' : L = (A₀ ++ [(p₀, rs₀)]) ++ (q, y :: ys) :: B₀ := by simpa using hL
            exact ih hL' (fun e he => hB e (by simp [he])) (by omega)
              (Or.inr ⟨y, ys, rfl, hge⟩)
          · refine ⟨A₀, p₀, rs₀, (q, y :: ys) :: B₀, hL, by rw [if_neg hge], hstart, ?_⟩
            rw [hL, regionsOf_append, regionsOf_cons, canonical_append, canonical_append] at hcan
            intro b hb
            rw [regionsOf_cons, List.cons_append, List.mem_cons] at hb
            rcases hb with rfl | hb
            · omega
            · have hcan' := hcan.2.1.2.1
              rw [regionsOf_cons, List.cons_append, canonical_cons] at hcan'
              have := hcan'.2.1 b hb
              omega

/-- A page list around the page that a region belongs to: the regions of the pages before
it end at or before the region, those of the pages after it start behind it, and those of
the page lie on either side. -/
structure Around (A : List (ℕ × List VirtualAllocRegion)) (rs : List VirtualAllocRegion)
    (B : List (ℕ × List VirtualAllocRegion)) (r : VirtualAllocRegion) : Prop where
  nonempty : r.1 < r.2
  before : ∀ a ∈ regionsOf A, a.2 ≤ r.1
  sides : ∀ q ∈ rs, q.2 ≤ r.1 ∨ r.2 ≤ q.1
  after : ∀ b ∈ regionsOf B, r.2 < b.1
  start : A = [] ∨ ∃ y ys, rs = y :: ys ∧ y.1 ≤ r.2

/-- No page after another one is empty. -/
theorem Sound.filled_after (hs : Sound (A ++ (p, rs) :: B)) : Filled B := by
  have hfill := hs.filled
  cases A with
  | nil => exact hfill
  | cons e A => exact (filled_cons.mp (filled_append.mp hfill).2).2

/-- No page before another one is empty except the first. -/
theorem Sound.filled_tail_before (hs : Sound (A ++ (p, rs) :: B)) : Filled A.tail := by
  have hfill := hs.filled
  cases A with
  | nil => simp [Filled]
  | cons e A => exact (filled_append.mp hfill).1

/-- Only the first page is empty. -/
theorem Sound.eq_nil_of_empty (hs : Sound (A ++ (p, []) :: B)) : A = [] := by
  have hfill := hs.filled
  cases A with
  | nil => rfl
  | cons e A => exact absurd rfl (filled_cons.mp (filled_append.mp hfill).2).1

/-- The page that the walk of `free` finds. -/
theorem findPage_head (h : Represents m L) (hL : L ≠ []) (hs : Sound L) :
    ∃ p₀ A p rs B, m.head = some p₀ ∧ L = A ++ (p, rs) :: B ∧
      findPage m r (m.live + 1) p₀ = .ok p ∧ (A = [] ∨ ∃ y ys, rs = y :: ys ∧ y.1 ≤ r.2) ∧
      ∀ b ∈ regionsOf B, r.2 < b.1 := by
  obtain ⟨⟨p₀, rs₀⟩, B₀, rfl⟩ := List.exists_cons_of_ne_nil hL
  have hlive : B₀.length < m.live + 1 := by
    rw [h.live, List.length_cons]
    omega
  obtain ⟨A, p, rs, B, hL, hfind, hstart, hafter⟩ :=
    findPage_spec (r := r) h (List.nil_append _).symm hs.filled hs.canonical hlive (Or.inl rfl)
  exact ⟨p₀, A, p, rs, B, by simp [h.head], hL, hfind, hstart, hafter⟩

/-- The page that the walk of `free` finds is the page the region belongs to. -/
theorem findPage_around (h : Represents m L) (hL : L ≠ []) (hs : Sound L) (hr : r.1 < r.2)
    (hdis : Disjoint (Set.Ico r.1 r.2) (cover (regionsOf L))) :
    ∃ p₀ A p rs B, m.head = some p₀ ∧ L = A ++ (p, rs) :: B ∧
      findPage m r (m.live + 1) p₀ = .ok p ∧ Around A rs B r := by
  obtain ⟨p₀, A, p, rs, B, hhead, hL, hfind, hstart, hafter⟩ := findPage_head (r := r) h hL hs
  refine ⟨p₀, A, p, rs, B, hhead, hL, hfind, ?_⟩
  have hcan := hs.canonical
  have hsides := before_or_after hcan.1 hr hdis
  rw [hL, regionsOf_append, regionsOf_cons] at hsides hcan
  refine ⟨hr, fun a ha => ?_, fun q hq => hsides q (by simp [hq]), hafter, hstart⟩
  -- a region that ends before the start of the page does not start behind `r`
  rcases hstart with rfl | ⟨y, ys, rfl, hy⟩
  · simp at ha
  · have hay := (canonical_append.mp hcan).2.2 a ha y (by simp)
    have ha' := (canonical_append.mp hcan).1.1 a ha
    rcases hsides a (by simp [ha]) with hle | hle
    · exact hle
    · omega

/-- Nothing before the place of the region is free already. -/
theorem alreadyFreeBefore_eq_false {o : Option ℕ} (h : Represents m (A ++ (p, rs) :: B))
    (hA : o = none → ∀ A₀ q, A ≠ A₀ ++ [(q, [])]) (hbefore : ∀ a ∈ regionsOf A, a.2 ≤ r.1)
    (ho : ∀ i, o = some i → ∃ x, rs[i]? = some x ∧ x.2 ≤ r.1) :
    alreadyFreeBefore m p r o = .ok false := by
  obtain ⟨hprev, -, hregs⟩ := h.focus
  cases o with
  | some i =>
      obtain ⟨x, hx, hle⟩ := ho i rfl
      simp [alreadyFreeBefore, getRegion, hregs, hx, bind, Except.bind, hle]
  | none =>
      rcases List.eq_nil_or_concat A with rfl | ⟨A₀, ⟨q, qs⟩, rfl⟩
      · simp [alreadyFreeBefore, hprev]
      · rw [List.concat_eq_append] at *
        have hqr : m.regions q = qs := h.regions (q, qs) (by simp)
        obtain ⟨y, ys, rfl⟩ : ∃ y ys, qs = y :: ys :=
          List.exists_cons_of_ne_nil fun hnil => hA rfl A₀ q (by rw [hnil])
        obtain ⟨z, hz⟩ : ∃ z, (y :: ys).getLast? = some z := by simp [List.getLast?_cons]
        have hrange := range_concat (List.head?_cons : (y :: ys).head? = some y) hz
        have hle := hbefore z (by simp [List.mem_of_getLast? hz])
        have hprev' : m.prev p = some q := by simp [hprev]
        simp [alreadyFreeBefore, hprev', hqr, rangeUnwrap, hrange, bind, Except.bind, hle]

/-- Nothing after the place of the region is free already. -/
theorem alreadyFreeAfter_eq_false {o : Option ℕ} (h : Represents m (A ++ (p, rs) :: B))
    (hB : Filled B) (hafter : ∀ b ∈ regionsOf B, r.2 < b.1)
    (ho : ∀ i, o = some i → ∃ x, rs[i]? = some x ∧ r.2 ≤ x.1) :
    alreadyFreeAfter m p r o = .ok false := by
  obtain ⟨-, hnext, hregs⟩ := h.focus
  cases o with
  | some i =>
      obtain ⟨x, hx, hle⟩ := ho i rfl
      simp [alreadyFreeAfter, getRegion, hregs, hx, bind, Except.bind, hle]
  | none =>
      cases B with
      | nil => simp [alreadyFreeAfter, hnext]
      | cons e B =>
          obtain ⟨q, qs⟩ := e
          have hqr : m.regions q = qs := h.regions (q, qs) (by simp)
          obtain ⟨y, ys, rfl⟩ := List.exists_cons_of_ne_nil (hB (q, qs) (by simp))
          obtain ⟨z, hz⟩ : ∃ z, (y :: ys).getLast? = some z := by simp [List.getLast?_cons]
          have hrange := range_concat (List.head?_cons : (y :: ys).head? = some y) hz
          have hlt := hafter y (by simp)
          have hnext' : m.next p = some q := by simp [hnext]
          simp [alreadyFreeAfter, hnext', hqr, rangeUnwrap, hrange, bind, Except.bind, hlt.le]

/-- **The place of a region in its page**: directly behind a region that it touches, or
between regions before it and regions after it. -/
theorem findIdxForRegionInsert_spec (h : Represents m (A ++ (p, rs) :: B))
    (hs : Sound (A ++ (p, rs) :: B)) (hhead : ¬ MeetsEmptyHead (A ++ (p, rs) :: B) r)
    (har : Around A rs B r) :
    (∃ X x Y, rs = X ++ x :: Y ∧ x.2 = r.1 ∧ (∀ b ∈ Y, r.2 ≤ b.1) ∧
      findIdxForRegionInsert m p r = .ok (.ok X.length)) ∨
    ∃ X Y, rs = X ++ Y ∧ (∀ a ∈ X, a.2 < r.1) ∧ (∀ b ∈ Y, r.2 ≤ b.1) ∧
      findIdxForRegionInsert m p r = .ok (.error X.length) := by
  have hregs := h.focus.2.2
  have hcan := hs.canonical
  rw [regionsOf_append, regionsOf_cons, canonical_append, canonical_append] at hcan
  have hsorted := (canonical_sorted hcan.2.1.1).2
  -- a region of the page that ends behind the start of `r` starts behind its end
  have hside : ∀ b ∈ rs, r.1 < b.2 → r.2 ≤ b.1 := by
    intro b hb hlt
    rcases har.sides b hb with hle | hle
    · omega
    · exact hle
  have hfind : ∀ res, binarySearchByKey (rs.map Prod.snd) r.1 = res →
      (∀ i, (neighbours rs.length res).1 = some i → ∃ x, rs[i]? = some x ∧ x.2 ≤ r.1) →
      (∀ i, (neighbours rs.length res).2 = some i → ∃ x, rs[i]? = some x ∧ r.2 ≤ x.1) →
      ((neighbours rs.length res).1 = none → ∀ A₀ q, A ≠ A₀ ++ [(q, [])]) →
      findIdxForRegionInsert m p r = .ok res := by
    intro res hres h1 h2 hempty
    have hbefore := alreadyFreeBefore_eq_false h hempty har.before h1
    have hafter := alreadyFreeAfter_eq_false h hs.filled_after har.after h2
    simp [findIdxForRegionInsert, Mem.len, hregs, hres, hbefore, hafter, bind, Except.bind]
  rcases binarySearchByKey_spec r.1 hsorted with
    ⟨X, x, Y, rfl, hx, -, hsearch⟩ | ⟨X, Y, rfl, hX, hY, hsearch⟩
  · have hY : ∀ b ∈ Y, r.2 ≤ b.1 := by
      intro b hb
      have hlt := (List.pairwise_cons.mp (List.pairwise_append.mp hsorted).2.1).1 b hb
      exact hside b (by simp [hb]) (by omega)
    refine Or.inl ⟨X, x, Y, rfl, hx, hY, hfind _ hsearch ?_ ?_ ?_⟩
    · intro i hi
      obtain rfl : X.length = i := by
        simp only [neighbours] at hi
        split at hi <;> simpa using hi
      exact ⟨x, by simp, hx.le⟩
    · intro i hi
      simp only [neighbours] at hi
      split at hi
      · simp at hi
      next hlast =>
        obtain rfl : X.length + 1 = i := by simpa using hi
        cases Y with
        | nil => simp at hlast
        | cons y Y => exact ⟨y, by simp, hY y (by simp)⟩
    · intro hnone
      simp only [neighbours] at hnone
      split at hnone <;> simp at hnone
  · refine Or.inr ⟨X, Y, rfl, hX, fun b hb => hside b (by simp [hb]) (hY b hb),
      hfind _ hsearch ?_ ?_ ?_⟩
    · intro i hi
      rcases List.eq_nil_or_concat X with rfl | ⟨X, x, rfl⟩
      · simp only [List.length_nil, neighbours] at hi
        split at hi <;> simp at hi
      · rw [List.concat_eq_append] at *
        obtain rfl : X.length = i := by
          simp only [List.length_append, List.length_singleton, neighbours] at hi
          split at hi <;> simpa using hi
        exact ⟨x, by simp, (hX x (by simp)).le⟩
    · intro i hi
      cases Y with
      | nil =>
          cases hn : X.length <;> simp [hn, neighbours] at hi
      | cons y Y =>
          obtain rfl : X.length = i := by
            cases hn : X.length <;> simp [hn, neighbours] at hi <;> omega
          exact ⟨y, by simp, hside y (by simp) (hY y (by simp))⟩
    · rintro hnone A₀ q rfl
      -- an empty page before the first region is the head, and the region ends at its page
      obtain rfl : X = [] := by
        refine List.length_eq_zero_iff.mp ?_
        cases hn : X.length with
        | zero => rfl
        | succ k =>
            simp only [hn, neighbours] at hnone
            split at hnone <;> simp at hnone
      rw [List.append_assoc] at hs hhead
      obtain rfl := hs.eq_nil_of_empty
      obtain ⟨y, ys, hys, hy⟩ := har.start.resolve_left (by simp)
      obtain rfl : Y = y :: ys := hys
      have hle := hside y (by simp) (hY y (by simp))
      exact hhead ⟨q, p, y, ys, B, rfl, by omega⟩

/-! ### Writing regions -/

/-- Around any page of a well-formed list no page is empty. -/
theorem Good.filled_around (hg : Good (A ++ (p, rs) :: B)) : Filled A ∧ Filled B := by
  rcases hg.filled with hlen | hfill
  · simp only [List.length_append, List.length_cons] at hlen
    have hA : A = [] := List.length_eq_zero_iff.mp (by omega)
    have hB : B = [] := List.length_eq_zero_iff.mp (by omega)
    simp [hA, hB, Filled]
  · rw [filled_append, filled_cons] at hfill
    exact ⟨hfill.1, hfill.2.2⟩

/-- Writing regions that fit to a page of a well-formed list keeps it well-formed. -/
theorem Good.replace {rs' : List VirtualAllocRegion} (hg : Good (A ++ (p, rs) :: B))
    (hne : rs' ≠ []) (hlen : rs'.length ≤ regionsPerPage)
    (hcan : Canonical (regionsOf A ++ (rs' ++ regionsOf B))) :
    Fits (A ++ (p, rs') :: B) ∧ Filled (A ++ (p, rs') :: B) ∧ Good (A ++ (p, rs') :: B) := by
  obtain ⟨hfillA, hfillB⟩ := hg.filled_around
  have hfits := hg.fits
  rw [fits_append, fits_cons] at hfits
  have hfits' : Fits (A ++ (p, rs') :: B) := by
    rw [fits_append, fits_cons]
    exact ⟨hfits.1, hlen, hfits.2.2⟩
  have hfill' : Filled (A ++ (p, rs') :: B) := by
    rw [filled_append, filled_cons]
    exact ⟨hfillA, hne, hfillB⟩
  exact ⟨hfits', hfill', hfits', Or.inr hfill', by rwa [regionsOf_append, regionsOf_cons]⟩

/-- Writing regions that fit to a page keeps a list that the operations can work on. -/
theorem Sound.replace {rs' : List VirtualAllocRegion} (hs : Sound (A ++ (p, rs) :: B))
    (hne : rs' ≠ []) (hlen : rs'.length ≤ regionsPerPage)
    (hcan : Canonical (regionsOf A ++ (rs' ++ regionsOf B))) : Sound (A ++ (p, rs') :: B) := by
  have hfits := hs.fits
  rw [fits_append, fits_cons] at hfits
  refine ⟨?_, ?_, by rwa [regionsOf_append, regionsOf_cons]⟩
  · rw [fits_append, fits_cons]
    exact ⟨hfits.1, hlen, hfits.2.2⟩
  · have hfill := hs.filled
    cases A with
    | nil => exact hfill
    | cons e A =>
        exact filled_append.mpr ⟨(filled_append.mp hfill).1, filled_cons.mpr ⟨hne, hs.filled_after⟩⟩

/-! ### Reading the regions -/

/-- Following `next` from the head reads the regions `l`. -/
def Reads (m : Mem) (l : List VirtualAllocRegion) : Prop :=
  ∃ pages, Chain m.next m.head pages none ∧ pages.flatMap m.regions = l

/-- The regions of a represented list are read from its pages. -/
theorem Represents.flatMap_regions (h : Represents m L) :
    (ptrs L).flatMap m.regions = regionsOf L := by
  rw [ptrs, regionsOf, List.flatMap_map]
  exact List.flatMap_congr fun e he => h.regions e he

/-- The pages of a represented list are linked along `next`. -/
theorem Represents.chain (h : Represents m L) : Chain m.next m.head (ptrs L) none := by
  have := h.seg.chain
  rwa [Option.or_none, ← h.head] at this

/-- A stale `prev` is not read along `next`. -/
theorem Represents.reads {o : Option ℕ} {n : ℕ} (h : Represents (m.relink o n) L) :
    Reads m (regionsOf L) := by
  have hchain := h.chain
  have hregs := h.flatMap_regions
  rw [relink_next, relink_head] at hchain
  rw [relink_regions] at hregs
  exact ⟨ptrs L, hchain, hregs⟩

/-- The regions of a page of a canonical list are canonical. -/
theorem canonical_page (hcan : Canonical (regionsOf (A ++ (p, rs) :: B))) : Canonical rs := by
  rw [regionsOf_append, regionsOf_cons, canonical_append, canonical_append] at hcan
  exact hcan.2.1.1

end Search

end HydroxKernel.Virt
