import HydroxKernel.Mem.VirtSpec

/-!
# Freeing a Region of Virtual Memory

What `free` does to any page list (`Sound`): pages of any fill level, an empty first page
included. A region that overlaps a free one makes the search panic, which
writes nothing; any other region is joined with the free regions, in one of four ways: it
is merged with the region before it, with the region after it, with both, within one page
or across two, or inserted as a region of its own.

A full page that is split between two others leaves the page after the new one with a
stale `prev`. The links along `next` are right even then, and this is what `Joined` says:
the list is represented once that one link is corrected (`Mem.relink`).

## Main results

* `free_joins`: freeing a disjoint region joins it with the free regions.
* `free_good`: a well-formed list stays well formed unless a page is opened between two.
* `free_overlap`: freeing a region that overlaps a free one panics in the search.
* `free_canonical`: the two together, on the regions read along `next`.
-/

namespace HydroxKernel.Virt

open Links Intervals

section Freeing

variable {m : Mem} {A B L : List (ℕ × List VirtualAllocRegion)} {p : ℕ}
  {rs : List VirtualAllocRegion} {r : VirtualAllocRegion}

/-! ### Coalescing -/

/-- The end of `free` does nothing when gaps follow the page and the page before it. -/
theorem coalesce_of_gap (idx : ℕ) (hp : GapAfter m p)
    (hq : ∀ q, m.prev p = some q → GapAfter m q) : coalesce m p idx = .ok m := by
  cases hprev : m.prev p with
  | none => simp only [coalesce, hprev, tryCoalesceAt_of_gap hp, bind, Except.bind, ite_self]
  | some q =>
      simp only [coalesce, hprev, tryCoalesceAt_of_gap (hq q hprev), tryCoalesceAt_of_gap hp, bind,
        Except.bind, ite_self]

/-- The page before `p`, when there is one. -/
theorem Represents.prev_cases (h : Represents m (A ++ (p, rs) :: B)) :
    (A = [] ∧ m.prev p = none) ∨ ∃ A₀ q qs, A = A₀ ++ [(q, qs)] ∧ m.prev p = some q := by
  have hprev := h.focus.1
  rcases List.eq_nil_or_concat A with rfl | ⟨A₀, ⟨q, qs⟩, rfl⟩
  · exact Or.inl ⟨rfl, by simpa using hprev⟩
  · rw [List.concat_eq_append] at *
    exact Or.inr ⟨A₀, q, qs, rfl, by simpa using hprev⟩

/-- The end of `free` does nothing when no regions touch, even where the `prev` of another
page is stale. -/
theorem coalesce_of_canonical (idx : ℕ) {o : Option ℕ} {n : ℕ}
    (h : Represents (m.relink o n) (A ++ (p, rs) :: B)) (ho : o ≠ some p)
    (hfill : Filled ((p, rs) :: B)) (hcan : Canonical (regionsOf (A ++ (p, rs) :: B))) :
    coalesce m p idx = .ok m := by
  rw [regionsOf_append] at hcan
  refine coalesce_of_gap idx ?_ fun q hq => ?_
  · rw [← gapAfter_relink o n]
    exact h.gapAfter (filled_cons.mp hfill).2 (canonical_append.mp hcan).2.1
  · rw [← gapAfter_relink o n]
    have hq' : (m.relink o n).prev p = some q := by rw [relink_prev, if_neg ho, hq]
    rcases h.prev_cases with ⟨-, hprev⟩ | ⟨A₀, q', qs, rfl, hprev⟩
    · simp [hprev] at hq'
    · obtain rfl : q' = q := Option.some.inj (hprev.symm.trans hq')
      rw [regionsOf_append, List.append_assoc] at hcan
      have hgap : Canonical (qs ++ regionsOf ((p, rs) :: B)) := by
        simpa using (canonical_append.mp hcan).2.1
      rw [List.append_assoc, List.singleton_append] at h
      exact h.gapAfter hfill hgap

/-- The end of `free` merges the first region of a page with the last region of the page
before it when the two touch. -/
theorem coalesce_of_touch {q : ℕ} {qs ys : List VirtualAllocRegion} {x y : VirtualAllocRegion}
    (h : Represents m (A ++ (q, qs ++ [x]) :: (p, y :: ys) :: B))
    (hfit : Fits (A ++ (q, qs ++ [x]) :: (p, y :: ys) :: B)) (hB : Filled B)
    (htouch : x.2 = y.1) (hgap : Canonical ((x.1, y.2) :: ys ++ regionsOf B)) :
    ∃ m' L', coalesce m p 0 = .ok m' ∧ Represents m' L' ∧ Fits L' ∧
      regionsOf L' = regionsOf A ++ qs ++ (x.1, y.2) :: ys ++ regionsOf B ∧
      (Filled A → L'.length ≤ 1 ∨ Filled L') := by
  have hassoc : A ++ (q, qs ++ [x]) :: (p, y :: ys) :: B =
      (A ++ [(q, qs ++ [x])]) ++ (p, y :: ys) :: B := by simp
  have hprev : m.prev p = some q := by
    rw [hassoc] at h
    simpa using h.focus.1
  obtain ⟨fuel, hfuel⟩ : ∃ fuel, m.live + 1 = fuel + 2 := by
    refine ⟨m.live - 1, ?_⟩
    rw [h.live]
    simp only [List.length_append, List.length_cons]
    omega
  obtain ⟨m', L', hco, hr', hf', hl', hlast⟩ :=
    tryCoalesceAt_represents fuel h hfit hB htouch hgap
  refine ⟨m', L', ?_, hr', hf', hl', hlast⟩
  simp [coalesce, hprev, hfuel, hco, bind, Except.bind]

/-! ### Placing the region -/

/-- Inserting before index `U.length` of a page with room. -/
theorem insertRegion_of_room {t : ℕ} {U V : List VirtualAllocRegion}
    (hregs : m.regions t = U ++ V) (hroom : (U ++ V).length < regionsPerPage) :
    insertRegion m t r U.length = .ok (m.setRegions t (U ++ r :: V)) := by
  have hne : ¬ m.len t = regionsPerPage := by
    rw [Mem.len, hregs]
    omega
  rw [insertRegion, if_neg hne, hregs, insertIdx_length_append]

/-- The branch of `free` that inserts a region of its own. -/
theorem insertNew_place {X Y : List VirtualAllocRegion}
    (h : Represents m (A ++ (p, X ++ Y) :: B)) (hs : Sound (A ++ (p, X ++ Y) :: B)) :
    (m.frames = [] ∧ m.len p = regionsPerPage ∧
      insertNew m p X.length r = .error .outOfFrames) ∨
    ∃ q idx m' o n A' ts B', insertNew m p X.length r = .ok (q, idx, m') ∧ o ≠ some q ∧
      (opensBetween m p = false → o = none) ∧ Refilled A A' ∧
      Represents (m'.relink o n) (A' ++ (q, ts) :: B') ∧ Fits (A' ++ (q, ts) :: B') ∧
      Filled ((q, ts) :: B') ∧
      regionsOf (A' ++ (q, ts) :: B') = (regionsOf A ++ X) ++ r :: (Y ++ regionsOf B) := by
  have hregs := h.focus.2.2
  have hfits := hs.fits
  rw [fits_append, fits_cons] at hfits
  by_cases hfull : m.len p = regionsPerPage
  · have hlen : (X ++ Y).length = regionsPerPage := by rwa [Mem.len, hregs] at hfull
    rcases split_place X.length h hlen (by simp) hs.fits hs.filled_after with
      ⟨hframes, herr⟩ | ⟨s, m', o, n, t, j, A', ts, B', hsplit, hres, hot, ho, hA', hto⟩
    · left
      exact ⟨hframes, hfull, by simp [insertNew, hfull, herr, bind, Except.bind]⟩
    · right
      obtain ⟨U, V, hts, hU⟩ : ∃ U V, ts = U ++ V ∧ U.length = j :=
        ⟨ts.take j, ts.drop j, by simp, by simp [hto.place.le]⟩
      have hbefore := hto.place.before
      have hafter := hto.place.after
      obtain ⟨hrepr, -, hroom, -, hfit', hfill'⟩ := hto
      subst hts hU
      have hregs' : m'.regions t = U ++ V := by simpa using hrepr.focus.2.2
      refine ⟨t, U.length, m'.setRegions t (U ++ r :: V), o, n, A', U ++ r :: V, B', ?_, hot, ho,
        hA', ?_, ?_, ?_, ?_⟩
      · simp [insertNew, hfull, hsplit, hres, insertRegion_of_room hregs' hroom, bind,
          Except.bind]
      · rw [← setRegions_relink]
        exact hrepr.setRegions _
      · rw [fits_append, fits_cons] at hfit' ⊢
        refine ⟨hfit'.1, ?_, hfit'.2.2⟩
        simp only [List.length_append, List.length_cons] at hroom ⊢
        omega
      · rw [filled_cons] at hfill' ⊢
        exact ⟨by simp, hfill'.2⟩
      · simp only [List.take_left, List.drop_left] at hbefore hafter
        rw [regionsOf_append, regionsOf_cons]
        simp only [List.append_assoc, List.cons_append, hafter]
        rw [← List.append_assoc, hbefore]
        simp
  · have hroom : (X ++ Y).length < regionsPerPage := by
      rw [Mem.len, hregs] at hfull
      exact lt_of_le_of_ne hfits.2.1 hfull
    right
    refine ⟨p, X.length, m.setRegions p (X ++ r :: Y), none, 0, A, X ++ r :: Y, B, ?_, by simp,
      fun _ => rfl, Refilled.refl A, h.setRegions _, ?_, ?_, by simp⟩
    · simp [insertNew, hfull, insertRegion_of_room hregs hroom, bind, Except.bind]
    · rw [fits_append, fits_cons]
      refine ⟨hfits.1, ?_, hfits.2.2⟩
      simp only [List.length_append, List.length_cons] at hroom ⊢
      omega
    · exact filled_cons.mpr ⟨by simp, hs.filled_after⟩

/-- A region that starts where a region of its page ends is merged with that one. -/
theorem place_ok {X Y : List VirtualAllocRegion} {x : VirtualAllocRegion}
    (h : Represents m (A ++ (p, X ++ x :: Y) :: B)) (hs : Sound (A ++ (p, X ++ x :: Y) :: B))
    (har : Around A (X ++ x :: Y) B r) (hx : x.2 = r.1) (hY : ∀ b ∈ Y, r.2 ≤ b.1) :
    ∃ rs', place m p r (.ok X.length) = .ok (p, X.length, m.setRegions p rs') ∧ rs' ≠ [] ∧
      rs'.length ≤ regionsPerPage ∧ Canonical (regionsOf A ++ (rs' ++ regionsOf B)) ∧
      cover (regionsOf A ++ (rs' ++ regionsOf B)) =
        cover (regionsOf (A ++ (p, X ++ x :: Y) :: B)) ∪ Set.Ico r.1 r.2 := by
  have hregs := h.focus.2.2
  have hlen : (X ++ x :: Y).length ≤ regionsPerPage := by
    have hfits := hs.fits
    rw [fits_append, fits_cons] at hfits
    exact hfits.2.1
  simp only [List.length_append, List.length_cons] at hlen
  have hcan := hs.canonical
  -- the region grows to the end of `r`, unless `r` reaches the next region of the page
  have hgrow : (∀ b ∈ Y, r.2 < b.1) → Canonical (regionsOf A ++ ((X ++ (x.1, r.2) :: Y) ++
      regionsOf B)) ∧ cover (regionsOf A ++ ((X ++ (x.1, r.2) :: Y) ++ regionsOf B)) =
        cover (regionsOf (A ++ (p, X ++ x :: Y) :: B)) ∪ Set.Ico r.1 r.2 := by
    intro hlt
    have hcan' : Canonical ((regionsOf A ++ X) ++ x :: (Y ++ regionsOf B)) := by
      simpa using hcan
    have hpost : ∀ b ∈ Y ++ regionsOf B, r.2 < b.1 :=
      List.forall_mem_append.mpr ⟨hlt, har.after⟩
    simpa using canonical_extend_right hcan' hx har.nonempty hpost
  cases Y with
  | nil =>
      refine ⟨X ++ [(x.1, r.2)], ?_, by simp, by simpa using hlen, hgrow (by simp)⟩
      simp [place, hregs, getRegion, bind, Except.bind]
  | cons y Y =>
      by_cases hy : y.1 = r.2
      · have hcan' : Canonical ((regionsOf A ++ X) ++ x :: y :: (Y ++ regionsOf B)) := by
          simpa using hcan
        have hglue := canonical_bridge hcan' hx har.nonempty hy
        refine ⟨X ++ (x.1, y.2) :: Y, ?_, by simp, ?_, by simpa using hglue⟩
        · simp [place, hregs, getRegion, hy, bind, Except.bind]
        · simp only [List.length_append, List.length_cons] at hlen ⊢
          omega
      · have hlt : ∀ b ∈ y :: Y, r.2 < b.1 := by
          have hle := hY y (by simp)
          have hcanY : Canonical (y :: Y) := by
            rw [regionsOf_append, regionsOf_cons, canonical_append, canonical_append,
              canonical_append, canonical_cons] at hcan
            exact hcan.2.1.1.2.1.2.2
          intro b hb
          rcases List.mem_cons.mp hb with rfl | hb
          · omega
          · have := ((canonical_cons _ _).mp hcanY).2.1 b hb
            have := hcanY.1 y (by simp)
            omega
        refine ⟨X ++ (x.1, r.2) :: y :: Y, ?_, by simp, by simpa using hlen, hgrow hlt⟩
        simp [place, hregs, getRegion, hy, bind, Except.bind]

/-- A region that ends where a region of its page starts is merged with that one. -/
theorem place_error_touch {X Y : List VirtualAllocRegion} {y : VirtualAllocRegion}
    (h : Represents m (A ++ (p, X ++ y :: Y) :: B)) (hy : y.1 = r.2) :
    place m p r (.error X.length) = .ok (p, X.length, m.setRegions p (X ++ (r.1, y.2) :: Y)) := by
  simp [place, h.focus.2.2, hy]

/-- A region that touches no region of its page is inserted. -/
theorem place_error_insert {X Y : List VirtualAllocRegion}
    (h : Represents m (A ++ (p, X ++ Y) :: B)) (hY : ∀ y, Y.head? = some y → y.1 ≠ r.2) :
    place m p r (.error X.length) = insertNew m p X.length r := by
  cases Y with
  | nil => simp [place, h.focus.2.2]
  | cons y Y => simp [place, h.focus.2.2, hY y rfl]

/-- The page before a page is not empty when there are regions before, and its last region
ends no earlier than any of them. -/
theorem Sound.last_before {a : VirtualAllocRegion} (hs : Sound (A ++ (p, rs) :: B))
    (ha : a ∈ regionsOf A) : ∃ A₀ q qs x, A = A₀ ++ [(q, qs ++ [x])] ∧ a.2 ≤ x.2 := by
  have hcan := hs.canonical
  rw [regionsOf_append, canonical_append] at hcan
  have hne : A ≠ [] := by
    rintro rfl
    simp at ha
  obtain ⟨A₀, ⟨q, qs'⟩, rfl⟩ := (List.eq_nil_or_concat A).resolve_left hne
  rw [List.concat_eq_append] at *
  have hqs : qs' ≠ [] := by
    rintro rfl
    rw [List.append_assoc, List.singleton_append] at hs
    simp [hs.eq_nil_of_empty] at ha
  obtain ⟨qs, x, rfl⟩ := (List.eq_nil_or_concat qs').resolve_left hqs
  rw [List.concat_eq_append] at *
  refine ⟨A₀, q, qs, x, rfl, ?_⟩
  exact end_le_last hcan.1 (by simp) ha

/-- A region that is the first of its page and touches the last region of the page before
touches the first region of its own page as well. -/
theorem Around.touch {X Y : List VirtualAllocRegion} (har : Around A (X ++ Y) B r)
    (hs : Sound (A ++ (p, X ++ Y) :: B)) (hX : ∀ a ∈ X, a.2 < r.1) (hY : ∀ b ∈ Y, r.2 ≤ b.1)
    (hno : ¬ ∀ a ∈ regionsOf A ++ X, a.2 < r.1) :
    ∃ A₀ q qs x y Y', A = A₀ ++ [(q, qs ++ [x])] ∧ x.2 = r.1 ∧ X = [] ∧ Y = y :: Y' ∧
      y.1 = r.2 := by
  have hcan := hs.canonical
  rw [regionsOf_append, regionsOf_cons, canonical_append] at hcan
  obtain ⟨a, ha, hle⟩ : ∃ a ∈ regionsOf A, ¬ a.2 < r.1 := by
    by_contra hall
    push Not at hall
    exact hno (List.forall_mem_append.mpr ⟨hall, hX⟩)
  have hne : A ≠ [] := by
    rintro rfl
    simp at ha
  obtain ⟨y, Y', hys, hy⟩ := har.start.resolve_left hne
  have hXnil : X = [] := by
    rcases X with _ | ⟨x, X⟩
    · rfl
    · have h1 := hcan.2.2 a ha x (by simp)
      have h2 := hcan.2.1.1 x (by simp)
      have h3 := hX x (by simp)
      omega
  subst hXnil
  rw [List.nil_append] at hys
  subst hys
  obtain ⟨A₀, q, qs, x, rfl, hax⟩ := hs.last_before ha
  refine ⟨A₀, q, qs, x, y, Y', rfl, ?_, rfl, rfl, le_antisymm hy (hY y (by simp))⟩
  have hx := har.before x (by simp)
  omega

/-- The page that `free` starts from: a list without pages gets one. -/
theorem firstPage_represents (h : Represents m L) (hs : Sound L) :
    (m.frames = [] ∧ firstPage m = .error .outOfFrames) ∨
    ∃ p₀ m' L', firstPage m = .ok (p₀, m') ∧ m'.head = some p₀ ∧ Represents m' L' ∧ Sound L' ∧
      (Good L → Good L') ∧ (m' = m ∧ L' = L ∨ L = [] ∧ L' = [(p₀, [])]) := by
  have hhead := h.head
  cases L with
  | cons e L =>
      have hsome : m.head = some e.1 := by simpa using hhead
      exact Or.inr ⟨e.1, m, e :: L, by simp [firstPage, hsome], hsome, h, hs, id,
        Or.inl ⟨rfl, rfl⟩⟩
  | nil =>
      have hnone : m.head = none := by simpa using hhead
      cases hfs : m.frames with
      | nil => exact Or.inl ⟨rfl, by simp [firstPage, newPage, hnone, hfs, bind, Except.bind]⟩
      | cons p fs =>
          have hnd := h.frames
          rw [hfs, List.nodup_cons] at hnd
          let m' : Mem := ⟨some p, Function.update m.pages p ⟨none, none, []⟩, fs, m.live + 1⟩
          have hfirst : firstPage m = .ok (p, m') := by
            simp only [firstPage, hnone, newPage, hfs, bind, Except.bind, m']
          have hgood : Good [(p, ([] : List VirtualAllocRegion))] :=
            ⟨by simp [Fits], Or.inl (by simp), by simp⟩
          refine Or.inr ⟨p, m', [(p, [])], hfirst, rfl, ?_, hgood.sound, fun _ => hgood,
            Or.inr ⟨rfl, rfl⟩⟩
          refine ⟨by simp [m'], ?_, ?_, hnd.2, ?_, ?_⟩
          · simp [m', Mem.prev, Mem.next]
          · simp [m', Mem.regions]
          · simpa using hnd.1
          · simp [m', h.live]

/-- Freeing `r` would put a new page between two pages: the page that `r` belongs to is
split so, and no region of that page touches `r`. -/
def freeOpens (m : Mem) (r : VirtualAllocRegion) : Bool :=
  match m.head with
  | none => false
  | some p₀ =>
      match findPage m r (m.live + 1) p₀ with
      | .ok p =>
          r.1 < r.2 && opensBetween m p && (m.regions p).all fun q => q.2 ≠ r.1 && q.1 ≠ r.2
      | .error _ => false

/-- The last two steps of `free`, once the place of the region is known. -/
def placeAndCoalesce (m : Mem) (p : ℕ) (r : VirtualAllocRegion) (res : Except ℕ ℕ) :
    Except Panic Mem :=
  (place m p r res).bind fun s => coalesce s.2.2 s.1 s.2.1

/-- The region has been joined with the free regions of `L`. At most one page is left with
a stale `prev`, and none unless a page was opened between two. -/
def Joined (L : List (ℕ × List VirtualAllocRegion)) (r : VirtualAllocRegion) (opens : Bool)
    (res : Except Panic Mem) : Prop :=
  ∃ m' o n L', res = .ok m' ∧ (opens = false → o = none) ∧ Represents (m'.relink o n) L' ∧
    Canonical (regionsOf L') ∧ cover (regionsOf L') = cover (regionsOf L) ∪ Set.Ico r.1 r.2 ∧
    (Good L → Good L')

/-! ### The four ways to join a region -/

/-- The regions of one page are replaced by regions of which none touch. -/
theorem joined_replace {rs' : List VirtualAllocRegion} {opens : Bool} {res : Except ℕ ℕ} {idx : ℕ}
    (h : Represents m (A ++ (p, rs) :: B)) (hs : Sound (A ++ (p, rs) :: B))
    (hplace : place m p r res = .ok (p, idx, m.setRegions p rs')) (hne : rs' ≠ [])
    (hlen : rs'.length ≤ regionsPerPage)
    (hcan : Canonical (regionsOf A ++ (rs' ++ regionsOf B)))
    (hcov : cover (regionsOf A ++ (rs' ++ regionsOf B)) =
      cover (regionsOf (A ++ (p, rs) :: B)) ∪ Set.Ico r.1 r.2) :
    Joined (A ++ (p, rs) :: B) r opens (placeAndCoalesce m p r res) := by
  have h' := h.setRegions rs'
  have hco : coalesce (m.setRegions p rs') p idx = .ok (m.setRegions p rs') := by
    refine coalesce_of_canonical (o := none) (n := 0) idx h' (by simp) ?_ (by simpa using hcan)
    exact filled_cons.mpr ⟨hne, hs.filled_after⟩
  refine ⟨m.setRegions p rs', none, 0, _, ?_, fun _ => rfl, h', by simpa using hcan,
    by simpa using hcov, fun hg => (hg.replace hne hlen hcan).2.2⟩
  simp [placeAndCoalesce, hplace, hco, Except.bind]

/-- A region that starts where a region of its page ends. -/
theorem joined_merge {X Y : List VirtualAllocRegion} {x : VirtualAllocRegion} {opens : Bool}
    (h : Represents m (A ++ (p, X ++ x :: Y) :: B)) (hs : Sound (A ++ (p, X ++ x :: Y) :: B))
    (har : Around A (X ++ x :: Y) B r) (hx : x.2 = r.1) (hY : ∀ b ∈ Y, r.2 ≤ b.1) :
    Joined (A ++ (p, X ++ x :: Y) :: B) r opens (placeAndCoalesce m p r (.ok X.length)) := by
  obtain ⟨rs', hplace, hne, hlen, hcan, hcov⟩ := place_ok h hs har hx hY
  exact joined_replace h hs hplace hne hlen hcan hcov

/-- A region that ends where a region of its page starts, and touches nothing before it. -/
theorem joined_extend {X Y : List VirtualAllocRegion} {y : VirtualAllocRegion} {opens : Bool}
    (h : Represents m (A ++ (p, X ++ y :: Y) :: B)) (hs : Sound (A ++ (p, X ++ y :: Y) :: B))
    (hr : r.1 < r.2) (hbefore : ∀ a ∈ regionsOf A ++ X, a.2 < r.1) (hy : y.1 = r.2) :
    Joined (A ++ (p, X ++ y :: Y) :: B) r opens (placeAndCoalesce m p r (.error X.length)) := by
  have hfits := hs.fits
  rw [fits_append, fits_cons] at hfits
  have hcan : Canonical ((regionsOf A ++ X) ++ y :: (Y ++ regionsOf B)) := by
    simpa using hs.canonical
  obtain ⟨hcan', hcov⟩ := canonical_extend_left hcan hbefore hr hy
  have hlen : (X ++ (r.1, y.2) :: Y).length ≤ regionsPerPage := by
    simpa using hfits.2.1
  exact joined_replace h hs (place_error_touch h hy) (by simp) hlen (by simpa using hcan')
    (by simpa using hcov)

/-- A region that touches no other is inserted, for which a frame may be needed. -/
theorem joined_insert {X Y : List VirtualAllocRegion} (h : Represents m (A ++ (p, X ++ Y) :: B))
    (hs : Sound (A ++ (p, X ++ Y) :: B)) (har : Around A (X ++ Y) B r)
    (hbefore : ∀ a ∈ regionsOf A ++ X, a.2 < r.1) (hlt : ∀ b ∈ Y, r.2 < b.1) :
    (m.frames = [] ∧ m.len p = regionsPerPage ∧
      placeAndCoalesce m p r (.error X.length) = .error .outOfFrames) ∨
    Joined (A ++ (p, X ++ Y) :: B) r (opensBetween m p)
      (placeAndCoalesce m p r (.error X.length)) := by
  have hhead : ∀ y, Y.head? = some y → y.1 ≠ r.2 := fun y hy =>
    (hlt y (List.mem_of_head? hy)).ne'
  rcases insertNew_place (r := r) h hs with ⟨hframes, hfull, herr⟩ |
    ⟨q, idx, m', o, n, A', ts, B', hins, hoq, ho, hA', h', hfit', hfill', hl'⟩
  · left
    refine ⟨hframes, hfull, ?_⟩
    simp [placeAndCoalesce, place_error_insert h hhead, herr, Except.bind]
  · right
    have hcan : Canonical ((regionsOf A ++ X) ++ (Y ++ regionsOf B)) := by
      simpa using hs.canonical
    obtain ⟨hcan', hcov⟩ := canonical_insert hcan har.nonempty hbefore
      (List.forall_mem_append.mpr ⟨hlt, har.after⟩)
    rw [← hl'] at hcan' hcov
    refine ⟨m', o, n, _, ?_, ho, h', hcan', by simpa using hcov, fun hg => ⟨hfit', Or.inr ?_,
      hcan'⟩⟩
    · simp [placeAndCoalesce, place_error_insert h hhead, hins,
        coalesce_of_canonical _ h' hoq hfill' hcan', Except.bind]
    · exact filled_append.mpr ⟨hA'.filled hg.filled_around.1, hfill'⟩

/-- A region that starts where the page before it ends, and ends where its own page starts. -/
theorem joined_bridge {A₀ : List (ℕ × List VirtualAllocRegion)} {q : ℕ}
    {qs Y : List VirtualAllocRegion} {x y : VirtualAllocRegion} {opens : Bool}
    (h : Represents m (A₀ ++ [(q, qs ++ [x])] ++ (p, y :: Y) :: B))
    (hs : Sound (A₀ ++ [(q, qs ++ [x])] ++ (p, y :: Y) :: B)) (hr : r.1 < r.2) (hx : x.2 = r.1)
    (hy : y.1 = r.2) :
    Joined (A₀ ++ [(q, qs ++ [x])] ++ (p, y :: Y) :: B) r opens
      (placeAndCoalesce m p r (.error 0)) := by
  have hfits := hs.fits
  rw [fits_append, fits_cons] at hfits
  have hassoc : ∀ ys, A₀ ++ [(q, qs ++ [x])] ++ (p, ys) :: B =
      A₀ ++ (q, qs ++ [x]) :: (p, ys) :: B := by simp
  have h₂ := h.setRegions ((r.1, y.2) :: Y)
  have hcan : Canonical ((regionsOf A₀ ++ qs) ++ x :: y :: (Y ++ regionsOf B)) := by
    simpa using hs.canonical
  obtain ⟨hcan', hcov⟩ := canonical_bridge hcan hx hr hy
  have hfit₂ : Fits (A₀ ++ [(q, qs ++ [x])] ++ (p, (r.1, y.2) :: Y) :: B) := by
    rw [fits_append, fits_cons]
    exact ⟨hfits.1, by simpa using hfits.2.1, hfits.2.2⟩
  rw [hassoc] at h₂ hfit₂
  obtain ⟨m', L', hco, h', hf', hl', hlast⟩ := coalesce_of_touch h₂ hfit₂ hs.filled_after hx
    (by simpa using (canonical_append.mp hcan').2.1)
  refine ⟨m', none, 0, L', ?_, fun _ => rfl, h', ?_, ?_, fun hg => ⟨hf', hlast ?_, ?_⟩⟩
  · have hplace := place_error_touch (X := []) h hy
    simp only [List.length_nil, List.nil_append] at hplace
    simp [placeAndCoalesce, hplace, hco, Except.bind]
  · rw [hl']
    simpa using hcan'
  · rw [hl']
    simpa using hcov
  · exact (filled_append.mp hg.filled_around.1).1
  · rw [hl']
    simpa using hcan'

/-! ### Freeing a disjoint region -/

/-- The regions behind a region that none of them touches. -/
theorem lt_of_not_touch {X Y : List VirtualAllocRegion} (hcan : Canonical (X ++ Y))
    (hY : ∀ b ∈ Y, r.2 ≤ b.1) (hhead : ∀ y, Y.head? = some y → y.1 ≠ r.2) :
    ∀ b ∈ Y, r.2 < b.1 := by
  cases Y with
  | nil => simp
  | cons y Y =>
      have hcanY : Canonical (y :: Y) := (canonical_append.mp hcan).2.1
      have hle := hY y (by simp)
      have hne := hhead y rfl
      have hyy := hcanY.1 y (by simp)
      intro b hb
      rcases List.mem_cons.mp hb with rfl | hb
      · omega
      · have := ((canonical_cons _ _).mp hcanY).2.1 b hb
        omega

/-- The page of a region that is inserted is not split between two pages. -/
theorem opensBetween_of_freeOpens {m₁ : Mem} {X Y : List VirtualAllocRegion} {p₀ : ℕ}
    (h : Represents m₁ (A ++ (p, X ++ Y) :: B)) (hcan : Canonical (X ++ Y)) (hr : r.1 < r.2)
    (hhead : m₁.head = some p₀) (hfind : findPage m₁ r (m₁.live + 1) p₀ = .ok p)
    (hnew : m₁ = m ∨ A ++ (p, X ++ Y) :: B = [(p₀, [])]) (hopen : freeOpens m r = false)
    (hX : ∀ a ∈ X, a.2 < r.1) (hlt : ∀ b ∈ Y, r.2 < b.1) : opensBetween m₁ p = false := by
  rcases hnew with rfl | hnew
  · by_contra htrue
    rw [Bool.not_eq_false] at htrue
    have hall : ∀ q ∈ X ++ Y, q.2 ≠ r.1 ∧ q.1 ≠ r.2 := by
      intro q hq
      have hqq := hcan.1 q hq
      rcases List.mem_append.mp hq with hq | hq
      · have := hX q hq
        omega
      · have := hlt q hq
        omega
    have htrue' : freeOpens m₁ r = true := by
      simp only [freeOpens, hhead, hfind, htrue, h.focus.2.2, hr, decide_true, Bool.true_and,
        List.all_eq_true, Bool.and_eq_true, decide_eq_true_eq]
      exact hall
    simp [htrue'] at hopen
  · have hlen : m₁.len p = 0 := by
      have hmem : (p, X ++ Y) ∈ [(p₀, ([] : List VirtualAllocRegion))] := by
        rw [← hnew]
        simp
      obtain ⟨-, hnil⟩ := Prod.mk.inj (List.mem_singleton.mp hmem)
      rw [Mem.len, h.focus.2.2, hnil]
      rfl
    simp [opensBetween, hlen, regionsPerPage_eq]

/-- The same join, seen from a list with the same regions. -/
theorem Joined.mono {L₁ : List (ℕ × List VirtualAllocRegion)} {opens opens₁ : Bool}
    {res : Except Panic Mem} (hj : Joined L₁ r opens₁ res) (hregs : regionsOf L₁ = regionsOf L)
    (hgood : Good L → Good L₁) (hopen : opens = false → opens₁ = false) :
    Joined L r opens res := by
  obtain ⟨m', o, n, L', hres, ho, h', hcan, hcov, hg⟩ := hj
  exact ⟨m', o, n, L', hres, fun hfalse => ho (hopen hfalse), h', hcan, hregs ▸ hcov,
    fun hL => hg (hgood hL)⟩

/-- **Freeing a disjoint region** joins it with the free regions, unless a page has to be
made and no frame is left, or the region meets an empty first page. -/
theorem free_joins (h : Represents m L) (hs : Sound L) (hal : isPageAligned r = true)
    (hr : r.1 < r.2) (hdis : Disjoint (Set.Ico r.1 r.2) (cover (regionsOf L)))
    (hhead : ¬ MeetsEmptyHead L r) :
    (m.frames = [] ∧ free m r = .error .outOfFrames) ∨
      Joined L r (freeOpens m r) (free m r) := by
  have hsize : ¬ r.2 - r.1 = 0 := by omega
  have hlen := regionSize_of_le hr.le
  rcases firstPage_represents h hs with
    ⟨hframes, herr⟩ | ⟨p₀, m₁, L₁, hfirst, hhead₁, h₁, hs₁, hgood, hnew⟩
  · exact Or.inl ⟨hframes, by simp [free, hal, hlen, hsize, herr, bind, Except.bind]⟩
  have hregs₁ : regionsOf L₁ = regionsOf L := by
    rcases hnew with ⟨-, rfl⟩ | ⟨rfl, rfl⟩ <;> simp
  have hmeets₁ : ¬ MeetsEmptyHead L₁ r := by
    rcases hnew with ⟨-, rfl⟩ | ⟨rfl, rfl⟩
    · exact hhead
    · rintro ⟨_, _, _, _, _, heq, -⟩
      simp at heq
  have hL₁ : L₁ ≠ [] := by
    rintro rfl
    simp [h₁.head] at hhead₁
  rw [← hregs₁] at hdis
  obtain ⟨p₀', A, p, rs, B, hhead₁', rfl, hfind, har⟩ := findPage_around h₁ hL₁ hs₁ hr hdis
  obtain rfl : p₀' = p₀ := Option.some.inj (hhead₁'.symm.trans hhead₁)
  have hcan := hs₁.canonical
  rw [regionsOf_append, regionsOf_cons, canonical_append, canonical_append] at hcan
  have hfree : ∀ res, findIdxForRegionInsert m₁ p r = .ok res →
      free m r = placeAndCoalesce m₁ p r res := by
    intro res hres
    simp [free, placeAndCoalesce, hal, hlen, hsize, hfirst, hfind, hres, bind, Except.bind]
  rcases findIdxForRegionInsert_spec h₁ hs₁ hmeets₁ har with
    ⟨X, x, Y, rfl, hx, hY, hres⟩ | ⟨X, Y, rfl, hX, hY, hres⟩
  · rw [hfree _ hres]
    exact Or.inr ((joined_merge h₁ hs₁ har hx hY).mono hregs₁ hgood id)
  rw [hfree _ hres]
  by_cases hbefore : ∀ a ∈ regionsOf A ++ X, a.2 < r.1
  · by_cases htouch : ∃ y Y', Y = y :: Y' ∧ y.1 = r.2
    · obtain ⟨y, Y, rfl, hy⟩ := htouch
      exact Or.inr ((joined_extend h₁ hs₁ hr hbefore hy).mono hregs₁ hgood id)
    · have hlt := lt_of_not_touch hcan.2.1.1 hY fun y hy heq => by
        obtain ⟨Y', rfl⟩ := List.head?_eq_some_iff.mp hy
        exact htouch ⟨y, Y', rfl, heq⟩
      rcases joined_insert h₁ hs₁ har hbefore hlt with ⟨hframes, hfull, herr⟩ | hjoin
      · -- a page that was just made is not full
        rcases hnew with ⟨rfl, -⟩ | ⟨-, hone⟩
        · exact Or.inl ⟨hframes, herr⟩
        · have hmem : (p, X ++ Y) ∈ [(p₀', ([] : List VirtualAllocRegion))] := by
            rw [← hone]
            simp
          obtain ⟨-, hnil⟩ := Prod.mk.inj (List.mem_singleton.mp hmem)
          rw [Mem.len, h₁.focus.2.2, hnil] at hfull
          simp [regionsPerPage_eq] at hfull
      · refine Or.inr (hjoin.mono hregs₁ hgood fun hopen => ?_)
        exact opensBetween_of_freeOpens h₁ hcan.2.1.1 hr hhead₁ hfind
          (hnew.imp And.left And.right) hopen hX hlt
  · obtain ⟨A₀, q, qs, x, y, Y, rfl, hx, rfl, rfl, hy⟩ := har.touch hs₁ hX hY hbefore
    exact Or.inr ((joined_bridge h₁ hs₁ hr hx hy).mono hregs₁ hgood id)

/-- **Freeing a region** that is disjoint from the free regions of a well-formed list adds
it to them. -/
theorem free_good (h : Represents m L) (hg : Good L) (hal : isPageAligned r = true)
    (hle : r.1 ≤ r.2) (hdis : Disjoint (Set.Ico r.1 r.2) (cover (regionsOf L)))
    (hopen : freeOpens m r = false) :
    free m r = .error .outOfFrames ∨
    ∃ m' L', free m r = .ok m' ∧ Represents m' L' ∧ Good L' ∧
      cover (regionsOf L') = cover (regionsOf L) ∪ Set.Ico r.1 r.2 := by
  by_cases hsize : r.2 - r.1 = 0
  · have heq : r.1 = r.2 := by omega
    have hlen := regionSize_of_le hle
    have hres : free m r = .ok m := by simp [free, hal, hlen, hsize, bind, Except.bind]
    refine Or.inr ⟨m, L, hres, h, hg, ?_⟩
    rw [heq, Set.Ico_self, Set.union_empty]
  have hr : r.1 < r.2 := by omega
  rcases free_joins h hg.sound hal hr hdis hg.not_meetsEmptyHead with
    ⟨-, herr⟩ | ⟨m', o, n, L', hres, ho, h', -, hcov, hg'⟩
  · exact Or.inl herr
  · obtain rfl := ho hopen
    exact Or.inr ⟨m', L', hres, h', hg' hg, hcov⟩

/-! ### Freeing a region that overlaps a free one -/

/-- The search for the place of the region panics. It is given the memory as `free` was,
and writes nothing. -/
def PanicsInSearch (m : Mem) (r : VirtualAllocRegion) (e : Panic) : Prop :=
  ∃ p₀ p, m.head = some p₀ ∧ findPage m r (m.live + 1) p₀ = .ok p ∧
    findIdxForRegionInsert m p r = .error e ∧ free m r = .error e

/-- A panic of the search is one of `free`. -/
theorem panicsInSearch_of_error {p₀ : ℕ} {e : Panic} (hal : isPageAligned r = true)
    (hr : r.1 < r.2) (hhead : m.head = some p₀) (hfind : findPage m r (m.live + 1) p₀ = .ok p)
    (herr : findIdxForRegionInsert m p r = .error e) : PanicsInSearch m r e := by
  have hsize : ¬ r.2 - r.1 = 0 := by omega
  have hlen := regionSize_of_le hr.le
  have hfirst : firstPage m = .ok (p₀, m) := by simp [firstPage, hhead]
  refine ⟨p₀, p, hhead, hfind, herr, ?_⟩
  simp [free, hal, hlen, hsize, hfirst, hfind, herr, bind, Except.bind]

/-- Looking before the place of a region panics at an empty page only. -/
theorem alreadyFreeBefore_cases {o : Option ℕ} (h : Represents m (A ++ (p, rs) :: B))
    (ho : ∀ i, o = some i → i < rs.length) :
    (∃ b, alreadyFreeBefore m p r o = .ok b) ∨
      alreadyFreeBefore m p r o = .error .rangeUnwrap ∧ ∃ A₀ q, A = A₀ ++ [(q, [])] := by
  cases o with
  | some i =>
      obtain ⟨x, hx⟩ : ∃ x, rs[i]? = some x := ⟨_, List.getElem?_eq_getElem (ho i rfl)⟩
      refine Or.inl ⟨decide (r.1 < x.2), ?_⟩
      simp [alreadyFreeBefore, getRegion, h.focus.2.2, hx, bind, Except.bind]
  | none =>
      rcases h.prev_cases with ⟨-, hprev⟩ | ⟨A₀, q, qs, rfl, hprev⟩
      · exact Or.inl ⟨false, by simp [alreadyFreeBefore, hprev]⟩
      have hqr : m.regions q = qs := h.regions (q, qs) (by simp)
      rcases List.eq_nil_or_concat qs with rfl | ⟨ys, z, rfl⟩
      · right
        refine ⟨?_, A₀, q, rfl⟩
        simp [alreadyFreeBefore, hprev, hqr, rangeUnwrap, range, bind, Except.bind]
      · obtain ⟨y, hy⟩ : ∃ y, (ys.concat z).head? = some y := by cases ys <;> simp
        have hrange := range_concat hy (by simp : (ys.concat z).getLast? = some z)
        refine Or.inl ⟨decide (r.1 < z.2), ?_⟩
        simp only [alreadyFreeBefore, hprev, hqr, rangeUnwrap, hrange, bind, Except.bind]

/-- Looking before the first region of a page notices an overlap with a page before. -/
theorem alreadyFreeBefore_eq_true {q : VirtualAllocRegion} (h : Represents m (A ++ (p, rs) :: B))
    (hs : Sound (A ++ (p, rs) :: B)) (hq : q ∈ regionsOf A) (hlt : r.1 < q.2) :
    alreadyFreeBefore m p r none = .ok true := by
  obtain ⟨A₀, q', qs, x, rfl, hle⟩ := hs.last_before hq
  have hprev : m.prev p = some q' := by simpa using h.focus.1
  have hqr : m.regions q' = qs ++ [x] := h.regions (q', qs ++ [x]) (by simp)
  obtain ⟨y, hy⟩ : ∃ y, (qs ++ [x]).head? = some y := by cases qs <;> simp
  have hrange := range_concat hy (by simp : (qs ++ [x]).getLast? = some x)
  have hx : r.1 < x.2 := by omega
  simp [alreadyFreeBefore, hprev, hqr, rangeUnwrap, hrange, bind, Except.bind, hx]

/-- The region before the place found by the search is one of the page. -/
theorem neighbours_fst_lt {i : ℕ} {res : Except ℕ ℕ} (hok : ∀ j, res = .ok j → j < rs.length)
    (herr : ∀ j, res = .error j → j ≤ rs.length)
    (hi : (neighbours rs.length res).1 = some i) : i < rs.length := by
  cases res with
  | ok j =>
      have hj := hok j rfl
      simp only [neighbours] at hi
      split at hi <;> simp only [Option.some.injEq] at hi <;> omega
  | error j =>
      have hj := herr j rfl
      cases j with
      | zero => simp only [neighbours] at hi; split at hi <;> simp at hi
      | succ j =>
          simp only [neighbours] at hi
          split at hi <;> simp only [Nat.add_sub_cancel, Option.some.injEq] at hi <;> omega

/-- The search panics when the region overlaps the region after its place, or one before
it. -/
theorem findIdxForRegionInsert_error {res : Except ℕ ℕ} {i : ℕ} {y : VirtualAllocRegion}
    (h : Represents m (A ++ (p, rs) :: B))
    (hsearch : binarySearchByKey (rs.map Prod.snd) r.1 = res)
    (hok : ∀ j, res = .ok j → j < rs.length) (herr : ∀ j, res = .error j → j ≤ rs.length)
    (hafter : (neighbours rs.length res).2 = some i) (hy : rs[i]? = some y)
    (hover : y.1 < r.2 ∨ alreadyFreeBefore m p r (neighbours rs.length res).1 = .ok true) :
    findIdxForRegionInsert m p r = .error .alreadyFree ∨
      findIdxForRegionInsert m p r = .error .rangeUnwrap ∧ ∃ A₀ q, A = A₀ ++ [(q, [])] := by
  have hregs := h.focus.2.2
  have hfree : alreadyFreeAfter m p r (some i) = .ok (decide (r.2 > y.1)) := by
    simp [alreadyFreeAfter, getRegion, hregs, hy, bind, Except.bind]
  rcases alreadyFreeBefore_cases (r := r) h fun j hj => neighbours_fst_lt hok herr hj with
    ⟨b, hb⟩ | ⟨hb, hempty⟩
  · left
    have htrue : (b || decide (r.2 > y.1)) = true := by
      rcases hover with hlt | hbefore
      · simp [hlt]
      · obtain rfl : b = true := Except.ok.inj (hb.symm.trans hbefore)
        simp
    simp only [findIdxForRegionInsert, Mem.len, hregs, hsearch, hb, hafter, hfree, bind,
      Except.bind, if_pos htrue]
  · right
    refine ⟨?_, hempty⟩
    simp only [findIdxForRegionInsert, Mem.len, hregs, hsearch, hb, bind, Except.bind]

/-- **The search notices an overlap**, with a region of its page or of the page before. -/
theorem findIdxForRegionInsert_overlap {q : VirtualAllocRegion}
    (h : Represents m (A ++ (p, rs) :: B)) (hs : Sound (A ++ (p, rs) :: B))
    (hstart : A = [] ∨ ∃ y ys, rs = y :: ys ∧ y.1 ≤ r.2) (hq : q ∈ regionsOf A ++ rs)
    (h1 : r.1 < q.2) (h2 : q.1 < r.2) :
    findIdxForRegionInsert m p r = .error .alreadyFree ∨
      findIdxForRegionInsert m p r = .error .rangeUnwrap ∧ ∃ A₀ q, A = A₀ ++ [(q, [])] := by
  have hcan := hs.canonical
  rw [regionsOf_append, regionsOf_cons, canonical_append, canonical_append] at hcan
  obtain ⟨hcanA, ⟨hcanrs, -, -⟩, hAB⟩ := hcan
  have hsorted := (canonical_sorted hcanrs).2
  -- a region of the page that ends before `r` starts is not `q`, nor does it follow `q`
  have hbefore : ∀ x ∈ rs, x.2 ≤ r.1 → q ∉ regionsOf A := fun x hx hle hqA => by
    have hlt := hAB q hqA x (by simp [hx])
    have hxx := hcanrs.1 x hx
    omega
  -- the first region that ends behind the start of `r` overlaps it
  have hfirst : ∀ X y Y, rs = X ++ y :: Y → (∀ x ∈ X, x.2 ≤ r.1) → q ∈ rs → y.1 < r.2 := by
    rintro X y Y rfl hX hqrs
    rcases List.mem_append.mp hqrs with hqX | hqY
    · exact absurd (hX q hqX) (not_le.mpr h1)
    · rcases List.mem_cons.mp hqY with rfl | hqY
      · exact h2
      · have hyq := ((canonical_cons _ _).mp (canonical_append.mp hcanrs).2.1).2.1 q hqY
        have hyy := hcanrs.1 y (by simp)
        omega
  rcases binarySearchByKey_spec r.1 hsorted with
    ⟨X, x, Y, rfl, hx, hX, hsearch⟩ | ⟨X, Y, rfl, hX, hY, hsearch⟩
  · have hqrs : q ∈ X ++ x :: Y :=
      (List.mem_append.mp hq).resolve_left (hbefore x (by simp) hx.le)
    cases Y with
    | nil =>
        rcases List.mem_append.mp hqrs with hqX | hqx
        · have := hX q hqX
          omega
        · obtain rfl : q = x := List.mem_singleton.mp hqx
          omega
    | cons y Y =>
        have hlast : ¬ X.length = (X ++ x :: y :: Y).length - 1 := by simp
        refine findIdxForRegionInsert_error (i := X.length + 1) (y := y) h hsearch ?_ (by simp) ?_
          (by simp) (Or.inl (hfirst (X ++ [x]) y Y (by simp) ?_ hqrs))
        · rintro j hj
          obtain rfl := Except.ok.inj hj
          simp
        · simp only [neighbours, if_neg hlast]
        · intro a ha
          rcases List.mem_append.mp ha with ha | ha
          · exact (hX a ha).le
          · rw [List.mem_singleton.mp ha, hx]
  · cases Y with
    | nil =>
        -- all regions of the page end before `r`, so there are none, and nothing before them
        exfalso
        rcases List.mem_append.mp hq with hqA | hqX
        · rcases hstart with rfl | ⟨y, ys, hys, -⟩
          · simp at hqA
          · rw [List.append_nil] at hys
            exact hbefore y (by simp [hys]) (hX y (by simp [hys])).le hqA
        · have := hX q (by simpa using hqX)
          omega
    | cons y Y =>
        have hafter : (neighbours (X ++ y :: Y).length (.error X.length)).2 = some X.length := by
          cases hn : X.length with
          | zero => simp [neighbours]
          | succ k => simp [neighbours, hn]
        refine findIdxForRegionInsert_error (i := X.length) (y := y) h hsearch (by simp) ?_ hafter
          (by simp) ?_
        · rintro j hj
          obtain rfl := Except.error.inj hj
          simp
        rcases List.mem_append.mp hq with hqA | hqrs
        · -- `q` is in a page before, so the last region before the page overlaps `r`
          right
          obtain rfl : X = [] := by
            rcases X with _ | ⟨x, X⟩
            · rfl
            · exact absurd hqA (hbefore x (by simp) (hX x (by simp)).le)
          have hnone : (neighbours ([] ++ y :: Y).length
              (.error ([] : List VirtualAllocRegion).length)).1 = none := by simp [neighbours]
          rw [hnone]
          exact alreadyFreeBefore_eq_true h hs hqA h1
        · exact Or.inl (hfirst X y Y rfl (fun x hx => (hX x hx).le) hqrs)

/-- **Freeing a region that overlaps a free one** panics in the search. -/
theorem free_overlap (h : Represents m L) (hs : Sound L) (hal : isPageAligned r = true)
    (hr : r.1 < r.2) (hover : ¬ Disjoint (Set.Ico r.1 r.2) (cover (regionsOf L))) :
    ∃ e, PanicsInSearch m r e ∧ (Good L → e = .alreadyFree) := by
  obtain ⟨a, ha, q, hq, hqa⟩ := Set.not_disjoint_iff.mp hover
  obtain ⟨h1, h2⟩ : r.1 < q.2 ∧ q.1 < r.2 := ⟨lt_of_le_of_lt ha.1 hqa.2, lt_of_le_of_lt hqa.1 ha.2⟩
  have hL : L ≠ [] := by
    rintro rfl
    simp at hq
  obtain ⟨p₀, A, p, rs, B, hhead, rfl, hfind, hstart, hafter⟩ := findPage_head (r := r) h hL hs
  have hq' : q ∈ regionsOf A ++ rs := by
    rw [regionsOf_append, regionsOf_cons, ← List.append_assoc] at hq
    rcases List.mem_append.mp hq with hq | hq
    · exact hq
    · have := hafter q hq
      omega
  rcases findIdxForRegionInsert_overlap h hs hstart hq' h1 h2 with
    herr | ⟨herr, A₀, q₀, rfl⟩
  · exact ⟨_, panicsInSearch_of_error hal hr hhead hfind herr, fun _ => rfl⟩
  · refine ⟨_, panicsInSearch_of_error hal hr hhead hfind herr, fun hg => ?_⟩
    exact absurd rfl (filled_cons.mp (filled_append.mp hg.filled_around.1).2).1

/-- The page of a region that meets an empty first page is the second one. -/
theorem MeetsEmptyHead.second (hmeets : MeetsEmptyHead (A ++ (p, rs) :: B) r)
    (hcan : Canonical (regionsOf (A ++ (p, rs) :: B)))
    (hstart : A = [] ∨ ∃ y ys, rs = y :: ys ∧ y.1 ≤ r.2) (hafter : ∀ b ∈ regionsOf B, r.2 < b.1) :
    ∃ p₀, A = [(p₀, [])] ∧ ∀ x ∈ rs, r.2 ≤ x.1 ∧ x.1 < x.2 := by
  obtain ⟨p₀, q, y, ys, B', heq, hy⟩ := hmeets
  rcases A with _ | ⟨e, _ | ⟨e', A⟩⟩
  · -- the second page would come after the one found
    obtain ⟨-, rfl⟩ := List.cons.inj heq
    have := hafter y (by simp)
    omega
  · obtain ⟨rfl, htail⟩ := List.cons.inj heq
    obtain ⟨hpage, -⟩ := List.cons.inj htail
    obtain ⟨-, rfl⟩ := Prod.mk.inj hpage
    have hcanrs := canonical_page hcan
    refine ⟨p₀, rfl, fun x hx => ⟨?_, hcanrs.1 x hx⟩⟩
    rcases List.mem_cons.mp hx with rfl | hx
    · exact hy.ge
    · have hyx := ((canonical_cons _ _).mp hcanrs).2.1 x hx
      have hyy := hcanrs.1 y (by simp)
      omega
  · -- the page found would start behind the first region of the second page
    obtain ⟨rfl, htail⟩ := List.cons.inj heq
    obtain ⟨rfl, -⟩ := List.cons.inj htail
    obtain ⟨z, zs, rfl, hz⟩ := hstart.resolve_left (by simp)
    rw [regionsOf_append, canonical_append] at hcan
    have hyz := hcan.2.2 y (by simp) z (by simp)
    have hyy := hcan.1.1 y (by simp)
    omega

/-- **A region that meets an empty first page** makes the search panic as well. -/
theorem free_meetsEmptyHead (h : Represents m L) (hs : Sound L) (hal : isPageAligned r = true)
    (hr : r.1 < r.2) (hmeets : MeetsEmptyHead L r) : PanicsInSearch m r .rangeUnwrap := by
  have hL : L ≠ [] := by
    rintro rfl
    obtain ⟨_, _, _, _, _, heq, -⟩ := hmeets
    simp at heq
  obtain ⟨p₀, A, p, rs, B, hhead, rfl, hfind, hstart, hafter⟩ := findPage_head (r := r) h hL hs
  obtain ⟨q₀, rfl, hrs⟩ := hmeets.second hs.canonical hstart hafter
  refine panicsInSearch_of_error hal hr hhead hfind ?_
  have hprev : m.prev p = some q₀ := by simpa using h.focus.1
  have hempty : m.regions q₀ = [] := h.regions (q₀, []) (by simp)
  have hbefore : alreadyFreeBefore m p r none = .error .rangeUnwrap := by
    simp [alreadyFreeBefore, hprev, hempty, rangeUnwrap, range, bind, Except.bind]
  -- no region of the page ends before `r` starts, so the place is the start of the page
  have hfirst : ∃ y ys, rs = y :: ys := by
    obtain ⟨y, ys, rfl, -⟩ := hstart.resolve_left (by simp)
    exact ⟨y, ys, rfl⟩
  have hsearch : binarySearchByKey (rs.map Prod.snd) r.1 = .error 0 := by
    rcases binarySearchByKey_spec r.1 (canonical_sorted (canonical_page hs.canonical)).2 with
      ⟨X, x, Y, rfl, hx, -, -⟩ | ⟨X, Y, rfl, hX, -, hsearch⟩
    · have := hrs x (by simp)
      omega
    · rcases X with _ | ⟨x, X⟩
      · exact hsearch
      · have h1 := hrs x (by simp)
        have h2 := hX x (by simp)
        omega
  obtain ⟨y, ys, rfl⟩ := hfirst
  have hnone : (neighbours (y :: ys).length (.error 0)).1 = none := by simp [neighbours]
  simp only [findIdxForRegionInsert, Mem.len, h.focus.2.2, hsearch, hnone, hbefore, bind,
    Except.bind]

/-- **What `free` does** to any page list. A region that overlaps a free one
makes the search panic, which writes nothing. Any other region is joined with the free
regions: those read along `next` afterwards are the canonical list of the old addresses and
those of the region. It panics only if a page has to be made and no frame is left, or if
the region meets an empty first page. -/
theorem free_canonical (h : Represents m L) (hs : Sound L) (hal : isPageAligned r = true)
    (hr : r.1 < r.2) :
    (¬ Disjoint (Set.Ico r.1 r.2) (cover (regionsOf L)) →
      ∃ e, PanicsInSearch m r e ∧ (Good L → e = .alreadyFree)) ∧
    (Disjoint (Set.Ico r.1 r.2) (cover (regionsOf L)) →
      (m.frames = [] ∧ free m r = .error .outOfFrames) ∨
      (MeetsEmptyHead L r ∧ PanicsInSearch m r .rangeUnwrap) ∨
      ∃ m' l, free m r = .ok m' ∧ Reads m' l ∧ Canonical l ∧
        cover l = cover (regionsOf L) ∪ Set.Ico r.1 r.2) := by
  refine ⟨free_overlap h hs hal hr, fun hdis => ?_⟩
  by_cases hmeets : MeetsEmptyHead L r
  · exact Or.inr (Or.inl ⟨hmeets, free_meetsEmptyHead h hs hal hr hmeets⟩)
  rcases free_joins h hs hal hr hdis hmeets with
    hframes | ⟨m', o, n, L', hres, -, h', hcan, hcov, -⟩
  · exact Or.inl hframes
  · exact Or.inr (Or.inr ⟨m', regionsOf L', hres, h'.reads, hcan, hcov⟩)

end Freeing

/-- Two pages, the first of them empty. -/
def emptyHead : Mem :=
  ⟨some 4096, fun p => if p = 4096 then ⟨none, some 8192, []⟩ else
    ⟨some 4096, none, [(8192, 12288)]⟩, [], 2⟩

/-- The two pages are linked in both directions. -/
theorem emptyHead_represents :
    Represents emptyHead [(4096, []), (8192, [(8192, 12288)])] ∧
      Sound [(4096, []), (8192, [(8192, 12288)])] := by
  refine ⟨⟨rfl, ?_, by simp [emptyHead, Mem.regions], List.nodup_nil, by simp [emptyHead], rfl⟩,
    ?_, ?_, ?_⟩
  · simp [emptyHead, Mem.prev, Mem.next]
  · simp [Fits, regionsPerPage_eq]
  · simp [Filled]
  · simp

/-- The region that is free already is noticed; the one after it is joined with it. -/
theorem free_canonical_emptyHead :
    (∃ e, PanicsInSearch emptyHead (8192, 12288) e) ∧
      ∃ m' l, free emptyHead (12288, 16384) = .ok m' ∧ Reads m' l ∧ Canonical l ∧
        cover l = Set.Ico 8192 12288 ∪ Set.Ico 12288 16384 := by
  obtain ⟨h, hs⟩ := emptyHead_represents
  have hcover : cover (regionsOf [(4096, []), (8192, [(8192, 12288)])]) = Set.Ico 8192 12288 := by
    simp
  have hfree := (free_canonical (r := (8192, 12288)) h hs (by decide) (by decide)).1
  have hjoin := (free_canonical (r := (12288, 16384)) h hs (by decide) (by decide)).2
  rw [hcover] at hfree hjoin
  refine ⟨?_, ?_⟩
  · have hmem : 8192 ∈ Set.Ico 8192 12288 := ⟨by decide, by decide⟩
    obtain ⟨e, he, -⟩ := hfree (Set.not_disjoint_iff.mpr ⟨8192, hmem, hmem⟩)
    exact ⟨e, he⟩
  · have hdis : Disjoint (Set.Ico 12288 16384) (Set.Ico 8192 12288) :=
      Set.disjoint_left.mpr fun x hx hx' => by
        have := hx.1
        have := hx'.2
        omega
    rcases hjoin hdis with ⟨-, herr⟩ | ⟨⟨_, _, _, _, _, heq, hmeets⟩, -⟩ | hok
    · obtain ⟨m', hm'⟩ : ∃ m', free emptyHead (12288, 16384) = .ok m' := ⟨_, rfl⟩
      simp [hm'] at herr
    · obtain ⟨-, heq⟩ := List.cons.inj heq
      obtain ⟨hpage, -⟩ := List.cons.inj heq
      obtain ⟨-, hregs⟩ := Prod.mk.inj hpage
      obtain ⟨rfl, -⟩ := List.cons.inj hregs
      simp at hmeets
    · exact hok

/-- **Freeing a region that is disjoint from the free regions can panic**: when the first
page cannot be made, and when the region ends where the page after an empty first page
begins. -/
theorem free_panics :
    (Represents (Mem.new (fun _ => ⟨none, none, []⟩) []) [] ∧ Sound [] ∧
      Disjoint (Set.Ico 4096 8192) (cover (regionsOf [])) ∧
      free (Mem.new (fun _ => ⟨none, none, []⟩) []) (4096, 8192) = .error .outOfFrames) ∧
    (Represents emptyHead [(4096, []), (8192, [(8192, 12288)])] ∧
      Sound [(4096, []), (8192, [(8192, 12288)])] ∧
      Disjoint (Set.Ico 4096 8192) (cover (regionsOf [(4096, []), (8192, [(8192, 12288)])])) ∧
      free emptyHead (4096, 8192) = .error .rangeUnwrap) := by
  refine ⟨⟨?_, ?_, by simp, rfl⟩, emptyHead_represents.1, emptyHead_represents.2, ?_, rfl⟩
  · exact ⟨rfl, trivial, by simp, List.nodup_nil, by simp, rfl⟩
  · exact ⟨by simp [Fits], by simp [Filled], by simp⟩
  · refine Set.disjoint_left.mpr fun x hx hx' => ?_
    obtain ⟨q, hq, hle, -⟩ := hx'
    obtain rfl : q = (8192, 12288) := by simpa using hq
    exact absurd hx.2 (not_lt.mpr hle)

end HydroxKernel.Virt
