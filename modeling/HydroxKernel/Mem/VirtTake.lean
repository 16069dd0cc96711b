import HydroxKernel.Mem.VirtSpec

/-!
# Allocating and Reserving Virtual Memory

What `alloc` and `reserve` do to any page list (`Sound`): the region they take is cut out of
one free region, and the regions stay canonical. `alloc` finds a region whenever one is
large enough; `reserve` succeeds exactly if all of its region is free, and otherwise
changes nothing.

`alloc` adds the size to the start of the region that it picks, and does not check that the region
reaches over no address that is not canonical. The sum can be such an address, and is then
sign-extended, or refused.

Cutting a region in two may split a full page. Where that puts a new page between two
others, the page after the new one keeps a stale `prev`, and the list is represented once
that link is corrected (`TakenOut`).

## Main results

* `alloc_takes_iff`, `reserve_takes`: the two operations on any page list.
* `alloc_good`, `reserve_good`: a well-formed list stays well formed, unless a region is cut at the
  sign extension of an address, or a page is opened between two.
-/

namespace HydroxKernel.Virt

open Links Intervals

section Taking

variable {m : Mem} {A B L : List (ℕ × List VirtualAllocRegion)} {p : ℕ}
  {rs : List VirtualAllocRegion} {r : VirtualAllocRegion}

/-- The addresses `s` have been taken out of the free regions of `L`. At most one page is
left with a stale `prev`, and none unless a page was opened between two. -/
def TakenOut (L : List (ℕ × List VirtualAllocRegion)) (s : Set ℕ) (opens : Bool) (m' : Mem) :
    Prop :=
  ∃ o n L', (opens = false → o = none) ∧ Represents (m'.relink o n) L' ∧ Sound L' ∧
    cover (regionsOf L') = cover (regionsOf L) \ s ∧ (Good L → Good L')

/-- Without a page opened between two, all links are right afterwards. -/
theorem TakenOut.represents {s : Set ℕ} {m' : Mem} (h : TakenOut L s false m') :
    ∃ L', Represents m' L' ∧ Sound L' ∧ cover (regionsOf L') = cover (regionsOf L) \ s ∧
      (Good L → Good L') := by
  obtain ⟨o, n, L', ho, h', hs, hcov, hg⟩ := h
  obtain rfl := ho rfl
  exact ⟨L', h', hs, hcov, hg⟩

/-- The regions of one page are replaced by regions that cover less. -/
theorem takenOut_setRegions {rs' : List VirtualAllocRegion} {s : Set ℕ} {b : Bool}
    (h : Represents m (A ++ (p, rs) :: B)) (hs : Sound (A ++ (p, rs) :: B)) (hne : rs' ≠ [])
    (hlen : rs'.length ≤ regionsPerPage)
    (hcan : Canonical (regionsOf A ++ (rs' ++ regionsOf B)))
    (hcov : cover (regionsOf A ++ (rs' ++ regionsOf B)) =
      cover (regionsOf (A ++ (p, rs) :: B)) \ s) :
    TakenOut (A ++ (p, rs) :: B) s b (m.setRegions p rs') := by
  refine ⟨none, 0, _, fun _ => rfl, h.setRegions rs', hs.replace hne hlen hcan, ?_, fun hg => ?_⟩
  · rwa [regionsOf_append, regionsOf_cons]
  · exact (hg.replace hne hlen hcan).2.2

/-- Replacing a region by one inside it. -/
theorem takenOut_shrink {X Y : List VirtualAllocRegion} {x y : VirtualAllocRegion} {t : Set ℕ}
    {b : Bool} (h : Represents m (A ++ (p, X ++ x :: Y) :: B))
    (hs : Sound (A ++ (p, X ++ x :: Y) :: B)) (hy : y.1 < y.2) (hin : x.1 ≤ y.1 ∧ y.2 ≤ x.2)
    (ht : t ⊆ Set.Ico x.1 x.2) (hcut : Set.Ico y.1 y.2 = Set.Ico x.1 x.2 \ t) :
    TakenOut (A ++ (p, X ++ x :: Y) :: B) t b
      (m.setRegions p ((m.regions p).set X.length y)) := by
  have hset : (m.regions p).set X.length y = X ++ y :: Y := by
    rw [h.focus.2.2, set_length_append]
  have hcan : Canonical ((regionsOf A ++ X) ++ x :: (Y ++ regionsOf B)) := by
    simpa using hs.canonical
  have hone : Canonical [y] := by simpa using hy
  have hcan' := canonical_replace hcan hone (by simpa using hin)
  have hcov := cover_replace hcan ht (by simpa using hcut : cover [y] = _)
  have hlen : (X ++ y :: Y).length ≤ regionsPerPage := by
    have hfits := hs.fits
    rw [fits_append, fits_cons] at hfits
    simpa using hfits.2.1
  rw [hset]
  exact takenOut_setRegions h hs (by simp) hlen (by simpa using hcan') (by simpa using hcov)

/-- Removing a region and combining the pages around it. -/
theorem takenOut_removeRegion {X Y : List VirtualAllocRegion} {x : VirtualAllocRegion}
    {b : Bool} (h : Represents m (A ++ (p, X ++ x :: Y) :: B))
    (hs : Sound (A ++ (p, X ++ x :: Y) :: B)) :
    ∃ q m', combineIfSmall ((removeRegion m p X.length).live + 1)
        (removeRegion m p X.length) p = .ok (q, m') ∧
      TakenOut (A ++ (p, X ++ x :: Y) :: B) (Set.Ico x.1 x.2) b m' := by
  have hrem : removeRegion m p X.length = m.setRegions p (X ++ Y) := by
    rw [removeRegion, h.focus.2.2, eraseIdx_length_append]
  have h' := h.setRegions (X ++ Y)
  have hfits := hs.fits
  rw [fits_append, fits_cons] at hfits
  have hfits' : Fits (A ++ (p, X ++ Y) :: B) := by
    rw [fits_append, fits_cons]
    refine ⟨hfits.1, ?_, hfits.2.2⟩
    have := hfits.2.1
    simp only [List.length_append, List.length_cons] at this ⊢
    omega
  have hlive : A.length + B.length < (m.setRegions p (X ++ Y)).live + 1 := by
    rw [h'.live, List.length_append, List.length_cons]
    omega
  obtain ⟨q, m', L', hc, hr', hf', hl', hlast, htail⟩ :=
    combineIfSmall_represents h' hfits' hlive
  have hcan : Canonical ((regionsOf A ++ X) ++ x :: (Y ++ regionsOf B)) := by
    simpa using hs.canonical
  have hcan' : Canonical (regionsOf L') := by
    rw [hl']
    simpa using canonical_replace hcan canonical_nil (by simp)
  have hcov := cover_replace hcan (le_refl (Set.Ico x.1 x.2))
    (by simp : cover ([] : List VirtualAllocRegion) = _)
  refine ⟨q, m', by rw [hrem]; exact hc, none, 0, L', fun _ => rfl, hr',
    ⟨hf', htail hs.filled_tail_before hs.filled_after, hcan'⟩, ?_, fun hg => ⟨hf', ?_, hcan'⟩⟩
  · rw [hl']
    simpa using hcov
  · exact hlast hg.filled_around.1 hg.filled_around.2

/-! ### Allocating a region -/

/-- The inner loop of `alloc` finds the last region with room of those it looks at. -/
theorem findRoom_spec (size : ℕ) {n : ℕ} (hrs : ∀ x ∈ rs, x.1 < x.2) (hn : n ≤ rs.length) :
    ∃ o, findRoom rs size n = .ok o ∧
      o.map Prod.snd = (rs.take n).reverse.find? (fun x => size ≤ x.2 - x.1) ∧
      ∀ idx x, o = some (idx, x) → rs[idx]? = some x ∧ size ≤ x.2 - x.1 := by
  induction n with
  | zero => exact ⟨none, rfl, by simp, by simp⟩
  | succ n ih =>
      have hget : rs[n]? = some rs[n] := List.getElem?_eq_getElem hn
      have hlen := regionSize_of_le (hrs rs[n] (List.getElem_mem hn)).le
      have hstep : findRoom rs size (n + 1) =
          if size ≤ rs[n].2 - rs[n].1 then .ok (some (n, rs[n])) else findRoom rs size n := by
        rw [findRoom, hget]
        simp only [hlen, bind, Except.bind]
      rw [hstep, List.take_succ_eq_append_getElem hn, List.reverse_concat]
      by_cases hroom : size ≤ rs[n].2 - rs[n].1
      · refine ⟨some (n, rs[n]), if_pos hroom, by simp [hroom], fun idx x h => ?_⟩
        obtain ⟨rfl, rfl⟩ := Prod.mk.inj (Option.some.inj h)
        exact ⟨hget, hroom⟩
      · obtain ⟨o, hfind, hlast, hspec⟩ := ih (Nat.le_of_succ_le hn)
        exact ⟨o, by rw [if_neg hroom, hfind], by simpa [hroom] using hlast, hspec⟩

/-- The region that `alloc` picks: the last one with room of the first page that has one. -/
def picked (L : List (ℕ × List VirtualAllocRegion)) (size : ℕ) : Option VirtualAllocRegion :=
  L.findSome? fun e => e.2.reverse.find? fun x => size ≤ x.2 - x.1

/-- A region is picked unless none has room. -/
theorem picked_eq_none_iff {size : ℕ} :
    picked L size = none ↔ ∀ x ∈ regionsOf L, x.2 - x.1 < size := by
  simp only [picked, List.findSome?_eq_none_iff, List.find?_eq_none, List.mem_reverse,
    decide_eq_true_eq, not_le, regionsOf, List.mem_flatMap]
  constructor
  · rintro h x ⟨e, he, hx⟩
    exact h e he x hx
  · intro h e he x hx
    exact h x ⟨e, he, hx⟩

/-- The region picked is a free one with room. -/
theorem of_picked {size : ℕ} {x : VirtualAllocRegion} (h : picked L size = some x) :
    x ∈ regionsOf L ∧ size ≤ x.2 - x.1 := by
  obtain ⟨e, he, hx⟩ := List.exists_of_findSome?_eq_some h
  refine ⟨List.mem_flatMap.mpr ⟨e, he, List.mem_reverse.mp (List.mem_of_find?_eq_some hx)⟩, ?_⟩
  simpa using List.find?_some hx

/-- A list around one of its elements. -/
theorem exists_split_of_getElem? {α : Type*} {l : List α} {i : ℕ} {x : α} (h : l[i]? = some x) :
    ∃ X Y, l = X ++ x :: Y ∧ X.length = i := by
  obtain ⟨hi, rfl⟩ := List.getElem?_eq_some_iff.mp h
  refine ⟨l.take i, l.drop (i + 1), ?_, by simp [hi.le]⟩
  rw [List.getElem_cons_drop, List.take_append_drop]

/-- The addresses that a result of `alloc` takes. -/
def taken : Option VirtualAllocRegion → Set ℕ
  | some r => Set.Ico r.1 r.2
  | none => ∅

/-- A canonical address is an address. -/
theorem newVirtAddr_of_isCanonical {a : ℕ} (h : isCanonical a = true) : newVirtAddr a = .ok a :=
  if_pos h

/-- The sign extension of an address that is not canonical is another address behind it. -/
theorem lt_of_newVirtAddr {a b : ℕ} (hcanon : isCanonical a = false) (h : newVirtAddr a = .ok b) :
    a < b := by
  rw [newVirtAddr, hcanon, if_neg Bool.false_ne_true] at h
  split at h
  · have := Except.ok.inj h
    omega
  · cases h

/-- `VirtAddr::new` fails in one way. -/
theorem newVirtAddr_eq_error {a : ℕ} {e : Panic} (h : newVirtAddr a = .error e) :
    isCanonical a = false ∧ e = .nonCanonical := by
  rw [newVirtAddr] at h
  split at h
  · cases h
  · rename_i hcanon
    split at h
    · cases h
    · exact ⟨Bool.eq_false_iff.mpr hcanon, (Except.error.inj h).symm⟩

/-- The address `size` bytes into a region that is larger is not canonical, and its sign extension
is not inside of the region. -/
def overshoots (x : VirtualAllocRegion) (size : ℕ) : Bool :=
  size < x.2 - x.1 &&
    match newVirtAddr (x.1 + size) with
    | .ok start => decide (x.2 ≤ start)
    | .error _ => false

/-- What `alloc` can do: find no region with room, take the start of the one it picks, or
panic where the end of what it would take is no address. -/
inductive AllocOutcome (m : Mem) (L : List (ℕ × List VirtualAllocRegion))
    (pick : Option VirtualAllocRegion) (size : ℕ) :
    Except Panic (Option VirtualAllocRegion × Mem) → Prop
  | full (hno : pick = none) : AllocOutcome m L pick size (.ok (none, m))
  | all {x : VirtualAllocRegion} {m' : Mem} (hx : pick = some x) (hall : x.2 - x.1 = size)
      (ht : TakenOut L (Set.Ico x.1 (x.1 + size)) false m') :
      AllocOutcome m L pick size (.ok (some (x.1, x.1 + size), m'))
  | start {x : VirtualAllocRegion} {start : ℕ} {m' : Mem} (hx : pick = some x)
      (hroom : size < x.2 - x.1) (hstart : newVirtAddr (x.1 + size) = .ok start)
      (ht : start < x.2 → TakenOut L (Set.Ico x.1 start) false m') :
      AllocOutcome m L pick size (.ok (some (x.1, start), m'))
  | nonCanonical {x : VirtualAllocRegion} (hx : pick = some x) (hroom : size < x.2 - x.1)
      (herr : newVirtAddr (x.1 + size) = .error .nonCanonical) :
      AllocOutcome m L pick size (.error .nonCanonical)

/-- The loop of `alloc` at a page with a region that has room. -/
theorem allocLoop_found {x : VirtualAllocRegion} {size idx fuel : ℕ}
    (hroom : findRoom (m.regions p) size (m.len p) = .ok (some (idx, x))) :
    allocLoop m size (fuel + 1) (some p) =
      if x.2 - x.1 = size then
        (combineIfSmall ((removeRegion m p idx).live + 1) (removeRegion m p idx) p).bind
          fun r => .ok (some (x.1, x.1 + size), r.2)
      else (newVirtAddr (x.1 + size)).bind fun start =>
        .ok (some (x.1, start), m.setRegions p ((m.regions p).set idx (start, x.2))) := by
  rw [allocLoop, hroom]
  rfl

/-- What the loop of `alloc` does at the page that has room. -/
theorem allocLoop_page {X Y : List VirtualAllocRegion} {x : VirtualAllocRegion} {size fuel : ℕ}
    {pick : Option VirtualAllocRegion} (h : Represents m (A ++ (p, X ++ x :: Y) :: B))
    (hs : Sound (A ++ (p, X ++ x :: Y) :: B)) (hpick : pick = some x) (hle : size ≤ x.2 - x.1)
    (hsize : 0 < size)
    (hroom : findRoom (m.regions p) size (m.len p) = .ok (some (X.length, x))) :
    AllocOutcome m (A ++ (p, X ++ x :: Y) :: B) pick size
      (allocLoop m size (fuel + 1) (some p)) := by
  rw [allocLoop_found hroom]
  by_cases heq : x.2 - x.1 = size
  · have hx2 : x.2 = x.1 + size := by omega
    obtain ⟨q, m', hc, ht⟩ := takenOut_removeRegion (b := false) h hs
    rw [if_pos heq, hc]
    exact .all hpick heq (hx2 ▸ ht)
  · rw [if_neg heq]
    have hlt : size < x.2 - x.1 := by omega
    cases hstart : newVirtAddr (x.1 + size) with
    | error e =>
        obtain ⟨-, rfl⟩ := newVirtAddr_eq_error hstart
        exact .nonCanonical hpick hlt hstart
    | ok start =>
        refine .start hpick hlt hstart fun hin => ?_
        have hle : x.1 ≤ start := by
          cases hcanon : isCanonical (x.1 + size) with
          | true =>
              rw [newVirtAddr_of_isCanonical hcanon] at hstart
              have := Except.ok.inj hstart
              omega
          | false =>
              have := lt_of_newVirtAddr hcanon hstart
              omega
        have hcut : Set.Ico start x.2 = Set.Ico x.1 x.2 \ Set.Ico x.1 start := by
          ext a
          simp only [Set.mem_Ico, Set.mem_sdiff]
          omega
        exact takenOut_shrink (y := (start, x.2)) (b := false) h hs hin ⟨hle, le_rfl⟩
          (Set.Ico_subset_Ico le_rfl hin.le) hcut

/-- The loop of `alloc` looks at all the pages from one on. -/
theorem allocLoop_outcome {A₀ B₀ : List (ℕ × List VirtualAllocRegion)} {size fuel : ℕ}
    (h : Represents m L) (hs : Sound L) (hL : L = A₀ ++ B₀) (hsize : 0 < size)
    (hfuel : B₀.length < fuel) :
    AllocOutcome m L (picked B₀ size) size (allocLoop m size fuel (ptrs B₀).head?) := by
  induction fuel generalizing A₀ B₀ with
  | zero => omega
  | succ fuel ih =>
      cases B₀ with
      | nil =>
          rw [ptrs_nil, List.head?_nil, allocLoop]
          exact .full rfl
      | cons e B₀ =>
          obtain ⟨p, rs⟩ := e
          simp only [List.length_cons] at hfuel
          obtain ⟨-, hnext, hregs⟩ := (hL ▸ h).focus
          have hrs := (canonical_page (hL ▸ hs).canonical).1
          obtain ⟨o, hroom, hlast, hspec⟩ := findRoom_spec size hrs le_rfl
          rw [List.take_length] at hlast
          have hroom' : findRoom (m.regions p) size (m.len p) = .ok o := by
            rw [Mem.len, hregs, hroom]
          have hpick : picked ((p, rs) :: B₀) size =
              (o.map Prod.snd).or (picked B₀ size) := by
            rw [picked, List.findSome?_cons, ← hlast]
            cases o <;> rfl
          cases o with
          | none =>
              have hnext' : allocLoop m size (fuel + 1) (ptrs ((p, rs) :: B₀)).head? =
                  allocLoop m size fuel (ptrs B₀).head? := by
                rw [ptrs_cons, List.head?_cons, allocLoop, hroom']
                simp only [bind, Except.bind, hnext]
              have hL' : L = (A₀ ++ [(p, rs)]) ++ B₀ := by simpa using hL
              rw [hnext', hpick]
              exact ih hL' (by omega)
          | some found =>
              obtain ⟨idx, x⟩ := found
              obtain ⟨hx, hle⟩ := hspec idx x rfl
              obtain ⟨X, Y, rfl, rfl⟩ := exists_split_of_getElem? hx
              subst hL
              rw [ptrs_cons, List.head?_cons]
              exact allocLoop_page h hs hpick hle hsize hroom'

/-- The outcomes of `alloc`, for a size that is a multiple of the page size. -/
theorem alloc_outcome {size : ℕ} (h : Represents m L) (hs : Sound L)
    (hal : size % pageSize = 0) (hsize : 0 < size) :
    AllocOutcome m L (picked L size) size (alloc m size) := by
  have hlive : L.length < m.live + 1 := by
    rw [h.live]
    omega
  have hne : size ≠ 0 := hsize.ne'
  have hloop : alloc m size = allocLoop m size (m.live + 1) (ptrs L).head? := by
    simp [alloc, hal, hne, h.head]
  rw [hloop]
  exact allocLoop_outcome h hs (List.nil_append L).symm hsize hlive

/-- The region that the walk of `alloc` finds. -/
def findRoomIn (m : Mem) (size : ℕ) : ℕ → Option ℕ → Option VirtualAllocRegion
  | 0, _ => none
  | _ + 1, none => none
  | fuel + 1, some p =>
      match findRoom (m.regions p) size (m.len p) with
      | .ok (some (_, r)) => some r
      | .ok none => findRoomIn m size fuel (m.next p)
      | .error _ => none

/-- Allocating `size` bytes would cut the region that is picked at an address that is not inside of
it: the sum of its start and the size is not canonical, and is sign-extended. -/
def allocOvershoots (m : Mem) (size : ℕ) : Bool :=
  size % pageSize = 0 && 0 < size &&
    match findRoomIn m size (m.live + 1) m.head with
    | some x => overshoots x size
    | none => false

/-- The walk of `alloc` finds the region that is picked. -/
theorem findRoomIn_eq {A₀ B₀ : List (ℕ × List VirtualAllocRegion)} {size fuel : ℕ}
    (h : Represents m L) (hcan : Canonical (regionsOf L)) (hL : L = A₀ ++ B₀)
    (hfuel : B₀.length < fuel) :
    findRoomIn m size fuel (ptrs B₀).head? = picked B₀ size := by
  induction fuel generalizing A₀ B₀ with
  | zero => omega
  | succ fuel ih =>
      cases B₀ with
      | nil => rfl
      | cons e B₀ =>
          obtain ⟨p, rs⟩ := e
          simp only [List.length_cons] at hfuel
          obtain ⟨-, hnext, hregs⟩ := (hL ▸ h).focus
          have hrs := (canonical_page (hL ▸ hcan)).1
          obtain ⟨o, hroom, hlast, -⟩ := findRoom_spec size hrs le_rfl
          rw [List.take_length] at hlast
          have hL' : L = (A₀ ++ [(p, rs)]) ++ B₀ := by simpa using hL
          have hrest := ih hL' (by omega)
          rw [ptrs_cons, List.head?_cons, findRoomIn, Mem.len, hregs, hroom, picked,
            List.findSome?_cons, ← hlast]
          cases o with
          | none =>
              dsimp only
              rw [hnext, hrest]
              rfl
          | some found => rfl

/-- Whether an allocation overshoots is said by the region that is picked. -/
theorem allocOvershoots_eq {size : ℕ} (h : Represents m L) (hs : Sound L)
    (hal : size % pageSize = 0) (hsize : 0 < size) :
    allocOvershoots m size = (picked L size).any fun x => overshoots x size := by
  have hlive : L.length < m.live + 1 := by
    rw [h.live]
    omega
  rw [allocOvershoots, h.head, findRoomIn_eq h hs.canonical (List.nil_append L).symm hlive]
  cases picked L size <;> simp [hal, hsize]

/-- **Allocating a region** of a well-formed list takes it out of the free regions, unless the
allocation overshoots. -/
theorem alloc_good (size : ℕ) (h : Represents m L) (hg : Good L)
    (hopen : allocOvershoots m size = false) :
    alloc m size = .error .unaligned ∨ alloc m size = .error .nonCanonical ∨
    ∃ o m' L', alloc m size = .ok (o, m') ∧ Represents m' L' ∧ Good L' ∧
      taken o ⊆ cover (regionsOf L) ∧
      cover (regionsOf L') = cover (regionsOf L) \ taken o := by
  by_cases hal : size % pageSize = 0
  · right
    rcases Nat.eq_zero_or_pos size with hzero | hsize
    · refine Or.inr ⟨some emptyRegion, m, L, by simp [alloc, hzero], h, hg, ?_, ?_⟩
      · simp [taken, emptyRegion]
      · simp [taken, emptyRegion]
    · have hout := alloc_outcome h hg.sound hal hsize
      rw [allocOvershoots_eq h hg.sound hal hsize] at hopen
      -- what is cut off is inside of the region that is picked
      have htaken : ∀ {x : VirtualAllocRegion} {stop : ℕ} {m' : Mem}, picked L size = some x →
          stop ≤ x.2 → TakenOut L (Set.Ico x.1 stop) false m' →
          ∃ L', Represents m' L' ∧ Good L' ∧ Set.Ico x.1 stop ⊆ cover (regionsOf L) ∧
            cover (regionsOf L') = cover (regionsOf L) \ Set.Ico x.1 stop := by
        intro x stop m' hx hstop ht
        obtain ⟨L', h', -, hcov, hg'⟩ := ht.represents
        exact ⟨L', h', hg' hg, fun a ha => ⟨x, (of_picked hx).1, ha.1, by have := ha.2; omega⟩,
          hcov⟩
      generalize alloc m size = res at hout
      generalize hpick : picked L size = pick at hout hopen
      cases hout with
      | full hno => exact .inr ⟨none, m, L, rfl, h, hg, by simp [taken], by simp [taken]⟩
      | @all x m' hx hall ht =>
          obtain ⟨L', hL'⟩ := htaken (hpick.trans hx) (by
            have := (of_picked (hpick.trans hx)).2
            omega) ht
          exact .inr ⟨_, m', L', rfl, hL'⟩
      | @start x start m' hx hroom hstart ht =>
          rw [hx] at hopen
          have hin : start < x.2 := by
            simpa [overshoots, hroom, hstart] using hopen
          obtain ⟨L', hL'⟩ := htaken (hpick.trans hx) hin.le (ht hin)
          exact .inr ⟨_, m', L', rfl, hL'⟩
      | nonCanonical hx hroom herr => exact .inl rfl
  · left
    simp [alloc, hal]

/-- What `alloc` is for: it returns nothing, and changes nothing, exactly if no free region is large
enough; otherwise it takes a region of the wanted size out of a free region, and leaves a list
that the operations can work on. -/
def Allocates (m : Mem) (L : List (ℕ × List VirtualAllocRegion)) (size : ℕ) : Prop :=
  (alloc m size = .ok (none, m) ∧ ∀ x ∈ regionsOf L, x.2 - x.1 < size) ∨
  ∃ x ∈ regionsOf L, ∃ a, x.1 ≤ a ∧ a + size ≤ x.2 ∧
    ∃ m' L', alloc m size = .ok (some (a, a + size), m') ∧ Represents m' L' ∧ Sound L' ∧
      cover (regionsOf L') = cover (regionsOf L) \ Set.Ico a (a + size)

/-- **What `alloc` does** to any page list is what it is for, unless the region that it picks, the
last one with room of the first page that has one, is too large, and the address where the region
would be cut is not canonical. -/
theorem alloc_takes_iff {size : ℕ} (h : Represents m L) (hs : Sound L)
    (hal : size % pageSize = 0) (hsize : 0 < size) :
    Allocates m L size ↔
      ∀ x, picked L size = some x → size < x.2 - x.1 → isCanonical (x.1 + size) = true := by
  have hout := alloc_outcome h hs hal hsize
  rw [Allocates]
  generalize alloc m size = res at hout ⊢
  generalize hpick : picked L size = pick at hout
  cases hout with
  | full hno =>
      rw [hno] at hpick ⊢
      refine ⟨fun _ x hx => ?_, fun _ => .inl ⟨rfl, picked_eq_none_iff.mp hpick⟩⟩
      cases hx
  | @all x m' hx hall ht =>
      rw [hx] at hpick ⊢
      obtain ⟨hmem, hroom⟩ := of_picked hpick
      obtain ⟨L', h', hs', hcov, -⟩ := ht.represents
      refine ⟨fun _ y hy hlt => ?_, fun _ => .inr ⟨x, hmem, x.1, le_rfl, by omega, m', L', rfl, h',
        hs', hcov⟩⟩
      obtain rfl := Option.some.inj hy
      exact absurd hall hlt.ne'
  | @start x start m' hx hroom hstart ht =>
      rw [hx] at hpick ⊢
      obtain ⟨hmem, -⟩ := of_picked hpick
      constructor
      · rintro (⟨hnone, -⟩ | ⟨-, -, a, -, -, m'', L'', hres, -⟩) y hy -
        · cases hnone
        · obtain rfl := Option.some.inj hy
          obtain ⟨hres, -⟩ := Prod.mk.inj (Except.ok.inj hres)
          obtain ⟨rfl, rfl⟩ := Prod.mk.inj (Option.some.inj hres)
          -- a sum that is not canonical is not the end of what is returned
          refine Bool.not_eq_false _ ▸ fun hcanon => ?_
          exact absurd rfl (lt_of_newVirtAddr hcanon hstart).ne
      · intro hcanon
        rw [newVirtAddr_of_isCanonical (hcanon x rfl hroom)] at hstart
        obtain rfl := Except.ok.inj hstart
        obtain ⟨L', h', hs', hcov, -⟩ := (ht (by omega)).represents
        exact .inr ⟨x, hmem, x.1, le_rfl, by omega, m', L', rfl, h', hs', hcov⟩
  | @nonCanonical x hx hroom herr =>
      rw [hx] at hpick ⊢
      constructor
      · rintro (⟨hnone, -⟩ | ⟨_, -, _, -, -, _, _, hres, -⟩)
        · cases hnone
        · cases hres
      · intro hcanon
        rw [newVirtAddr_of_isCanonical (hcanon x rfl hroom)] at herr
        cases herr

/-! ### Reserving a region -/

/-- The walk of `reserve` ends at the last region that starts at or before the wanted one,
unless the wanted one does not start in a free region. -/
theorem findReserve_spec {A₀ B₀ : List (ℕ × List VirtualAllocRegion)} {fuel : ℕ}
    (h : Represents m L) (hcan : Canonical (regionsOf L)) (hL : L = A₀ ++ B₀)
    (hA₀ : ∀ a ∈ regionsOf A₀, a.2 ≤ r.1) (hfuel : B₀.length < fuel) :
    (findReserve m r fuel (ptrs B₀).head? = .ok none ∧ r.1 ∉ cover (regionsOf L)) ∨
    ∃ A p X x Y B, L = A ++ (p, X ++ x :: Y) :: B ∧ x.1 ≤ r.1 ∧
      (∀ b ∈ Y ++ regionsOf B, r.1 < b.1) ∧
      findReserve m r fuel (ptrs B₀).head? = .ok (some (p, X.length)) := by
  induction fuel generalizing A₀ B₀ with
  | zero => omega
  | succ fuel ih =>
      cases B₀ with
      | nil =>
          refine Or.inl ⟨by simp [findReserve], ?_⟩
          have hgap := not_mem_cover_of_gap (k := []) hA₀ (by simp)
          simpa [hL] using hgap
      | cons e B₀ =>
          obtain ⟨p, rs⟩ := e
          simp only [List.length_cons] at hfuel
          obtain ⟨-, hnext, hregs⟩ := (hL ▸ h).focus
          have hL' : L = (A₀ ++ [(p, rs)]) ++ B₀ := by simpa using hL
          have hrec : (∀ a ∈ rs, a.2 ≤ r.1) → _ := fun hrs =>
            ih hL' (by
              rw [regionsOf_append, regionsOf_cons, regionsOf_nil, List.append_nil]
              exact List.forall_mem_append.mpr ⟨hA₀, hrs⟩) (by omega)
          rw [← hnext] at hrec
          rw [ptrs_cons, List.head?_cons, findReserve, hregs]
          rw [hL, regionsOf_append, regionsOf_cons, canonical_append, canonical_append] at hcan
          obtain ⟨-, ⟨hcanrs, -, hBlt⟩, -⟩ := hcan
          cases rs with
          | nil => simpa [range] using hrec (by simp)
          | cons y ys =>
              obtain ⟨z, hz⟩ : ∃ z, (y :: ys).getLast? = some z := by simp [List.getLast?_cons]
              rw [range_concat (List.head?_cons : (y :: ys).head? = some y) hz]
              by_cases hlt : r.1 < y.1
              · -- the regions from here on start behind the wanted one
                refine Or.inl ⟨by simp [hlt], ?_⟩
                have hys : ∀ b ∈ y :: ys, r.1 < b.1 ∧ y.2 ≤ b.2 := fun b hb => by
                  have hyy := hcanrs.1 y (by simp)
                  rcases List.mem_cons.mp hb with rfl | hb'
                  · exact ⟨hlt, le_rfl⟩
                  · have hyb := ((canonical_cons _ _).mp hcanrs).2.1 b hb'
                    have hbb := hcanrs.1 b hb
                    omega
                have hgap := not_mem_cover_of_gap (k := (y :: ys) ++ regionsOf B₀) hA₀
                  (List.forall_mem_append.mpr ⟨fun b hb => (hys b hb).1, fun b hb => by
                    have hyb := hBlt y (by simp) b hb
                    have hyy := hcanrs.1 y (by simp)
                    omega⟩)
                rwa [hL, regionsOf_append, regionsOf_cons]
              by_cases hin : r.1 < z.2
              · right
                simp only [if_neg hlt, if_pos hin]
                have hB : ∀ b ∈ regionsOf B₀, r.1 < b.1 := fun b hb =>
                  hin.trans (hBlt z (List.mem_of_getLast? hz) b hb)
                rcases binarySearchByKey_spec r.1 (canonical_sorted hcanrs).1 with
                  ⟨X, x, Y, heq, hx, -, hsearch⟩ | ⟨X, Y, heq, hX, hY, hsearch⟩
                · refine ⟨A₀, p, X, x, Y, B₀, heq ▸ hL, hx.le,
                    List.forall_mem_append.mpr ⟨fun b hb => ?_, hB⟩, by rw [hsearch]⟩
                  have hxY := (canonical_append.mp (heq ▸ hcanrs)).2.1
                  have hxb := ((canonical_cons _ _).mp hxY).2.1 b hb
                  have hxx := hxY.1 x (by simp)
                  omega
                · rcases List.eq_nil_or_concat X with rfl | ⟨X, x, rfl⟩
                  · -- the page starts at or before the region, so the search is not at its start
                    rw [List.nil_append] at heq
                    have := hY y (heq ▸ List.mem_cons_self)
                    omega
                  · rw [List.concat_eq_append] at *
                    rw [List.append_assoc, List.singleton_append] at heq
                    refine ⟨A₀, p, X, x, Y, B₀, heq ▸ hL, (hX x (by simp)).le,
                      List.forall_mem_append.mpr ⟨hY, hB⟩, ?_⟩
                    rw [hsearch, List.length_append, List.length_singleton]
              · have hrs : ∀ a ∈ y :: ys, a.2 ≤ r.1 := fun a ha =>
                  (end_le_last hcanrs hz ha).trans (not_lt.mp hin)
                simpa only [if_neg hlt, if_neg hin] using hrec hrs

/-- Cutting a region out of the middle of another one cuts it out of the covered set. -/
theorem middle_cover {l l' : List VirtualAllocRegion} {x : VirtualAllocRegion}
    (hcan : Canonical (l ++ x :: l')) (hr : r.1 < r.2) (h1 : x.1 < r.1) (h2 : r.2 < x.2) :
    Canonical (l ++ (x.1, r.1) :: (r.2, x.2) :: l') ∧
      cover (l ++ (x.1, r.1) :: (r.2, x.2) :: l') = cover (l ++ x :: l') \ Set.Ico r.1 r.2 := by
  have htwo : Canonical [(x.1, r.1), (r.2, x.2)] := by
    simpa using ⟨h1, hr, h2⟩
  have hcut : cover [(x.1, r.1), (r.2, x.2)] = Set.Ico x.1 x.2 \ Set.Ico r.1 r.2 := by
    ext a
    simp only [cover_cons, cover_nil, Set.union_empty, Set.mem_union, Set.mem_Ico, Set.mem_sdiff]
    omega
  have hin : ∀ q ∈ [(x.1, r.1), (r.2, x.2)], x.1 ≤ q.1 ∧ q.2 ≤ x.2 := by
    intro q hq
    simp only [List.mem_cons, List.not_mem_nil, or_false] at hq
    rcases hq with rfl | rfl <;> constructor <;> simp only <;> omega
  exact ⟨canonical_replace hcan htwo hin,
    cover_replace hcan (Set.Ico_subset_Ico h1.le h2.le) hcut⟩

/-- Cutting a region out of the middle of a region of a page with room, also where the
`prev` of another page is stale. -/
theorem cut_middle {o : Option ℕ} {n : ℕ} {X Y : List VirtualAllocRegion}
    {x : VirtualAllocRegion} (h : Represents (m.relink o n) (A ++ (p, X ++ x :: Y) :: B))
    (hs : Sound (A ++ (p, X ++ x :: Y) :: B)) (hroom : (X ++ x :: Y).length < regionsPerPage)
    (hr : r.1 < r.2) (h1 : x.1 < r.1) (h2 : r.2 < x.2) :
    getRegion (m.regions p) X.length = .ok x ∧ ∃ m' rs',
      insertRegion (m.setRegions p ((m.regions p).set X.length (x.1, r.1))) p (r.2, x.2)
        (X.length + 1) = .ok m' ∧ Represents (m'.relink o n) (A ++ (p, rs') :: B) ∧
      rs' ≠ [] ∧ rs'.length ≤ regionsPerPage ∧
      Canonical (regionsOf A ++ (rs' ++ regionsOf B)) ∧
      cover (regionsOf A ++ (rs' ++ regionsOf B)) =
        cover (regionsOf (A ++ (p, X ++ x :: Y) :: B)) \ Set.Ico r.1 r.2 := by
  have hregs : m.regions p = X ++ x :: Y := by simpa using h.focus.2.2
  refine ⟨by rw [getRegion, hregs, getElem?_length_append], ?_⟩
  have hset : (m.regions p).set X.length (x.1, r.1) = X ++ (x.1, r.1) :: Y := by
    rw [hregs, set_length_append]
  have hregs' : (m.setRegions p (X ++ (x.1, r.1) :: Y)).regions p = X ++ (x.1, r.1) :: Y := by simp
  simp only [List.length_append, List.length_cons] at hroom
  have hne : ¬ (m.setRegions p (X ++ (x.1, r.1) :: Y)).len p = regionsPerPage := by
    rw [Mem.len, hregs', List.length_append, List.length_cons]
    omega
  have hins : (X ++ (x.1, r.1) :: Y).insertIdx (X.length + 1) (r.2, x.2) =
      X ++ (x.1, r.1) :: (r.2, x.2) :: Y := by
    have := insertIdx_length_append (X := X ++ [(x.1, r.1)]) (Y := Y) (a := (r.2, x.2))
    simpa using this
  have hcan : Canonical ((regionsOf A ++ X) ++ x :: (Y ++ regionsOf B)) := by
    simpa using hs.canonical
  obtain ⟨hcan', hcov⟩ := middle_cover hcan hr h1 h2
  refine ⟨(m.setRegions p (X ++ (x.1, r.1) :: Y)).setRegions p
    (X ++ (x.1, r.1) :: (r.2, x.2) :: Y), X ++ (x.1, r.1) :: (r.2, x.2) :: Y, ?_, ?_, by simp, ?_,
    by simpa using hcan', by simpa using hcov⟩
  · rw [hset, insertRegion, if_neg hne, hregs', hins]
  · rw [← setRegions_relink, ← setRegions_relink]
    exact (h.setRegions _).setRegions _
  · simp only [List.length_append, List.length_cons]
    omega

/-- The last branch of `cut`, when the region lies strictly inside the one it is cut out of. -/
theorem cut_inside {X Y : List VirtualAllocRegion} {x : VirtualAllocRegion}
    (h : Represents m (A ++ (p, X ++ x :: Y) :: B)) (hs : Sound (A ++ (p, X ++ x :: Y) :: B))
    (hr : r.1 < r.2) (h1 : x.1 < r.1) (h2 : r.2 < x.2) :
    (m.frames = [] ∧ (X ++ x :: Y).length = regionsPerPage ∧ NoRoom A B ∧
      cut m p X.length r x = .error .outOfFrames) ∨
    ∃ m', cut m p X.length r x = .ok m' ∧
      TakenOut (A ++ (p, X ++ x :: Y) :: B) (Set.Ico r.1 r.2) (opensBetween m p) m' := by
  have hregs := h.focus.2.2
  have hne1 : ¬ r.1 = x.1 := by omega
  have hne2 : ¬ r.2 = x.2 := by omega
  by_cases hfull : m.len p = regionsPerPage
  · have hlen : (X ++ x :: Y).length = regionsPerPage := by rwa [Mem.len, hregs] at hfull
    rcases split_place X.length h hlen (by simp) hs.fits hs.filled_after with
      ⟨hframes, herr⟩ | ⟨s, m', o, n, t, j, A', ts, B', hsplit, hres, -, ho, hA', hto⟩
    · left
      exact ⟨hframes, hlen, ((split_outOfFrames_iff X.length h hlen).mp herr).2,
        by simp [cut, hne1, hne2, hfull, herr, bind, Except.bind]⟩
    · right
      -- the place found is inside its page, so the page holds `x` there
      obtain ⟨hrepr, ⟨hbefore, hafter, -⟩, hroom, hinside, hfit', hfill'⟩ := hto
      have hj : j < ts.length := hinside (by simp)
      obtain ⟨x', hx'⟩ : ∃ x', ts[j]? = some x' := ⟨_, List.getElem?_eq_getElem hj⟩
      obtain ⟨U, V, rfl, rfl⟩ := exists_split_of_getElem? hx'
      simp only [List.take_left, List.drop_left, List.cons_append, List.cons.injEq]
        at hbefore hafter
      obtain ⟨rfl, hafter⟩ := hafter
      have hsame : regionsOf (A' ++ (t, U ++ x' :: V) :: B') =
          regionsOf (A ++ (p, X ++ x' :: Y) :: B) := by
        calc regionsOf (A' ++ (t, U ++ x' :: V) :: B')
            = (regionsOf A' ++ U) ++ x' :: (V ++ regionsOf B') := by simp
          _ = (regionsOf A ++ X) ++ x' :: (Y ++ regionsOf B) := by rw [hbefore, hafter]
          _ = regionsOf (A ++ (p, X ++ x' :: Y) :: B) := by simp
      have hs' : Sound (A' ++ (t, U ++ x' :: V) :: B') := by
        refine ⟨hfit', ?_, hsame ▸ hs.canonical⟩
        have htail := hA'.filled_tail hs.filled_tail_before
        cases A' with
        | nil => exact (filled_cons.mp hfill').2
        | cons e A' => exact filled_append.mpr ⟨htail, hfill'⟩
      obtain ⟨hget, m₂, rs', hins, hr₂, hne, hlen', hcan', hcov⟩ :=
        cut_middle hrepr hs' hroom hr h1 h2
      refine ⟨m₂, ?_, o, n, _, ho, hr₂, hs'.replace hne hlen' hcan', ?_, fun hg => ?_⟩
      · simp [cut, hne1, hne2, hfull, hsplit, hres, hget, hins, bind, Except.bind]
      · rw [regionsOf_append, regionsOf_cons, hcov, hsame]
      · have hfillA := hA'.filled hg.filled_around.1
        have hg' : Good (A' ++ (t, U ++ x' :: V) :: B') :=
          ⟨hfit', Or.inr (filled_append.mpr ⟨hfillA, hfill'⟩), hs'.canonical⟩
        exact (hg'.replace hne hlen' hcan').2.2
  · have hroom : (X ++ x :: Y).length < regionsPerPage := by
      have hfits := hs.fits
      rw [fits_append, fits_cons] at hfits
      rw [Mem.len, hregs] at hfull
      exact lt_of_le_of_ne hfits.2.1 hfull
    right
    obtain ⟨hget, m', rs', hins, hr', hne, hlen', hcan', hcov⟩ :=
      cut_middle (o := none) (n := 0) h hs hroom hr h1 h2
    refine ⟨m', ?_, none, 0, _, fun _ => rfl, hr', hs.replace hne hlen' hcan', ?_, fun hg => ?_⟩
    · simp [cut, hne1, hne2, hfull, hget, hins, bind, Except.bind]
    · rw [regionsOf_append, regionsOf_cons, hcov]
    · exact (hg.replace hne hlen' hcan').2.2

/-- To take `r` out of the free regions a page has to be made: `r` lies strictly inside a
region of a full page, and neither of the pages around that page has room. -/
def NeedsPage (L : List (ℕ × List VirtualAllocRegion)) (r : VirtualAllocRegion) : Prop :=
  ∃ A p rs B, L = A ++ (p, rs) :: B ∧ rs.length = regionsPerPage ∧ NoRoom A B ∧
    ∃ x ∈ rs, x.1 < r.1 ∧ r.2 < x.2

/-- Cutting a region out of a region that contains it. -/
theorem cut_takes {X Y : List VirtualAllocRegion} {x : VirtualAllocRegion} {b : Bool}
    (h : Represents m (A ++ (p, X ++ x :: Y) :: B)) (hs : Sound (A ++ (p, X ++ x :: Y) :: B))
    (hr : r.1 < r.2) (h1 : x.1 ≤ r.1) (h2 : r.2 ≤ x.2)
    (hopen : x.1 < r.1 → r.2 < x.2 → b = opensBetween m p) :
    (m.frames = [] ∧ NeedsPage (A ++ (p, X ++ x :: Y) :: B) r ∧
      cut m p X.length r x = .error .outOfFrames) ∨
    ∃ m', cut m p X.length r x = .ok m' ∧
      TakenOut (A ++ (p, X ++ x :: Y) :: B) (Set.Ico r.1 r.2) b m' := by
  have hsub : Set.Ico r.1 r.2 ⊆ Set.Ico x.1 x.2 := Set.Ico_subset_Ico h1 h2
  by_cases heq1 : r.1 = x.1 <;> by_cases heq2 : r.2 = x.2
  · right
    obtain ⟨q, m', hc, ht⟩ := takenOut_removeRegion (b := b) h hs
    refine ⟨m', ?_, heq1 ▸ heq2 ▸ ht⟩
    simp [cut, heq1, heq2, hc, bind, Except.bind]
  · right
    have hlt : r.2 < x.2 := by omega
    have hcut : Set.Ico r.2 x.2 = Set.Ico x.1 x.2 \ Set.Ico r.1 r.2 := by
      ext a
      simp only [Set.mem_Ico, Set.mem_sdiff]
      omega
    have ht := takenOut_shrink (y := (r.2, x.2)) (b := b) h hs hlt
      ⟨by simp only; omega, le_rfl⟩ hsub hcut
    exact ⟨_, by simp [cut, heq1, heq2], ht⟩
  · right
    have hlt : x.1 < r.1 := by omega
    have hcut : Set.Ico x.1 r.1 = Set.Ico x.1 x.2 \ Set.Ico r.1 r.2 := by
      ext a
      simp only [Set.mem_Ico, Set.mem_sdiff]
      omega
    have ht := takenOut_shrink (y := (x.1, r.1)) (b := b) h hs hlt
      ⟨le_rfl, by simp only; omega⟩ hsub hcut
    exact ⟨_, by simp [cut, heq1, heq2], ht⟩
  · have hlt1 : x.1 < r.1 := by omega
    have hlt2 : r.2 < x.2 := by omega
    rw [hopen hlt1 hlt2]
    rcases cut_inside h hs hr hlt1 hlt2 with ⟨hframes, hlen, hroom, herr⟩ | hok
    · exact Or.inl ⟨hframes, ⟨A, p, _, B, rfl, hlen, hroom, x, by simp, hlt1, hlt2⟩, herr⟩
    · exact Or.inr hok

/-- A region stands in one page of a canonical list only. -/
theorem page_unique {A' B' : List (ℕ × List VirtualAllocRegion)}
    {e e' : ℕ × List VirtualAllocRegion} {x : VirtualAllocRegion}
    (hcan : Canonical (regionsOf (A ++ e :: B))) (heq : A ++ e :: B = A' ++ e' :: B')
    (hx : x ∈ e.2) (hx' : x ∈ e'.2) : A = A' ∧ e = e' ∧ B = B' := by
  -- a page behind the other one would hold regions behind `x` only
  have hbehind : ∀ {A₁ B₁ C : List (ℕ × List VirtualAllocRegion)}
      {e₁ e₂ : ℕ × List VirtualAllocRegion}, Canonical (regionsOf (A₁ ++ e₁ :: (C ++ e₂ :: B₁))) →
      x ∈ e₁.2 → x ∉ e₂.2 := by
    intro A₁ B₁ C e₁ e₂ hcan h₁ h₂
    rw [regionsOf_append, regionsOf_cons, canonical_append, canonical_append] at hcan
    have hlt := hcan.2.1.2.2 x h₁ x (by simp [h₂])
    have hle := hcan.2.1.1.1 x h₁
    omega
  rcases List.append_eq_append_iff.mp heq with ⟨C, rfl, hC⟩ | ⟨C, rfl, hC⟩
  · cases C with
    | nil => simpa using hC
    | cons c C =>
        obtain ⟨rfl, rfl⟩ := List.cons.inj hC
        exact absurd hx' (hbehind hcan hx)
  · cases C with
    | nil => simpa [eq_comm] using hC
    | cons c C =>
        obtain ⟨rfl, rfl⟩ := List.cons.inj hC
        exact absurd hx (hbehind (heq ▸ hcan) hx')

/-- Where a page has to be made and no frame is left, the cut fails. -/
theorem cut_outOfFrames {X Y : List VirtualAllocRegion} {x : VirtualAllocRegion}
    (h : Represents m (A ++ (p, X ++ x :: Y) :: B))
    (hcan : Canonical (regionsOf (A ++ (p, X ++ x :: Y) :: B))) (hr : r.1 < r.2)
    (h1 : x.1 ≤ r.1) (h2 : r.2 ≤ x.2) (hneeds : NeedsPage (A ++ (p, X ++ x :: Y) :: B) r)
    (hframes : m.frames = []) : cut m p X.length r x = .error .outOfFrames := by
  obtain ⟨A', q, rs, B', heq, hlen, hroom, y, hy, hlt1, hlt2⟩ := hneeds
  obtain rfl : x = y :=
    eq_of_mem_Ico hcan (by simp) (by simp [heq, hy]) ⟨h1, by omega⟩ ⟨hlt1.le, by omega⟩
  obtain ⟨rfl, hpage, rfl⟩ := page_unique hcan heq (by simp) hy
  obtain ⟨rfl, rfl⟩ := Prod.mk.inj hpage
  have hsplit := (split_outOfFrames_iff X.length h hlen).mpr ⟨hframes, hroom⟩
  have hfull : m.len p = regionsPerPage := by rw [Mem.len, h.focus.2.2, hlen]
  have hne1 : ¬ r.1 = x.1 := by omega
  have hne2 : ¬ r.2 = x.2 := by omega
  simp [cut, hne1, hne2, hfull, hsplit, bind, Except.bind]

/-- Reserving `r` would put a new page between two pages: the region that holds `r`
reaches beyond it on both sides, and its page is split so. -/
def reserveOpens (m : Mem) (r : VirtualAllocRegion) : Bool :=
  match findReserve m r (m.live + 1) m.head with
  | .ok (some (p, idx)) =>
      match (m.regions p)[idx]? with
      | some held => r.1 < r.2 && held.1 < r.1 && r.2 < held.2 && opensBetween m p
      | none => false
  | _ => false

/-- The outcomes of `reserve`: nothing changes unless all of the region is free, and then it
is taken out unless a page has to be made and no frame is left. -/
theorem reserve_outcome (h : Represents m L) (hs : Sound L) (hal : isPageAligned r = true)
    (hr : r.1 < r.2) :
    (reserve m r = .ok (false, m) ∧ ¬ Set.Ico r.1 r.2 ⊆ cover (regionsOf L)) ∨
    Set.Ico r.1 r.2 ⊆ cover (regionsOf L) ∧
      ((NeedsPage L r ∧ m.frames = [] ∧ reserve m r = .error .outOfFrames) ∨
        ¬ (NeedsPage L r ∧ m.frames = []) ∧ ∃ m', reserve m r = .ok (true, m') ∧
          TakenOut L (Set.Ico r.1 r.2) (reserveOpens m r) m') := by
  have hsize : ¬ r.2 - r.1 = 0 := by omega
  have hlen := regionSize_of_le hr.le
  have hlive : L.length < m.live + 1 := by
    rw [h.live]
    omega
  have hstart : r.1 ∈ Set.Ico r.1 r.2 := ⟨le_rfl, hr⟩
  have hfind := findReserve_spec (r := r) h hs.canonical (List.nil_append L).symm (by simp) hlive
  rw [← h.head] at hfind
  rcases hfind with ⟨hnone, hnot⟩ | ⟨A, p, X, x, Y, B, rfl, hx, hY, hsome⟩
  · refine Or.inl ⟨?_, fun hsub => hnot (hsub hstart)⟩
    simp [reserve, hal, hlen, hsize, hnone, bind, Except.bind]
  have hregs := h.focus.2.2
  have hget : getRegion (m.regions p) X.length = .ok x := by
    rw [getRegion, hregs, getElem?_length_append]
  have hcan : Canonical ((regionsOf A ++ X) ++ x :: (Y ++ regionsOf B)) := by
    simpa using hs.canonical
  have hall : regionsOf (A ++ (p, X ++ x :: Y) :: B) =
      (regionsOf A ++ X ++ [x]) ++ (Y ++ regionsOf B) := by simp
  by_cases hin : r.2 ≤ x.2
  · have hin' : r.1 < x.2 := by omega
    have hopen : x.1 < r.1 → r.2 < x.2 → reserveOpens m r = opensBetween m p := by
      intro hlt1 hlt2
      simp [reserveOpens, hsome, hregs, hr, hlt1, hlt2]
    have hres : reserve m r = (cut m p X.length r x).bind fun m' => .ok (true, m') := by
      simp [reserve, hal, hlen, hsize, hsome, hget, hin, hin', bind, Except.bind]
    refine Or.inr ⟨fun a ha => ⟨x, by simp, le_trans hx ha.1, lt_of_lt_of_le ha.2 hin⟩, ?_⟩
    rcases cut_takes h hs hr hx hin hopen with ⟨hframes, hneeds, herr⟩ | ⟨m', hc, ht⟩
    · left
      refine ⟨hneeds, hframes, ?_⟩
      rw [hres, herr]
      rfl
    · right
      refine ⟨?_, m', ?_, ht⟩
      · rintro ⟨hneeds, hframes⟩
        simp [cut_outOfFrames h hs.canonical hr hx hin hneeds hframes] at hc
      · rw [hres, hc]
        rfl
  · left
    refine ⟨?_, fun hsub => ?_⟩
    · simp [reserve, hal, hlen, hsize, hsome, hget, hin, bind, Except.bind]
    -- the first address at or behind the start of `r` that `x` does not cover is not free
    have hgap : max r.1 x.2 ∉ cover (regionsOf (A ++ (p, X ++ x :: Y) :: B)) := by
      rw [hall]
      refine not_mem_cover_of_gap (fun a ha => ?_) fun b hb => ?_
      · have hcanx : Canonical (regionsOf A ++ X ++ [x]) :=
          (canonical_append.mp (hall ▸ hs.canonical)).1
        have hle := end_le_last (z := x) hcanx (by simp) ha
        omega
      · have h1 := hY b hb
        have h2 := ((canonical_cons _ _).mp (canonical_append.mp hcan).2.1).2.1 b hb
        omega
    exact hgap (hsub ⟨by omega, by omega⟩)

/-- **What `reserve` does** to any page list. It fails, and changes nothing, unless all of the
region is free. If all of it is free, the regions read along `next` afterwards are the
canonical list of the addresses that were free and are not of the region; it panics exactly if
a page has to be made for that and no frame is left. -/
theorem reserve_takes (h : Represents m L) (hs : Sound L) (hal : isPageAligned r = true)
    (hr : r.1 < r.2) :
    (¬ Set.Ico r.1 r.2 ⊆ cover (regionsOf L) → reserve m r = .ok (false, m)) ∧
    (Set.Ico r.1 r.2 ⊆ cover (regionsOf L) → NeedsPage L r ∧ m.frames = [] →
      reserve m r = .error .outOfFrames) ∧
    (Set.Ico r.1 r.2 ⊆ cover (regionsOf L) → ¬ (NeedsPage L r ∧ m.frames = []) →
      ∃ m' l, reserve m r = .ok (true, m') ∧ Reads m' l ∧ Canonical l ∧
        cover l = cover (regionsOf L) \ Set.Ico r.1 r.2) := by
  rcases reserve_outcome h hs hal hr with
    ⟨hres, hnot⟩ | ⟨hsub, ⟨hneeds, hframes, herr⟩ | ⟨hno, m', hres, ht⟩⟩
  · exact ⟨fun _ => hres, fun hsub => absurd hsub hnot, fun hsub => absurd hsub hnot⟩
  · exact ⟨fun hnot => absurd hsub hnot, fun _ _ => herr,
      fun _ hno => absurd ⟨hneeds, hframes⟩ hno⟩
  · obtain ⟨o, n, L', -, h', hs', hcov, -⟩ := ht
    exact ⟨fun hnot => absurd hsub hnot, fun _ hneeds => absurd hneeds hno,
      fun _ _ => ⟨m', regionsOf L', hres, h'.reads, hs'.canonical, hcov⟩⟩

/-- **Reserving a region** of a well-formed list cuts it out of the free regions, or changes
nothing. -/
theorem reserve_good (h : Represents m L) (hg : Good L) (hal : isPageAligned r = true)
    (hle : r.1 ≤ r.2) (hopen : reserveOpens m r = false) :
    reserve m r = .error .outOfFrames ∨ reserve m r = .ok (false, m) ∨
    ∃ m' L', reserve m r = .ok (true, m') ∧ Represents m' L' ∧ Good L' ∧
      Set.Ico r.1 r.2 ⊆ cover (regionsOf L) ∧
      cover (regionsOf L') = cover (regionsOf L) \ Set.Ico r.1 r.2 := by
  by_cases hsize : r.2 - r.1 = 0
  · have heq : r.1 = r.2 := by omega
    have hlen := regionSize_of_le hle
    have hres : reserve m r = .ok (true, m) := by
      simp [reserve, hal, hlen, hsize, bind, Except.bind]
    refine Or.inr (Or.inr ⟨m, L, hres, h, hg, ?_, ?_⟩)
    · simp [heq]
    · simp [heq]
  rcases reserve_outcome h hg.sound hal (by omega) with
    ⟨hres, -⟩ | ⟨hsub, ⟨-, -, herr⟩ | ⟨-, m', hres, ht⟩⟩
  · exact Or.inr (Or.inl hres)
  · exact Or.inl herr
  · rw [hopen] at ht
    obtain ⟨L', h', -, hcov, hg'⟩ := ht.represents
    exact Or.inr (Or.inr ⟨m', L', hres, h', hg' hg, hsub, hcov⟩)

end Taking

/-! ### One page, and no frame left -/

/-- A memory with one page of regions and no frame left. -/
def onePage (rs : List VirtualAllocRegion) : Mem := ⟨some 4096, fun _ => ⟨none, none, rs⟩, [], 1⟩

/-- The pages of the example. -/
theorem onePage_represents (rs : List VirtualAllocRegion) :
    Represents (onePage rs) [(4096, rs)] :=
  ⟨rfl, ⟨rfl, rfl, trivial⟩, by simp [onePage, Mem.regions], List.nodup_nil, by simp [onePage], rfl⟩

/-- The page of the example is sound. -/
theorem onePage_sound {rs : List VirtualAllocRegion} (hlen : rs.length ≤ regionsPerPage)
    (hcan : Canonical rs) : Sound [(4096, rs)] :=
  ⟨by simpa [Fits] using hlen, by simp [Filled], by simpa using hcan⟩

/-- The start of the only free region is taken. -/
theorem alloc_takes_iff_onePage :
    Allocates (onePage [(4096, 12288)]) [(4096, [(4096, 12288)])] 4096 := by
  have hs : Sound [(4096, [(4096, 12288)])] := onePage_sound (by decide) (by simp)
  refine (alloc_takes_iff (onePage_represents _) hs (by decide : 4096 % pageSize = 0)
    (by decide)).mpr fun x hx _ => ?_
  obtain rfl : x = (4096, 12288) := List.mem_singleton.mp (of_picked hx).1
  decide

/-- The region that spans the addresses that are not canonical. -/
def spanningRegion : VirtualAllocRegion := (0x1000, 0xffff800000001000)

/-- **Allocating can return too much**: a region that spans the addresses that are not canonical is
cut at the sign extension of an address among them. All of it is returned, and an empty region is
left. -/
theorem alloc_overshoots :
    Represents (onePage [spanningRegion]) [(4096, [spanningRegion])] ∧
      Sound [(4096, [spanningRegion])] ∧
      isCanonical spanningRegion.1 = true ∧ isCanonical spanningRegion.2 = true ∧
      ¬ Allocates (onePage [spanningRegion]) [(4096, [spanningRegion])] (2 ^ 47) ∧
      ∃ m', alloc (onePage [spanningRegion]) (2 ^ 47) = .ok (some spanningRegion, m') ∧
        m'.regions 4096 = [(spanningRegion.2, spanningRegion.2)] := by
  have hfind : findRoom ((onePage [spanningRegion]).regions 4096) (2 ^ 47)
      ((onePage [spanningRegion]).len 4096) = .ok (some (0, spanningRegion)) := rfl
  have hstart : newVirtAddr (0x1000 + 2 ^ 47) = .ok 0xffff800000001000 := rfl
  have hres : alloc (onePage [spanningRegion]) (2 ^ 47) = .ok (some spanningRegion,
      (onePage [spanningRegion]).setRegions 4096 [(spanningRegion.2, spanningRegion.2)]) := by
    have hloop : alloc (onePage [spanningRegion]) (2 ^ 47) =
        allocLoop (onePage [spanningRegion]) (2 ^ 47) 2 (some 4096) := rfl
    rw [hloop, allocLoop_found hfind, if_neg (by decide)]
    exact congrArg (Except.bind · _) hstart
  refine ⟨onePage_represents _, onePage_sound (by decide) (by simp [spanningRegion]), by decide,
    by decide, ?_, _, hres, by simp⟩
  rintro (⟨hnone, -⟩ | ⟨_, -, a, -, -, _, _, hsome, -⟩)
  · cases hres.symm.trans hnone
  · obtain ⟨hregion, -⟩ := Prod.mk.inj (Except.ok.inj (hres.symm.trans hsome))
    have hstart : 0x1000 = a := congrArg Prod.fst (Option.some.inj hregion)
    have hstop : 0xffff800000001000 = a + 2 ^ 47 :=
      congrArg Prod.snd (Option.some.inj hregion)
    omega

/-- The middle of a free region is taken, the page after it is not free. -/
theorem reserve_takes_onePage :
    (∃ m' l, reserve (onePage [(4096, 16384)]) (8192, 12288) = .ok (true, m') ∧ Reads m' l ∧
      Canonical l ∧ cover l = Set.Ico 4096 16384 \ Set.Ico 8192 12288) ∧
    reserve (onePage [(4096, 16384)]) (12288, 20480) = .ok (false, onePage [(4096, 16384)]) := by
  have hs : Sound [(4096, [(4096, 16384)])] := onePage_sound (by decide) (by simp)
  have hcover : cover (regionsOf [(4096, [(4096, 16384)])]) = Set.Ico 4096 16384 := by simp
  have hroom : ¬ NeedsPage [(4096, [(4096, 16384)])] (8192, 12288) := by
    rintro ⟨A, p, rs, B, heq, hlen, -⟩
    have hmem : (p, rs) ∈ [(4096, [(4096, 16384)])] := heq ▸ by simp
    obtain ⟨-, rfl⟩ : p = 4096 ∧ rs = [(4096, 16384)] := by simpa using hmem
    exact absurd hlen (by decide)
  have hin := (reserve_takes (r := (8192, 12288)) (onePage_represents _) hs (by decide)
    (by decide)).2.2
  have hout := (reserve_takes (r := (12288, 20480)) (onePage_represents _) hs (by decide)
    (by decide)).1
  rw [hcover] at hin hout
  refine ⟨hin (Set.Ico_subset_Ico (by decide) (by decide)) fun h => hroom h.1,
    hout fun hsub => ?_⟩
  have hmem : 16384 ∈ Set.Ico 4096 16384 := hsub ⟨by decide, by decide⟩
  exact absurd hmem.2 (lt_irrefl _)

/-- The regions of a full page, each of three pages. -/
def fullRegions : List VirtualAllocRegion :=
  (List.range regionsPerPage).map fun k => (16384 * k + 4096, 16384 * k + 16384)

/-- The regions of the example are canonical. -/
theorem fullRegions_canonical : Canonical fullRegions := by
  constructor
  · intro r hr
    obtain ⟨k, -, rfl⟩ := List.mem_map.mp hr
    simp
  · rw [fullRegions, List.pairwise_map]
    refine List.pairwise_lt_range.imp fun {a b} hab => ?_
    simp only
    omega

/-- **Reserving can panic**: a region of a full page is cut in two, and no frame is left. -/
theorem reserve_panics :
    Represents (onePage fullRegions) [(4096, fullRegions)] ∧ Sound [(4096, fullRegions)] ∧
      Set.Ico 8192 12288 ⊆ cover (regionsOf [(4096, fullRegions)]) ∧
      reserve (onePage fullRegions) (8192, 12288) = .error .outOfFrames := by
  refine ⟨onePage_represents _, onePage_sound ?_ fullRegions_canonical, fun a ha => ?_, ?_⟩
  · simp [fullRegions]
  · refine ⟨(4096, 16384), ?_, le_trans (by decide) ha.1, lt_trans ha.2 (by decide)⟩
    rw [regionsOf_cons, regionsOf_nil, List.append_nil]
    exact List.mem_map.mpr ⟨0, by simp [regionsPerPage_eq], rfl⟩
  · have hres : (match reserve (onePage fullRegions) (8192, 12288) with
        | .error e => decide (e = .outOfFrames)
        | .ok _ => false) = true := by decide +kernel
    cases herr : reserve (onePage fullRegions) (8192, 12288) with
    | error e =>
        simp only [herr, decide_eq_true_eq] at hres
        rw [hres]
    | ok s => simp [herr] at hres

end HydroxKernel.Virt
