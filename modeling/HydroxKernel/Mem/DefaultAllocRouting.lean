import HydroxKernel.Lib.Runs
import HydroxKernel.Mem.DefaultAlloc

/-!
# Blocks Go Back to the Allocator They Came From

The invariant says which held block is behind a live block: its owner is what
`get_existing_alloc_type` computes, and its size is what that owner hands out for the layout.
The early area decides between the early pool and the others, before and after the switch. A
block that is reallocated in place keeps its owner, because the type of its new layout is
compared with it first.

## Main results

* `alloc_spec`, `dealloc_spec` and `realloc_spec`: what the calls do to the held blocks.
* `routed_of_runs`: in every run, each call takes back and hands out the blocks of the allocator
  that they came from, and no other allocator is given them.
-/

namespace HydroxKernel.DefaultAlloc

open HydroxKernel.PageAlloc (Layout pageSize)

variable {area : ℕ}

/-! ### Sizes and alignments -/

/-- A size fits into its class. -/
theorem le_objectSize {n : ℕ} {c : SlabClass} (h : allocTypeOfSize n = .slab c) :
    n ≤ c.objectSize := by
  rw [allocTypeOfSize] at h
  repeat' split at h
  all_goals first | contradiction | (cases h; assumption)

/-- No size belongs to the early pool. -/
theorem allocTypeOfSize_ne_early (n : ℕ) : allocTypeOfSize n ≠ .early := by
  rw [allocTypeOfSize]
  repeat' split
  all_goals exact fun h => (nomatch h)

/-- A size class is a power of two, less than a page. -/
theorem objectSize_eq_pow (c : SlabClass) : ∃ k, c.objectSize = 2 ^ k := by
  cases c
  · exact ⟨3, rfl⟩
  · exact ⟨4, rfl⟩
  · exact ⟨5, rfl⟩
  · exact ⟨6, rfl⟩
  · exact ⟨7, rfl⟩
  · exact ⟨8, rfl⟩
  · exact ⟨9, rfl⟩
  · exact ⟨10, rfl⟩
  · exact ⟨11, rfl⟩

/-- A size class is not empty. -/
theorem objectSize_ne_zero (c : SlabClass) : c.objectSize ≠ 0 := by
  cases c <;> decide

/-- A smaller power of two divides a larger one. -/
theorem pow_dvd_of_le {k n : ℕ} (hn : ∃ m, n = 2 ^ m) (hle : 2 ^ k ≤ n) : 2 ^ k ∣ n := by
  obtain ⟨m, rfl⟩ := hn
  exact Nat.pow_dvd_pow 2 ((Nat.pow_le_pow_iff_right (by decide)).mp hle)

/-- The alignment of a layout that fits into a class divides the size of its objects. -/
theorem align_dvd_objectSize {layout : Layout} (hl : LayoutOk layout.size layout.align)
    {c : SlabClass} (hle : max layout.size layout.align ≤ c.objectSize) :
    layout.align ∣ c.objectSize := by
  obtain ⟨⟨k, -, hk⟩, -⟩ := hl
  rw [hk] at hle ⊢
  exact pow_dvd_of_le (objectSize_eq_pow c) (Nat.le_trans (Nat.le_max_right _ _) hle)

/-- A number is its own next multiple of its divisors. -/
theorem nextMultipleOf_of_dvd {n m : ℕ} (h : m ∣ n) : nextMultipleOf n m = n :=
  if_pos (Nat.mod_eq_zero_of_dvd h)

/-- The pages for a layout hold it. -/
theorem size_le_pageBytes (layout : Layout) : layout.size ≤ pageBytes layout := by
  rw [pageBytes, Layout.numPages, pageSize]
  omega

/-- The size of the block that an allocator hands out for a layout. -/
def backingSize (layout : Layout) : AllocType → ℕ
  | .early => layout.size
  | .slab c => c.objectSize
  | .page => pageBytes layout

/-- An allocator hands out blocks that are not empty. -/
theorem backingSize_ne_zero {layout : Layout} (h : layout.size ≠ 0) (t : AllocType) :
    backingSize layout t ≠ 0 := by
  cases t with
  | early => exact h
  | slab c => exact objectSize_ne_zero c
  | page =>
      have hle := size_le_pageBytes layout
      dsimp only [backingSize]
      omega

/-! ### Routing -/

/-- A type that a layout gets is the early pool, or the type of its size. -/
theorem getNewAllocType_eq {s : State} {layout : Layout} {t : AllocType}
    (h : getNewAllocType s layout = t) :
    t = .early ∨ t = allocTypeOfSize (max layout.size layout.align) := by
  rw [getNewAllocType] at h
  split at h
  · exact .inl h.symm
  · exact .inr h.symm

/-- The type of a block that lies in the early area exactly if its owner is the early pool. -/
theorem getExistingAllocType_of_region {s : State} {layout : Layout} {t : AllocType} {ptr : ℕ}
    (hregion : IsInEarlyAllocRegion area ptr ↔ t = .early) (ht : getNewAllocType s layout = t) :
    getExistingAllocType area s ptr layout = t := by
  rw [getExistingAllocType]
  split
  · rename_i hin
    exact (hregion.mp hin).symm
  · exact ht

/-- A block of a slab or page allocator has the type of its layout. -/
theorem getNewAllocType_of_existing {s : State} {layout : Layout} {ptr : ℕ} {t : AllocType}
    (h : getExistingAllocType area s ptr layout = t) (ht : t ≠ .early) :
    getNewAllocType s layout = t := by
  rw [getExistingAllocType] at h
  split at h
  · exact absurd h.symm ht
  · exact h

/-- The block behind a live block. -/
def backing (area : ℕ) (s : State) (b : Block) : Held :=
  ⟨getExistingAllocType area s b.ptr b.layout, b.ptr,
    backingSize b.layout (getExistingAllocType area s b.ptr b.layout)⟩

/-- What holds of the held blocks in every reached state. -/
structure State.Sound (area : ℕ) (s : State) : Prop where
  region : ∀ x ∈ s.held, (IsInEarlyAllocRegion area x.ptr ↔ x.owner = .early)
  early : s.useEarlyAlloc = true → ∀ x ∈ s.held, x.owner = .early
  size : ∀ x ∈ s.held, x.size ≠ 0
  ne_null : ∀ x ∈ s.held, x.ptr ≠ 0

/-- An allocator that is given a block that it holds goes on. -/
theorem check_eq_ok {s : State} {t : AllocType} {ptr size : ℕ} (h : ⟨t, ptr, size⟩ ∈ s.held) :
    s.check t ptr size = .ok () :=
  ensure_pos h

/-- An allocator takes back a block that it holds. -/
theorem take_eq_ok {s : State} {t : AllocType} {ptr size : ℕ} (h : ⟨t, ptr, size⟩ ∈ s.held) :
    s.take t ptr size = .ok { s with held := s.held.erase ⟨t, ptr, size⟩ } := by
  rw [State.take, check_eq_ok h]
  rfl

/-- What a new block is: aligned, not null, in the early area exactly if it is of the early
pool, and at an address where no block is held. -/
structure Placed (area : ℕ) (s : State) (t : AllocType) (align ptr : ℕ) : Prop where
  aligned : align ∣ ptr
  ne_null : ptr ≠ 0
  region : IsInEarlyAllocRegion area ptr ↔ t = .early
  fresh : ∀ x ∈ s.held, x.ptr ≠ ptr

/-- What an allocator places. -/
theorem placed_of_place (pol : Policy area) {s : State} (hs : s.Sound area) {t : AllocType}
    {size align align' ptr : ℕ} (h : pol.place t size align s.held = some ptr)
    (halign : align' ∣ align) (hsize : size ≠ 0) : Placed area s t align' ptr := by
  obtain ⟨hnull, haligned, hapart, hregion⟩ := pol.contract h
  refine ⟨Nat.dvd_trans halign haligned, hnull, hregion, fun x hx heq => ?_⟩
  have hx0 := hs.size x hx
  rcases hapart x hx with hle | hle
  · omega
  · omega

/-- What the page allocator allocates. -/
theorem pageAllocate_spec (pol : Policy area) {s : State} (hs : s.Sound area) (layout : Layout)
    (hl : LayoutOk layout.size layout.align) (hsize : layout.size ≠ 0) :
    (∃ s', pageAllocate pol s layout = (none, s')) ∨
      ∃ ptr, Placed area s .page layout.align ptr ∧
        pageAllocate pol s layout = (some ptr, s.give .page ptr (pageBytes layout)) := by
  rw [pageAllocate]
  split
  · exact .inl ⟨s, rfl⟩
  · rename_i halign
    have hdvd : layout.align ∣ pageSize := by
      obtain ⟨⟨k, -, hk⟩, -⟩ := hl
      rw [hk] at halign ⊢
      exact pow_dvd_of_le ⟨12, rfl⟩ (Nat.not_lt.mp halign)
    cases hplace : pol.place .page (pageBytes layout) pageSize s.held with
    | none => exact .inl ⟨s, rfl⟩
    | some ptr =>
        have hp := placed_of_place pol hs hplace hdvd (backingSize_ne_zero hsize .page)
        exact .inr ⟨ptr, hp, rfl⟩

/-- What a slab allocator of the class of a layout allocates. -/
theorem slabAllocate_spec (pol : Policy area) {s : State} (hs : s.Sound area) {layout : Layout}
    (hl : LayoutOk layout.size layout.align) {c : SlabClass}
    (hle : max layout.size layout.align ≤ c.objectSize) :
    (∃ s', slabAllocate pol s c layout = (none, s')) ∨
      ∃ ptr, Placed area s (.slab c) layout.align ptr ∧
        slabAllocate pol s c layout = (some ptr, s.give (.slab c) ptr c.objectSize) := by
  have hdvd := align_dvd_objectSize hl hle
  have hfits : ¬ (c.objectSize < layout.size ∨
      nextMultipleOf c.objectSize layout.align ≠ c.objectSize) := by
    rw [nextMultipleOf_of_dvd hdvd, not_or, Nat.not_lt]
    exact ⟨Nat.le_trans (Nat.le_max_left _ _) hle, fun h => h rfl⟩
  rw [slabAllocate]
  rw [if_neg hfits]
  cases hplace : pol.place (.slab c) c.objectSize c.objectSize s.held with
  | none => exact .inl ⟨s, rfl⟩
  | some ptr =>
      have hp := placed_of_place pol hs hplace hdvd (objectSize_ne_zero c)
      exact .inr ⟨ptr, hp, rfl⟩

/-- What the early pool allocates. -/
theorem earlyAlloc_spec (pol : Policy area) {s : State} (hs : s.Sound area) {layout : Layout}
    (hl : LayoutOk layout.size layout.align) (hsize : layout.size ≠ 0) :
    earlyAlloc pol s layout.size layout.align = .error .outOfEarlyMemory ∨
      ∃ ptr, Placed area s .early layout.align ptr ∧
        earlyAlloc pol s layout.size layout.align = .ok (ptr, s.give .early ptr layout.size) := by
  have hdvd : layout.align ∣ max layout.align 4 := by
    obtain ⟨⟨k, -, hk⟩, -⟩ := hl
    rcases Nat.le_total layout.align 4 with hle | hle
    · rw [Nat.max_eq_right hle]
      rw [hk] at hle ⊢
      exact pow_dvd_of_le ⟨2, rfl⟩ hle
    · rw [Nat.max_eq_left hle]
  rw [earlyAlloc]
  cases hplace : pol.place .early layout.size (max layout.align 4) s.held with
  | none => exact .inl rfl
  | some ptr => exact .inr ⟨ptr, placed_of_place pol hs hplace hdvd hsize, rfl⟩

/-- The largest size and alignment of a layout of a size class. -/
theorem max_le_objectSize {s : State} {layout : Layout} {c : SlabClass}
    (h : getNewAllocType s layout = .slab c) : max layout.size layout.align ≤ c.objectSize := by
  rcases getNewAllocType_eq h with h | h
  · exact absurd h (fun h => (nomatch h))
  · exact le_objectSize h.symm

/-- **`alloc`** hands out a new block of the type of the layout, or panics. -/
theorem alloc_spec (pol : Policy area) {s : State} (hs : s.Sound area) (layout : Layout)
    (hl : LayoutOk layout.size layout.align) (hsize : layout.size ≠ 0) :
    (∃ e, alloc pol s layout = .error e ∧ e ≠ .foreign) ∨
      ∃ t ptr, getNewAllocType s layout = t ∧ Placed area s t layout.align ptr ∧
        alloc pol s layout = .ok (ptr, s.give t ptr (backingSize layout t)) := by
  rw [alloc]
  cases ht : getNewAllocType s layout with
  | early =>
      dsimp only
      rcases earlyAlloc_spec pol hs hl hsize with herr | ⟨ptr, hp, heq⟩
      · exact .inl ⟨_, by rw [herr]; rfl, by decide⟩
      · refine .inr ⟨_, ptr, rfl, hp, ?_⟩
        rw [heq, ok_bind]
        dsimp only
        rw [unwrapNonNull, ensure_pos hp.ne_null]
        rfl
  | slab c =>
      dsimp only
      rcases slabAllocate_spec pol hs hl (max_le_objectSize ht) with ⟨s', herr⟩ | ⟨ptr, hp, heq⟩
      · exact .inl ⟨.allocError, by rw [herr]; rfl, by decide⟩
      · exact .inr ⟨_, ptr, rfl, hp, by rw [heq]; rfl⟩
  | page =>
      dsimp only
      rcases pageAllocate_spec pol hs _ hl hsize with ⟨s', herr⟩ | ⟨ptr, hp, heq⟩
      · exact .inl ⟨.allocError, by rw [herr]; rfl, by decide⟩
      · exact .inr ⟨_, ptr, rfl, hp, by rw [heq]; rfl⟩

/-- **`dealloc`** gives a block back to the allocator that holds it. -/
theorem dealloc_spec {s : State} {b : Block} (hb : backing area s b ∈ s.held)
    (hnull : b.ptr ≠ 0) :
    dealloc area s b.ptr b.layout = .ok { s with held := s.held.erase (backing area s b) } := by
  rw [dealloc, unwrapNonNull, ensure_pos hnull, ok_bind]
  rw [backing] at hb ⊢
  cases ht : getExistingAllocType area s b.ptr b.layout with
  | early =>
      rw [ht] at hb
      exact take_eq_ok hb
  | slab c =>
      rw [ht] at hb
      exact take_eq_ok hb
  | page =>
      rw [ht] at hb
      exact take_eq_ok hb

/-! ### Reallocation -/

/-- One held block is replaced by another. -/
structure Replaced (s s' : State) (x x' : Held) : Prop where
  useEarlyAlloc : s'.useEarlyAlloc = s.useEarlyAlloc
  held : s'.held.Perm (x' :: s.held.erase x)

/-- A block is replaced by itself. -/
theorem Replaced.refl {s : State} {x : Held} (hx : x ∈ s.held) : Replaced s s x x :=
  ⟨rfl, List.perm_cons_erase hx⟩

/-- A block is taken back and handed out again. -/
theorem replaced_of_take_give (s : State) (x : Held) (t : AllocType) (ptr size : ℕ) :
    Replaced s (State.give { s with held := s.held.erase x } t ptr size) x ⟨t, ptr, size⟩ :=
  ⟨rfl, .refl _⟩

/-- A new block is handed out, and then the old one is taken back. -/
theorem replaced_of_give_take {s : State} {x : Held} {t : AllocType} {ptr size : ℕ}
    (hx : x ∈ s.held) (hfresh : ∀ y ∈ s.held, y.ptr ≠ ptr) :
    Replaced s { s.give t ptr size with held := (s.give t ptr size).held.erase x } x
      ⟨t, ptr, size⟩ := by
  have hne : (⟨t, ptr, size⟩ : Held) ≠ x := by
    rintro rfl
    exact hfresh _ hx rfl
  refine ⟨rfl, ?_⟩
  change ((⟨t, ptr, size⟩ :: s.held).erase x).Perm _
  rw [List.erase_cons_tail (by simpa using hne)]

/-- What `realloc` returns: a block of its new layout, in place and of the same allocator, or at a
new address. -/
structure Reallocated (area : ℕ) (s s' : State) (b b' : Block) (t : AllocType) : Prop where
  replaced : Replaced s s' (backing area s b) ⟨t, b'.ptr, backingSize b'.layout t⟩
  existing : getExistingAllocType area s b'.ptr b'.layout = t
  aligned : b'.layout.align ∣ b'.ptr
  ne_null : b'.ptr ≠ 0
  region : IsInEarlyAllocRegion area b'.ptr ↔ t = .early
  fresh : (b'.ptr = b.ptr ∧ (backing area s b).owner = t) ∨ ∀ x ∈ s.held, x.ptr ≠ b'.ptr

/-- A block that is placed anew, while the old one is given back. -/
theorem reallocated_of_placed {s : State} {b : Block} (hb : backing area s b ∈ s.held)
    {layout : Layout} {t : AllocType} {ptr : ℕ} (ht : getNewAllocType s layout = t)
    (hp : Placed area s t layout.align ptr) :
    Reallocated area s { s.give t ptr (backingSize layout t) with
      held := (s.give t ptr (backingSize layout t)).held.erase (backing area s b) } b
      ⟨ptr, layout⟩ t :=
  ⟨replaced_of_give_take hb hp.fresh, getExistingAllocType_of_region hp.region ht, hp.aligned,
    hp.ne_null, hp.region, .inr hp.fresh⟩

/-- A block that stays at its address, with its allocator. -/
theorem reallocated_in_place {s s' : State} (hs : s.Sound area) {b : Block}
    (hb : backing area s b ∈ s.held) (haligned : b.layout.align ∣ b.ptr) {newSize : ℕ}
    {t : AllocType} (hold : getExistingAllocType area s b.ptr b.layout = t)
    (hnew : getNewAllocType s ⟨newSize, b.layout.align⟩ = t)
    (hr : Replaced s s' ⟨t, b.ptr, backingSize b.layout t⟩
      ⟨t, b.ptr, backingSize ⟨newSize, b.layout.align⟩ t⟩) :
    Reallocated area s s' b ⟨b.ptr, ⟨newSize, b.layout.align⟩⟩ t := by
  have hregion := hs.region _ hb
  rw [backing, hold] at hregion
  refine ⟨?_, getExistingAllocType_of_region hregion hnew, haligned, hs.ne_null _ hb, hregion,
    .inl ⟨rfl, hold⟩⟩
  rw [backing, hold]
  exact hr

/-- A slab allocator lets a block of its own grow to any layout of its class. -/
theorem slabGrow_eq_ok {s : State} {c : SlabClass} {ptr : ℕ} {layout : Layout}
    (hheld : ⟨.slab c, ptr, c.objectSize⟩ ∈ s.held) (hl : LayoutOk layout.size layout.align)
    (hle : max layout.size layout.align ≤ c.objectSize) :
    slabGrow s c ptr layout = .ok (some ptr, s) := by
  rw [slabGrow, check_eq_ok hheld, ok_bind, if_neg]
  · rfl
  · rw [nextMultipleOf_of_dvd (align_dvd_objectSize hl hle), not_or, Nat.not_lt]
    exact ⟨Nat.le_trans (Nat.le_max_left _ _) hle, fun h => h rfl⟩

/-- A slab allocator lets a block of its own shrink to any layout of its class. -/
theorem slabShrink_eq_ok {s : State} {c : SlabClass} {ptr : ℕ} {layout : Layout}
    (hheld : ⟨.slab c, ptr, c.objectSize⟩ ∈ s.held) (hl : LayoutOk layout.size layout.align)
    (hle : max layout.size layout.align ≤ c.objectSize) :
    slabShrink s c ptr layout = .ok (some ptr, s) := by
  rw [slabShrink, check_eq_ok hheld, ok_bind,
    if_neg (fun h => h (nextMultipleOf_of_dvd (align_dvd_objectSize hl hle)))]
  rfl

section Realloc

variable (pol : Policy area) {s : State} (hs : s.Sound area) {b : Block}
  (hb : backing area s b ∈ s.held) (haligned : b.layout.align ∣ b.ptr) {newSize : ℕ}
  (hsize : newSize ≠ 0) (hl : LayoutOk newSize b.layout.align)

include hs hb haligned in
/-- A block of the early pool. -/
theorem reallocWith_early (hold : getExistingAllocType area s b.ptr b.layout = .early)
    (hnew : getNewAllocType s ⟨newSize, b.layout.align⟩ = .early) :
    (∃ e, reallocWith pol s .early b.ptr b.layout newSize = .error e ∧ e ≠ .foreign) ∨
      ∃ ptr s', reallocWith pol s .early b.ptr b.layout newSize = .ok (ptr, s') ∧
        Reallocated area s s' b ⟨ptr, ⟨newSize, b.layout.align⟩⟩ .early := by
  have hheld : ⟨.early, b.ptr, b.layout.size⟩ ∈ s.held := by
    rwa [backing, hold] at hb
  have hnull : b.ptr ≠ 0 := hs.ne_null _ hb
  rw [reallocWith, earlyRealloc]
  dsimp only
  rw [check_eq_ok hheld, ok_bind]
  split
  · exact .inl ⟨.unwrapNull, rfl, by decide⟩
  · rw [take_eq_ok hheld, ok_bind]
    refine .inr ⟨_, _, ?_, reallocated_in_place hs hb haligned hold hnew
      (replaced_of_take_give s _ _ _ _)⟩
    change (unwrapNonNull b.ptr >>= fun _ => _) = _
    rw [unwrapNonNull, ensure_pos hnull]
    rfl

include hs hb haligned hl in
/-- A block of a slab allocator stays in its object. -/
theorem reallocWith_slab {c : SlabClass}
    (hold : getExistingAllocType area s b.ptr b.layout = .slab c)
    (hnew : getNewAllocType s ⟨newSize, b.layout.align⟩ = .slab c) :
    ∃ ptr s', reallocWith pol s (.slab c) b.ptr b.layout newSize = .ok (ptr, s') ∧
      Reallocated area s s' b ⟨ptr, ⟨newSize, b.layout.align⟩⟩ (.slab c) := by
  have hheld : ⟨.slab c, b.ptr, c.objectSize⟩ ∈ s.held := by
    rwa [backing, hold] at hb
  have hle := max_le_objectSize hnew
  refine ⟨b.ptr, s, ?_, reallocated_in_place hs hb haligned hold hnew (Replaced.refl hheld)⟩
  rw [reallocWith]
  dsimp only
  rw [slabGrow_eq_ok hheld hl hle, slabShrink_eq_ok hheld hl hle, ite_self]
  rfl

include hs hb haligned hsize hl in
/-- A block of the page allocator stays, or moves to other pages. -/
theorem reallocWith_page (hold : getExistingAllocType area s b.ptr b.layout = .page)
    (hnew : getNewAllocType s ⟨newSize, b.layout.align⟩ = .page) :
    (∃ e, reallocWith pol s .page b.ptr b.layout newSize = .error e ∧ e ≠ .foreign) ∨
      ∃ ptr s', reallocWith pol s .page b.ptr b.layout newSize = .ok (ptr, s') ∧
        Reallocated area s s' b ⟨ptr, ⟨newSize, b.layout.align⟩⟩ .page := by
  have hheld : ⟨.page, b.ptr, pageBytes b.layout⟩ ∈ s.held := by
    rwa [backing, hold] at hb
  rw [reallocWith]
  dsimp only
  split
  · rw [pageGrow]
    rw [check_eq_ok hheld, ok_bind]
    split
    · exact .inl ⟨.allocError, rfl, by decide⟩
    split
    · rename_i heq
      have hbytes : pageBytes ⟨newSize, b.layout.align⟩ = pageBytes b.layout :=
        congrArg (· * pageSize) heq
      refine .inr ⟨b.ptr, s, rfl, reallocated_in_place hs hb haligned hold hnew ?_⟩
      rw [backingSize, backingSize, hbytes]
      exact Replaced.refl hheld
    · rcases pageAllocate_spec pol hs ⟨newSize, b.layout.align⟩ hl hsize with
        ⟨s', herr⟩ | ⟨ptr, hp, heq⟩
      · exact .inl ⟨.allocError, by rw [herr]; rfl, by decide⟩
      · refine .inr ⟨ptr, _, ?_, reallocated_of_placed hb hnew hp⟩
        rw [heq]
        dsimp only
        rw [pageDeallocate, take_eq_ok (List.mem_cons_of_mem _ hheld), backing, hold]
        rfl
  · rw [pageShrink]
    rw [check_eq_ok hheld, ok_bind]
    split
    · exact .inl ⟨.allocError, rfl, by decide⟩
    · rw [take_eq_ok hheld, ok_bind]
      exact .inr ⟨_, _, rfl, reallocated_in_place hs hb haligned hold hnew
        (replaced_of_take_give s _ _ _ _)⟩

include hs hb haligned hsize in
/-- **`realloc`** replaces a block by one of the new layout, or panics. -/
theorem realloc_spec :
    (∃ e, realloc pol s b.ptr b.layout newSize = .error e ∧ e ≠ .foreign) ∨
      ∃ t ptr s', realloc pol s b.ptr b.layout newSize = .ok (ptr, s') ∧
        Reallocated area s s' b ⟨ptr, ⟨newSize, b.layout.align⟩⟩ t := by
  have hnull : b.ptr ≠ 0 := hs.ne_null _ hb
  rw [realloc]
  dsimp only
  by_cases hl : LayoutOk newSize b.layout.align
  · rw [ensure_pos hl, ok_bind]
    split
    · rename_i hnew
      rw [unwrapNonNull, ensure_pos hnull, ok_bind]
      cases hold : getExistingAllocType area s b.ptr b.layout with
      | early =>
          exact (reallocWith_early pol hs hb haligned hold (hnew.trans hold)).imp_right
            fun ⟨ptr, s', h⟩ => ⟨.early, ptr, s', h⟩
      | slab c =>
          obtain ⟨ptr, s', h⟩ := reallocWith_slab pol hs hb haligned hl hold (hnew.trans hold)
          exact .inr ⟨.slab c, ptr, s', h⟩
      | page =>
          exact (reallocWith_page pol hs hb haligned hsize hl hold (hnew.trans hold)).imp_right
            fun ⟨ptr, s', h⟩ => ⟨.page, ptr, s', h⟩
    · rcases alloc_spec pol hs ⟨newSize, b.layout.align⟩ hl hsize with
        ⟨e, herr, hne⟩ | ⟨t, ptr, hnew, hp, heq⟩
      · exact .inl ⟨e, by rw [herr]; rfl, hne⟩
      · refine .inr ⟨t, ptr, _, ?_, reallocated_of_placed hb hnew hp⟩
        rw [heq, ok_bind]
        dsimp only
        rw [dealloc_spec (List.mem_cons_of_mem _ hb) hnull]
        rfl
  · rw [ensure_neg hl]
    exact .inl ⟨.badLayout, rfl, by decide⟩

end Realloc

/-! ### Runs -/

/-- What holds in every reached state: the allocators hold the blocks behind the live blocks, and
no others. -/
structure System.Inv (area : ℕ) (sys : System) : Prop where
  sound : sys.mem.Sound area
  held : sys.mem.held.Perm (sys.live.map (backing area sys.mem))
  size : ∀ b ∈ sys.live, b.layout.size ≠ 0
  aligned : ∀ b ∈ sys.live, b.layout.align ∣ b.ptr
  ptrs : (sys.live.map Block.ptr).Nodup

/-- The block behind a live block is held. -/
theorem System.Inv.mem_held {sys : System} (hinv : sys.Inv area) {b : Block} (hb : b ∈ sys.live) :
    backing area sys.mem b ∈ sys.mem.held :=
  hinv.held.mem_iff.mpr (List.mem_map_of_mem hb)

/-- Without a live block, the others are behind the blocks that are held without its own. -/
theorem System.Inv.held_erase {sys : System} (hinv : sys.Inv area) {b : Block}
    (hb : b ∈ sys.live) : (sys.mem.held.erase (backing area sys.mem b)).Perm
      ((sys.live.erase b).map (backing area sys.mem)) := by
  have hperm := (hinv.held.trans ((List.perm_cons_erase hb).map _)).erase (backing area sys.mem b)
  rwa [List.map_cons, List.erase_cons_head] at hperm

/-- Two live blocks at one address are the same. -/
theorem System.Inv.eq_of_ptr {sys : System} (hinv : sys.Inv area) {b b' : Block}
    (hb : b ∈ sys.live) (hb' : b' ∈ sys.live) (h : b.ptr = b'.ptr) : b = b' :=
  List.inj_on_of_nodup_map hinv.ptrs hb hb' h

/-- A call that respects its contract returns, for some behaviour of the backing allocators. -/
def Step (area : ℕ) (sys : System) (op : Op) (sys' : System) : Prop :=
  op.Valid sys ∧ ∃ pol : Policy area, exec pol sys op = .ok sys'

/-- The type of a block depends only on the mode. -/
theorem backing_eq {s s' : State} (h : s'.useEarlyAlloc = s.useEarlyAlloc) :
    backing area s' = backing area s := by
  funext b
  unfold backing getExistingAllocType getNewAllocType
  rw [h]

/-- A block that is put beside the others that stay. -/
theorem System.Inv.put {sys : System} (hinv : sys.Inv area) {mem : State} {b : Block}
    {t : AllocType} {held : List Held} {live : List Block} (hlive : ∀ b' ∈ live, b' ∈ sys.live)
    (hheld : held.Perm (live.map (backing area sys.mem))) (hnodup : (live.map Block.ptr).Nodup)
    (huse : mem.useEarlyAlloc = sys.mem.useEarlyAlloc)
    (hmem : mem.held.Perm (⟨t, b.ptr, backingSize b.layout t⟩ :: held))
    (ht : getExistingAllocType area sys.mem b.ptr b.layout = t) (hsize : b.layout.size ≠ 0)
    (haligned : b.layout.align ∣ b.ptr) (hnull : b.ptr ≠ 0)
    (hregion : IsInEarlyAllocRegion area b.ptr ↔ t = .early)
    (hfresh : ∀ b' ∈ live, b'.ptr ≠ b.ptr) : System.Inv area ⟨mem, b :: live⟩ := by
  have hcases : ∀ y ∈ mem.held, y ∈ sys.mem.held ∨ y = ⟨t, b.ptr, backingSize b.layout t⟩ := by
    intro y hy
    rcases List.mem_cons.mp (hmem.mem_iff.mp hy) with rfl | hy
    · exact .inr rfl
    · obtain ⟨b', hb', rfl⟩ := List.mem_map.mp (hheld.mem_iff.mp hy)
      exact .inl (hinv.mem_held (hlive b' hb'))
  refine ⟨⟨fun y hy => ?_, fun hearly y hy => ?_, fun y hy => ?_, fun y hy => ?_⟩,
    ?_, fun b' hb' => ?_, fun b' hb' => ?_, ?_⟩
  · rcases hcases y hy with hy | rfl
    · exact hinv.sound.region y hy
    · exact hregion
  · rcases hcases y hy with hy | rfl
    · exact hinv.sound.early (huse ▸ hearly) y hy
    · have hmode : sys.mem.useEarlyAlloc = true := huse ▸ hearly
      rw [← ht]
      dsimp only
      rw [getExistingAllocType, getNewAllocType]
      rw [hmode, if_pos rfl, ite_self]
  · rcases hcases y hy with hy | rfl
    · exact hinv.sound.size y hy
    · exact backingSize_ne_zero hsize t
  · rcases hcases y hy with hy | rfl
    · exact hinv.sound.ne_null y hy
    · exact hnull
  · rw [backing_eq huse, List.map_cons, backing, ht]
    exact hmem.trans (hheld.cons _)
  · rcases List.mem_cons.mp hb' with rfl | hb'
    · exact hsize
    · exact hinv.size b' (hlive b' hb')
  · rcases List.mem_cons.mp hb' with rfl | hb'
    · exact haligned
    · exact hinv.aligned b' (hlive b' hb')
  · rw [List.map_cons, List.nodup_cons]
    refine ⟨fun hmem => ?_, hnodup⟩
    obtain ⟨b', hb', heq⟩ := List.mem_map.mp hmem
    exact hfresh b' hb' heq

/-- The other live blocks are at other addresses. -/
theorem System.Inv.mem_erase {sys : System} (hinv : sys.Inv area) {b b' : Block}
    (hb : b ∈ sys.live) (hb' : b' ∈ sys.live.erase b) : b' ∈ sys.live ∧ b'.ptr ≠ b.ptr := by
  have hnodup : sys.live.Nodup := List.Nodup.of_map _ hinv.ptrs
  obtain ⟨hne, hmem⟩ := hnodup.mem_erase_iff.mp hb'
  exact ⟨hmem, fun heq => hne (hinv.eq_of_ptr hmem hb heq)⟩

/-- The addresses of the other live blocks are different. -/
theorem System.Inv.nodup_erase {sys : System} (hinv : sys.Inv area) (b : Block) :
    ((sys.live.erase b).map Block.ptr).Nodup :=
  hinv.ptrs.sublist (List.Sublist.map _ List.erase_sublist)

/-- What a call that returns does to the blocks: the backing allocators take back the block behind
the one that they are passed, and hand out the one behind the block that is returned. A block
that `realloc` leaves at its address stays with its allocator. -/
def Op.Effect (area : ℕ) (sys sys' : System) : Op → Prop
  | .alloc layout => ∃ ptr, sys'.live = ⟨ptr, layout⟩ :: sys.live ∧
      sys'.mem.held = backing area sys'.mem ⟨ptr, layout⟩ :: sys.mem.held
  | .realloc b newSize => ∃ ptr,
      sys'.live = ⟨ptr, ⟨newSize, b.layout.align⟩⟩ :: sys.live.erase b ∧
      sys'.mem.held.Perm (backing area sys'.mem ⟨ptr, ⟨newSize, b.layout.align⟩⟩ ::
        sys.mem.held.erase (backing area sys.mem b)) ∧
      (ptr = b.ptr → (backing area sys'.mem ⟨ptr, ⟨newSize, b.layout.align⟩⟩).owner =
        (backing area sys.mem b).owner)
  | .dealloc b => sys'.live = sys.live.erase b ∧
      sys'.mem.held = sys.mem.held.erase (backing area sys.mem b)
  | .endEarlyAlloc => sys'.live = sys.live ∧ sys'.mem.held = sys.mem.held

/-- A call gives no backing allocator a foreign block, and if it returns, it has its effect and
keeps the invariant. -/
def Op.Routes (pol : Policy area) (sys : System) (op : Op) : Prop :=
  exec pol sys op ≠ .error .foreign ∧
    ∀ sys', exec pol sys op = .ok sys' → sys'.Inv area ∧ op.Effect area sys sys'

/-- A call that panics, but not for a foreign block. -/
theorem Op.Routes.of_error {pol : Policy area} {sys : System} {op : Op} {e : Panic}
    (h : exec pol sys op = .error e) (hne : e ≠ .foreign) : op.Routes pol sys := by
  rw [Op.Routes, h]
  refine ⟨fun heq => hne (Except.error.inj heq), fun sys' heq => ?_⟩
  cases heq

/-- A call that returns. -/
theorem Op.Routes.of_ok {pol : Policy area} {sys sys' : System} {op : Op}
    (h : exec pol sys op = .ok sys') (hinv : sys'.Inv area) (heffect : op.Effect area sys sys') :
    op.Routes pol sys := by
  rw [Op.Routes, h]
  refine ⟨fun heq => ?_, fun sys'' heq => ?_⟩
  · cases heq
  · obtain rfl := Except.ok.inj heq
    exact ⟨hinv, heffect⟩

/-- `alloc` hands out a block that no one holds. -/
theorem System.Inv.alloc (pol : Policy area) {sys : System} (hinv : sys.Inv area)
    {layout : Layout} (hvalid : (Op.alloc layout).Valid sys) :
    (Op.alloc layout).Routes pol sys := by
  rcases alloc_spec pol hinv.sound _ hvalid.2 hvalid.1 with ⟨e, herr, hne⟩ | ⟨t, ptr, ht, hp, heq⟩
  · exact .of_error (by rw [exec, herr]; rfl) hne
  · have hexisting := getExistingAllocType_of_region hp.region ht
    refine .of_ok (by rw [exec, heq]; rfl) ?_ ⟨ptr, rfl, ?_⟩
    · exact hinv.put (t := t) (fun _ h => h) hinv.held hinv.ptrs rfl (.refl _) hexisting hvalid.1
        hp.aligned hp.ne_null hp.region fun b' hb' => hp.fresh _ (hinv.mem_held hb')
    · have hmode : (sys.mem.give t ptr (backingSize layout t)).useEarlyAlloc =
          sys.mem.useEarlyAlloc := rfl
      dsimp only
      rw [backing_eq hmode, backing, hexisting]
      rfl

/-- `realloc` exchanges the block behind the one that it is passed. -/
theorem System.Inv.realloc (pol : Policy area) {sys : System} (hinv : sys.Inv area) {b : Block}
    {newSize : ℕ} (hvalid : (Op.realloc b newSize).Valid sys) :
    (Op.realloc b newSize).Routes pol sys := by
  obtain ⟨hb, hsize⟩ := hvalid
  rcases realloc_spec pol hinv.sound (hinv.mem_held hb) (hinv.aligned b hb) hsize with
    ⟨e, herr, hne⟩ | ⟨t, ptr, mem, heq, hr⟩
  · exact .of_error (by rw [exec, herr]; rfl) hne
  · have hbacking : backing area mem ⟨ptr, ⟨newSize, b.layout.align⟩⟩ =
        ⟨t, ptr, backingSize ⟨newSize, b.layout.align⟩ t⟩ := by
      rw [backing_eq hr.replaced.useEarlyAlloc, backing, hr.existing]
    refine .of_ok (by rw [exec, heq]; rfl) ?_ ⟨ptr, rfl, ?_, fun hptr => ?_⟩
    · refine hinv.put (fun b' hb' => (hinv.mem_erase hb hb').1) (hinv.held_erase hb)
        (hinv.nodup_erase b) hr.replaced.useEarlyAlloc hr.replaced.held hr.existing hsize
        hr.aligned hr.ne_null hr.region fun b' hb' => ?_
      obtain ⟨hmem, hne⟩ := hinv.mem_erase hb hb'
      rcases hr.fresh with ⟨hsame, -⟩ | hfresh
      · exact fun h => hne (h.trans hsame)
      · exact hfresh _ (hinv.mem_held hmem)
    · rw [hbacking]
      exact hr.replaced.held
    · rcases hr.fresh with ⟨-, howner⟩ | hfresh
      · rw [hbacking, howner]
      · exact absurd hptr.symm (hfresh _ (hinv.mem_held hb))

/-- `dealloc` returns, and gives back the block behind the one that it is passed. -/
theorem System.Inv.dealloc (pol : Policy area) {sys : System} (hinv : sys.Inv area) {b : Block}
    (hb : b ∈ sys.live) :
    exec pol sys (.dealloc b) = .ok
        ⟨{ sys.mem with held := sys.mem.held.erase (backing area sys.mem b) }, sys.live.erase b⟩ ∧
      (Op.dealloc b).Routes pol sys := by
  have hheld := hinv.mem_held hb
  have heq : exec pol sys (.dealloc b) = .ok
      ⟨{ sys.mem with held := sys.mem.held.erase (backing area sys.mem b) }, sys.live.erase b⟩ := by
    rw [exec, dealloc_spec hheld (hinv.sound.ne_null _ hheld)]
    rfl
  refine ⟨heq, .of_ok heq ?_ ⟨rfl, rfl⟩⟩
  refine ⟨⟨fun y hy => ?_, fun hearly y hy => ?_, fun y hy => ?_, fun y hy => ?_⟩,
    ?_, fun b' hb' => ?_, fun b' hb' => ?_, hinv.nodup_erase b⟩
  · exact hinv.sound.region y (List.mem_of_mem_erase hy)
  · exact hinv.sound.early hearly y (List.mem_of_mem_erase hy)
  · exact hinv.sound.size y (List.mem_of_mem_erase hy)
  · exact hinv.sound.ne_null y (List.mem_of_mem_erase hy)
  · exact hinv.held_erase hb
  · exact hinv.size b' (hinv.mem_erase hb hb').1
  · exact hinv.aligned b' (hinv.mem_erase hb hb').1

/-- The switch keeps the invariant: the blocks of the early pool are told by their addresses. -/
theorem System.Inv.endEarlyAlloc {sys : System} (hinv : sys.Inv area)
    (hearly : sys.mem.useEarlyAlloc = true) :
    System.Inv area ⟨{ sys.mem with useEarlyAlloc := false }, sys.live⟩ := by
  refine ⟨⟨hinv.sound.region, fun h => absurd h Bool.false_ne_true, hinv.sound.size,
    hinv.sound.ne_null⟩, ?_, hinv.size, hinv.aligned, hinv.ptrs⟩
  refine hinv.held.trans (List.Perm.of_eq (List.map_congr_left fun b hb => ?_))
  have hheld := hinv.mem_held hb
  have hold : getExistingAllocType area sys.mem b.ptr b.layout = .early :=
    hinv.sound.early hearly _ hheld
  have hnew : getExistingAllocType area { sys.mem with useEarlyAlloc := false } b.ptr b.layout =
      .early := if_pos ((hinv.sound.region _ hheld).mpr hold)
  rw [backing, backing, hold, hnew]

/-- **A call** has its effect, keeps the invariant, and no backing allocator is given a foreign
block. -/
theorem System.Inv.exec (pol : Policy area) {sys : System} (hinv : sys.Inv area) {op : Op}
    (hvalid : op.Valid sys) : op.Routes pol sys := by
  cases op with
  | alloc layout => exact hinv.alloc pol hvalid
  | realloc b newSize => exact hinv.realloc pol hvalid
  | dealloc b => exact (hinv.dealloc pol hvalid).2
  | endEarlyAlloc => exact .of_ok rfl (hinv.endEarlyAlloc hvalid) ⟨rfl, rfl⟩

/-- Before any call there are no blocks. -/
theorem System.Inv.init : System.Inv area .init := by
  refine ⟨⟨?_, ?_, ?_, ?_⟩, .nil, ?_, ?_, List.nodup_nil⟩
  all_goals simp [System.init]

/-- The allocator that a live block came from holds at least as many bytes as its layout asks
for. -/
theorem size_le_backingSize {s : State} {ptr : ℕ} {layout : Layout} :
    layout.size ≤ backingSize layout (getExistingAllocType area s ptr layout) := by
  cases ht : getExistingAllocType area s ptr layout with
  | early => exact Nat.le_refl _
  | slab c =>
      have hnew := getNewAllocType_of_existing ht (fun h => (nomatch h))
      exact Nat.le_trans (Nat.le_max_left _ _) (max_le_objectSize hnew)
  | page => exact size_le_pageBytes layout

/-- What holds of the blocks in every reached state. -/
structure Routed (area : ℕ) (sys : System) : Prop where
  /-- No call that respects its contract gives a backing allocator a block that it did not hand
  out, or a wrong size of it. -/
  owned : ∀ (pol : Policy area) (op : Op), op.Valid sys → exec pol sys op ≠ .error .foreign
  /-- A call that returns takes back and hands out the blocks behind those that it is passed and
  returns. -/
  effect : ∀ (pol : Policy area) (op : Op) (sys' : System), op.Valid sys →
    exec pol sys op = .ok sys' → op.Effect area sys sys'
  /-- `dealloc` returns. -/
  returns : ∀ (pol : Policy area), ∀ b ∈ sys.live, ∃ sys', exec pol sys (.dealloc b) = .ok sys'
  /-- The backing allocators hold the blocks behind the live blocks, and no others. -/
  held : sys.mem.held.Perm (sys.live.map (backing area sys.mem))
  /-- Behind every live block there is a block that is held by the allocator that
  `get_existing_alloc_type` computes, at the same address, of at least the size of the layout and
  aligned for it. -/
  behind : ∀ b ∈ sys.live, ∃ x ∈ sys.mem.held, x = backing area sys.mem b ∧
    x.owner = getExistingAllocType area sys.mem b.ptr b.layout ∧ x.ptr = b.ptr ∧
      b.layout.size ≤ x.size ∧ b.layout.align ∣ b.ptr
  /-- No two live blocks share an address. -/
  ptrs : (sys.live.map Block.ptr).Nodup

/-- **Blocks go back to the allocator they came from**, in every run from the early mode: every
call operates on the blocks that the backing allocators handed out, each at its own. -/
theorem routed_of_runs {area : ℕ} {ops : List Op} {sys : System}
    (hruns : Runs (Step area) .init ops sys) : Routed area sys := by
  have hinv : sys.Inv area := hruns.invariant System.Inv.init
    fun sys op sys' hinv ⟨hvalid, pol, hexec⟩ => ((hinv.exec pol hvalid).2 sys' hexec).1
  exact
    { owned := fun pol op hvalid => (hinv.exec pol hvalid).1
      effect := fun pol op sys' hvalid hexec => ((hinv.exec pol hvalid).2 sys' hexec).2
      returns := fun pol b hb => ⟨_, (hinv.dealloc pol hb).1⟩
      held := hinv.held
      behind := fun b hb =>
        ⟨_, hinv.mem_held hb, rfl, rfl, rfl, size_le_backingSize, hinv.aligned b hb⟩
      ptrs := hinv.ptrs }

/-- The page at the beginning of the early area, or behind it, for the next block. -/
def nextPage (area : ℕ) (t : AllocType) (held : List Held) : ℕ :=
  area + (if t = .early then 0 else Early.earlyAllocSize) + held.length * pageSize

/-- Backing allocators that place every block on a page of its own, as long as that keeps their
contract. -/
def pagewise (area : ℕ) : Policy area where
  place t size align held :=
    if MeetsContract area t size align held (nextPage area t held) then some (nextPage area t held)
    else none
  growsInPlace _ _ _ := false
  contract h := by
    split at h
    · rename_i hcontract
      cases h
      exact hcontract
    · cases h

/-- The theorem after a block of the early pool is reallocated past the switch: it moves to a
slab allocator, and will be given back there. -/
theorem routed_of_runs_switch :
    ∃ sys, Runs (Step pageSize) .init
        [.alloc ⟨8, 8⟩, .endEarlyAlloc, .realloc ⟨pageSize, ⟨8, 8⟩⟩ 40] sys ∧
      sys.live = [⟨pageSize + Early.earlyAllocSize + pageSize, ⟨40, 8⟩⟩] ∧
      Routed pageSize sys := by
  have hruns : Runs (Step pageSize) .init
      [.alloc ⟨8, 8⟩, .endEarlyAlloc, .realloc ⟨pageSize, ⟨8, 8⟩⟩ 40]
      ⟨⟨false, [⟨.slab .slab64, pageSize + Early.earlyAllocSize + pageSize, 64⟩]⟩,
        [⟨pageSize + Early.earlyAllocSize + pageSize, ⟨40, 8⟩⟩]⟩ := by
    refine Runs.cons (t := ⟨⟨true, [⟨.early, pageSize, 8⟩]⟩, [⟨pageSize, ⟨8, 8⟩⟩]⟩)
      ⟨⟨by decide, by decide⟩, pagewise pageSize, by decide +kernel⟩ ?_
    refine Runs.cons (t := ⟨⟨false, [⟨.early, pageSize, 8⟩]⟩, [⟨pageSize, ⟨8, 8⟩⟩]⟩)
      ⟨rfl, pagewise pageSize, rfl⟩ ?_
    exact Runs.cons ⟨⟨by decide, by decide⟩, pagewise pageSize, by decide +kernel⟩ .refl
  exact ⟨_, hruns, rfl, routed_of_runs hruns⟩

end HydroxKernel.DefaultAlloc
