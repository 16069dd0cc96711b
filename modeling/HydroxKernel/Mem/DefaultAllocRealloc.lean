import HydroxKernel.Mem.DefaultAllocMemory
import HydroxKernel.Mem.DefaultAllocRouting

/-!
# When `realloc` Works

The allocator with its memory refines the one that only routes its calls: a call that returns
is a call of the other, for some behaviour of the backing allocators. On top of the invariant
that this gives, the held blocks of the early pool are the ones that the pool knows.

## Main results

* `System.Inv.step`: the invariant, for every call.
* `realloc_ok` and `realloc_returns`: what `realloc` does when it returns, and when it does.
* `realloc_works_iff`: where there is room for a fresh block, `realloc` works exactly if it need
  not grow a block of the early pool below the top, refuses no alignment, and is given no page
  that is still mapped.
-/

namespace HydroxKernel.DefaultAlloc.Memory

open HydroxKernel.PageAlloc (Layout pageSize)
open HydroxKernel.Early (earlyAllocSize Heap fullSize)

variable {area : ℕ} {m m' : Machine} {pools : Pools area} {layout : Layout} {t : AllocType}
  {ptr size align : ℕ}

/-! ### Results -/

/-- What does not concern the memory returns the same. -/
theorem lift_eq_ok {α : Type} {x : Except DefaultAlloc.Panic α} {a : α} :
    lift x = .ok a ↔ x = .ok a :=
  mapError_eq_ok

/-- An allocator takes back what it holds. -/
theorem take_eq_ok_iff {s s' : State} :
    s.take t ptr size = .ok s' ↔
      ⟨t, ptr, size⟩ ∈ s.held ∧ s' = { s with held := s.held.erase ⟨t, ptr, size⟩ } := by
  constructor
  · intro h
    obtain ⟨hmem, h⟩ := ensure_bind_eq_ok.mp h
    cases h
    exact ⟨hmem, rfl⟩
  · rintro ⟨hmem, rfl⟩
    exact take_eq_ok hmem

/-! ### The invariant -/

/-- What holds of the blocks and the memory between two calls. -/
structure Machine.Tidy (area : ℕ) (m : Machine) : Prop where
  ptrs : (m.base.held.map Held.ptr).Nodup
  outside : ∀ x ∈ m.base.held, x.owner ≠ .early → Outside area x.ptr x.size
  pool : ∃ pool, Early.Sound area m.heap pool ∧
    ∀ x ∈ m.base.held, x.owner = .early → ∃ b ∈ pool, b.ptr = x.ptr ∧ b.size = x.size

/-- No block is held twice. -/
theorem Machine.Tidy.nodup (ht : m.Tidy area) : m.base.held.Nodup := ht.ptrs.of_map

/-- Blocks that are taken back leave the others at different addresses. -/
theorem ptrs_erase {held : List Held} (h : (held.map Held.ptr).Nodup) (x : Held) :
    ((held.erase x).map Held.ptr).Nodup :=
  h.sublist ((List.erase_sublist).map Held.ptr)

/-- A block that takes the place of another is at a different address than the rest. -/
theorem ptrs_replace {held : List Held} (h : (held.map Held.ptr).Nodup) {x x' : Held}
    (hx : x ∈ held) (hptr : x'.ptr = x.ptr) :
    ((x' :: held.erase x).map Held.ptr).Nodup := by
  refine List.nodup_cons.mpr ⟨fun hmem => ?_, ptrs_erase h x⟩
  obtain ⟨y, hy, hyptr⟩ := List.mem_map.mp hmem
  obtain ⟨hne, hy⟩ := h.of_map.mem_erase_iff.mp hy
  exact hne (List.inj_on_of_nodup_map h hy hx (hyptr.trans hptr))

/-- The pools write outside of the early area. -/
theorem Machine.Tidy.touch (ht : m.Tidy area) (pools : Pools area) :
    (m.touch pools).Tidy area := by
  obtain ⟨pool, hs, hpool⟩ := ht.pool
  exact ⟨ht.ptrs, ht.outside, pool, hs.congr fun x hx hx' => pools.touch_area hx hx', hpool⟩

/-- Copying to a block outside of the early area. -/
theorem Machine.Tidy.copy (ht : m.Tidy area) {src dst n size : ℕ} (hout : Outside area dst size)
    (hn : n ≤ size) : (m.copy src dst n).Tidy area := by
  obtain ⟨pool, hs, hpool⟩ := ht.pool
  refine ⟨ht.ptrs, ht.outside, pool, hs.congr fun x hx hx' => ?_, hpool⟩
  refine Bytes.copy_of_notMem ?_
  rcases hout with h | h <;> omega

/-- A new block that is apart from the others is at an address of its own. -/
theorem fresh_of_apart {s : State} (hs : s.Sound area) (hapart : ∀ x ∈ s.held, x.Apart ptr size)
    (hsize : size ≠ 0) : ptr ∉ s.held.map Held.ptr := by
  intro hmem
  obtain ⟨x, hx, rfl⟩ := List.mem_map.mp hmem
  have hx0 := hs.size x hx
  rcases hapart x hx with h | h <;> omega

/-- A slab or page allocator hands out a block. -/
theorem Machine.Tidy.give (ht : m.Tidy area) (pools : Pools area) (hne : t ≠ .early)
    (hnew : ptr ∉ m.base.held.map Held.ptr) (hout : Outside area ptr size) :
    (m.give pools t ptr size).Tidy area := by
  obtain ⟨pool, hs, hpool⟩ := (ht.touch pools).pool
  refine ⟨List.nodup_cons.mpr ⟨hnew, ht.ptrs⟩, fun x hx hxe => ?_, pool, hs, fun x hx hxe => ?_⟩
  · rcases List.mem_cons.mp hx with rfl | hx
    · exact hout
    · exact ht.outside x hx hxe
  · rcases List.mem_cons.mp hx with rfl | hx
    · exact absurd hxe hne
    · exact hpool x hx hxe

/-- A slab or page allocator takes a block back. -/
theorem Machine.Tidy.take (ht : m.Tidy area) (htake : m.take pools t ptr size = .ok m') :
    m'.Tidy area := by
  obtain ⟨base, hbase, htake⟩ := bind_eq_ok.mp htake
  obtain ⟨hmem, rfl⟩ := take_eq_ok_iff.mp (lift_eq_ok.mp hbase)
  cases htake
  refine Machine.Tidy.touch ⟨ptrs_erase ht.ptrs _, fun x hx => ?_, ?_⟩ pools
  · exact ht.outside x (List.mem_of_mem_erase hx)
  · obtain ⟨pool, hs, hpool⟩ := ht.pool
    exact ⟨pool, hs, fun x hx => hpool x (List.mem_of_mem_erase hx)⟩

/-- What a slab or page allocator takes back. -/
theorem take_base (htake : m.take pools t ptr size = .ok m') :
    m.base.take t ptr size = .ok m'.base := by
  obtain ⟨base, hbase, htake⟩ := bind_eq_ok.mp htake
  cases htake
  exact lift_eq_ok.mp hbase

/-- The block that the early pool knows. -/
theorem Machine.Tidy.block (ht : m.Tidy area) (hx : ⟨.early, ptr, size⟩ ∈ m.base.held) :
    ∃ pool align, Early.Sound area m.heap pool ∧ ⟨ptr, size, align⟩ ∈ pool ∧
      ∀ x ∈ m.base.held, x.owner = .early → x ≠ ⟨.early, ptr, size⟩ →
        ∃ b ∈ pool.erase ⟨ptr, size, align⟩, b.ptr = x.ptr ∧ b.size = x.size := by
  obtain ⟨pool, hs, hpool⟩ := ht.pool
  obtain ⟨⟨p, n, align⟩, hb, rfl, rfl⟩ := hpool _ hx rfl
  refine ⟨pool, align, hs, hb, fun x hx hxe hne => ?_⟩
  obtain ⟨b', hb', hptr, hsize⟩ := hpool x hx hxe
  refine ⟨b', hs.nodup.mem_erase_iff.mpr ⟨fun heq => hne ?_, hb'⟩, hptr, hsize⟩
  obtain ⟨o, p', n'⟩ := x
  subst heq hxe hptr hsize
  rfl

/-- **`early::alloc`** keeps the contract that the early pool has with `DefaultAlloc`. -/
theorem Machine.Tidy.earlyAlloc (ht : m.Tidy area) (hs : m.base.Sound area) (hsize : size ≠ 0)
    (hpos : 0 < area) (halloc : earlyAlloc area m size align = .ok (ptr, m')) :
    MeetsContract area .early size (max align 4) m.base.held ptr ∧
      m'.base = m.base.give .early ptr size ∧ m'.Tidy area := by
  obtain ⟨⟨p, heap⟩, hearly, halloc⟩ := bind_eq_ok.mp halloc
  cases halloc
  have hearly := mapError_eq_ok.mp hearly
  obtain ⟨pool, hpool, hheld⟩ := ht.pool
  have hpool' := hpool.alloc hearly
  have hnew : (⟨ptr, size, align⟩ : Early.Block) ∈ ⟨ptr, size, align⟩ :: pool := List.mem_cons_self
  have hinside := hpool'.inside hnew
  have hfull := Early.size_add_le size
  dsimp only at hinside
  have hapart : ∀ x ∈ m.base.held, x.Apart ptr size := by
    intro x hx
    by_cases hxe : x.owner = .early
    · obtain ⟨b, hb, hptr, hbsize⟩ := hheld x hx hxe
      have hne : b ≠ ⟨ptr, size, align⟩ := by
        rintro rfl
        exact (List.nodup_cons.mp hpool'.nodup).1 hb
      have hap := hpool'.apart (List.mem_cons_of_mem _ hb) hnew hne
      rw [hptr, hbsize] at hap
      exact hap
    · have hx0 := hs.size x hx
      rcases ht.outside x hx hxe with hle | hle
      · exact .inl (by omega)
      · exact .inr (by omega)
  refine ⟨⟨by omega, hpool'.aligned hnew, hapart, ?_⟩, rfl,
    List.nodup_cons.mpr ⟨fresh_of_apart hs hapart hsize, ht.ptrs⟩, fun x hx hxe => ?_,
    _, hpool', fun x hx hxe => ?_⟩
  · simp only [IsInEarlyAllocRegion, iff_true]
    omega
  · rcases List.mem_cons.mp hx with rfl | hx
    · exact absurd rfl hxe
    · exact ht.outside x hx hxe
  · rcases List.mem_cons.mp hx with rfl | hx
    · exact ⟨_, hnew, rfl, rfl⟩
    · obtain ⟨b, hb, h⟩ := hheld x hx hxe
      exact ⟨b, List.mem_cons_of_mem _ hb, h⟩

/-- **`early::free`** writes to the block that it takes back, and to nothing else. -/
theorem Machine.Tidy.earlyFree (ht : m.Tidy area) (hx : ⟨.early, ptr, size⟩ ∈ m.base.held) :
    ∃ m', earlyFree m ptr size = .ok m' ∧ m.base.take .early ptr size = .ok m'.base ∧
      m'.Tidy area ∧ (∀ a, (a < ptr ∨ ptr + size ≤ a) → m'.heap.mem a = m.heap.mem a) ∧
      area ≤ ptr ∧ ptr + size ≤ area + earlyAllocSize := by
  obtain ⟨pool, align, hs, hb, hrest⟩ := ht.block hx
  obtain ⟨heap, hfree, hs', hmem⟩ := hs.free hb
  have htake := take_eq_ok hx
  have hinside := hs.inside hb
  have hfull := Early.size_add_le size
  dsimp only at hinside
  refine ⟨⟨{ m.base with held := m.base.held.erase ⟨.early, ptr, size⟩ }, heap, m.leftover⟩, ?_,
    htake, ⟨ptrs_erase ht.ptrs _, fun x hx => ?_, _, hs', fun x hx hxe => ?_⟩, hmem, hinside.1,
    by omega⟩
  · rw [Memory.earlyFree, htake, lift_eq_ok.mpr rfl, ok_bind, mapError_eq_ok.mpr hfree]
    rfl
  · exact ht.outside x (List.mem_of_mem_erase hx)
  · obtain ⟨hne, hx⟩ := ht.nodup.mem_erase_iff.mp hx
    exact hrest x hx hxe hne

/-- **`early::realloc`** changes the size of a block, unless it returns null. A block only grows
if it is at the top. -/
theorem Machine.Tidy.earlyRealloc (ht : m.Tidy area) {newSize p : ℕ}
    (hx : ⟨.early, ptr, size⟩ ∈ m.base.held)
    (hrealloc : earlyRealloc area m ptr size newSize = .ok (p, m')) (hp : p ≠ 0) :
    p = ptr ∧ m'.base = State.give { m.base with held := m.base.held.erase ⟨.early, ptr, size⟩ }
        .early ptr newSize ∧
      m'.Tidy area ∧ (∀ i < min size newSize, m'.heap.mem (ptr + i) = m.heap.mem (ptr + i)) ∧
      (size < newSize → m.heap.mark = ptr + fullSize size) := by
  obtain ⟨pool, align, hs, hb, hrest⟩ := ht.block hx
  obtain ⟨-, -, hrealloc⟩ := bind_eq_ok.mp hrealloc
  obtain ⟨⟨p', heap⟩, hearly, hrealloc⟩ := bind_eq_ok.mp hrealloc
  have hearly : Early.realloc area m.heap ptr size newSize = .ok (p', heap) :=
    mapError_eq_ok.mp hearly
  dsimp only at hrealloc
  split at hrealloc
  · cases hrealloc
    exact absurd rfl hp
  · obtain ⟨base, hbase, hrealloc⟩ := bind_eq_ok.mp hrealloc
    obtain ⟨-, rfl⟩ := take_eq_ok_iff.mp (lift_eq_ok.mp hbase)
    cases hrealloc
    obtain ⟨rfl, hs'⟩ := hs.realloc hb hearly hp
    dsimp only at hs' hearly ⊢
    refine ⟨rfl, rfl, ⟨ptrs_replace ht.ptrs hx rfl, fun x hx hxe => ?_, _, hs',
      fun x hx hxe => ?_⟩,
      fun i hi => Early.realloc_contents (hs.getFullSize_eq hb) hearly hi, fun hlt => ?_⟩
    · rcases List.mem_cons.mp hx with rfl | hx
      · exact absurd rfl hxe
      · exact ht.outside x (List.mem_of_mem_erase hx) hxe
    · rcases List.mem_cons.mp hx with rfl | hx
      · exact ⟨_, List.mem_cons_self, rfl, rfl⟩
      · obtain ⟨hne, hx⟩ := ht.nodup.mem_erase_iff.mp hx
        obtain ⟨b', hb', h⟩ := hrest x hx hxe hne
        exact ⟨b', List.mem_cons_of_mem _ hb', h⟩
    · by_contra htop
      cases hs.realloc_null hb hlt htop hearly
      exact hp rfl

/-! ### What the slab and page allocators hand out -/

/-- The pages that are mapped for a new block. -/
def pagesFor (pools : Pools area) (m : Machine) (layout : Layout) : AllocType → List ℕ
  | .early => []
  | .slab c => pools.newPages c m.base.held
  | .page =>
      match pools.place .page (pageBytes layout) pageSize m.base.held with
      | some ptr => pagesFrom ptr layout.numPages
      | none => []

/-- The alignment that an allocator gives its blocks. -/
def placeAlign : AllocType → ℕ
  | .early => 4
  | .slab c => c.objectSize
  | .page => pageSize

/-- A new block of a slab or page allocator. -/
structure Placed (pools : Pools area) (m m' : Machine) (layout : Layout) (t : AllocType)
    (ptr : ℕ) : Prop where
  place : pools.place t (backingSize layout t) (placeAlign t) m.base.held = some ptr
  eq_give : m' = m.give pools t ptr (backingSize layout t)
  unmapped : ∀ page ∈ pagesFor pools m layout t, page ∉ m.leftover
  align : t = .page → layout.align ≤ pageSize

/-- What a slab allocator hands out. -/
theorem slabAllocate_ok {c : SlabClass}
    (h : slabAllocate pools m c layout = .ok (some ptr, m')) :
    Placed pools m m' layout (.slab c) ptr ∧
      DefaultAlloc.slabAllocate pools.toPolicy m.base c layout = (some ptr, m'.base) := by
  rw [slabAllocate] at h
  split at h
  · cases h
  · rename_i hfits
    obtain ⟨hpages, h⟩ := ensure_bind_eq_ok.mp h
    split at h
    · rename_i hplace
      cases h
      refine ⟨⟨hplace, rfl, hpages, fun h => (by cases h)⟩, ?_⟩
      rw [DefaultAlloc.slabAllocate, if_neg hfits, hplace]
      rfl
    · cases h

/-- What the page allocator hands out. -/
theorem pageAllocate_ok (h : pageAllocate pools m layout = .ok (some ptr, m')) :
    Placed pools m m' layout .page ptr ∧
      DefaultAlloc.pageAllocate pools.toPolicy m.base layout = (some ptr, m'.base) := by
  rw [pageAllocate] at h
  split at h
  · cases h
  · rename_i halign
    split at h
    · cases h
    · rename_i hplace
      obtain ⟨hpages, h⟩ := ensure_bind_eq_ok.mp h
      cases h
      refine ⟨⟨hplace, rfl, ?_, fun _ => Nat.le_of_not_lt halign⟩, ?_⟩
      · rw [pagesFor, hplace]
        exact hpages
      · rw [DefaultAlloc.pageAllocate, if_neg halign, hplace]
        rfl

/-- A new block is not among the held ones, and keeps everything tidy. -/
theorem Placed.tidy (hp : Placed pools m m' layout t ptr) (ht : m.Tidy area)
    (hs : m.base.Sound area) (hne : t ≠ .early) (hsize : layout.size ≠ 0) :
    ptr ∉ m.base.held.map Held.ptr ∧ Outside area ptr (backingSize layout t) ∧
      m'.Tidy area := by
  have hnew : ptr ∉ m.base.held.map Held.ptr :=
    fresh_of_apart hs (pools.contract hp.place).2.2.1 (backingSize_ne_zero hsize t)
  have hout := pools.outside hne hp.place
  refine ⟨hnew, hout, ?_⟩
  rw [hp.eq_give]
  exact ht.give pools hne hnew hout

/-- A block that is copied to a new one, and then given back. -/
theorem Placed.move_contents (hp : Placed pools m m' layout t ptr) {x : Held} {m₂ : Machine}
    {pools' : Pools area} {n : ℕ} (hx : x ∈ m.base.held)
    (hnew : ptr ∉ m.base.held.map Held.ptr) (hn : n ≤ x.size)
    (hn' : n ≤ backingSize layout t)
    (htake : (m'.copy x.ptr ptr n).take pools' x.owner x.ptr x.size = .ok m₂) {i : ℕ}
    (hi : i < n) : m₂.heap.mem (ptr + i) = m.heap.mem (x.ptr + i) := by
  obtain rfl := hp.eq_give
  obtain ⟨base, hbase, htake⟩ := bind_eq_ok.mp htake
  obtain ⟨-, rfl⟩ := take_eq_ok_iff.mp (lift_eq_ok.mp hbase)
  cases htake
  have hne : (⟨t, ptr, backingSize layout t⟩ : Held) ≠ x := by
    rintro rfl
    exact hnew (List.mem_map_of_mem hx)
  have hmem : (⟨t, ptr, backingSize layout t⟩ : Held) ∈
      (List.cons ⟨t, ptr, backingSize layout t⟩ m.base.held).erase ⟨x.owner, x.ptr, x.size⟩ :=
    (List.mem_erase_of_ne hne).mpr List.mem_cons_self
  have hkept := @Pools.touch_held _ pools' _
    ((m.give pools t ptr (backingSize layout t)).copy x.ptr ptr n).heap.mem _ i hmem
    (Nat.lt_of_lt_of_le hi hn')
  refine hkept.trans ?_
  have hcopy : ((m.give pools t ptr (backingSize layout t)).copy x.ptr ptr n).heap.mem (ptr + i) =
      pools.touch m.base.held m.heap.mem (x.ptr + i) := Bytes.copy_add hi
  rw [hcopy]
  exact pools.touch_held hx (Nat.lt_of_lt_of_le hi hn)

/-- A slab or page allocator has room for what it is chosen for. -/
theorem size_le_backingSize_of_new {s : State} (h : getNewAllocType s layout ≠ .early) :
    layout.size ≤ backingSize layout (getNewAllocType s layout) := by
  cases htype : getNewAllocType s layout with
  | early => exact absurd htype h
  | slab c => exact (Nat.le_max_left _ _).trans (max_le_objectSize htype)
  | page => exact size_le_pageBytes layout

/-- Smaller blocks do not need more pages. -/
theorem numPages_mono {n align : ℕ} {layout : Layout} (h : n ≤ layout.size) :
    Layout.numPages ⟨n, align⟩ ≤ layout.numPages :=
  Nat.div_le_div_right (Nat.add_le_add_right h _)

/-! ### `alloc` and `dealloc` -/

/-- Backing allocators whose early pool places its next block where it is told to. -/
def pinned (pol : Policy area) (ptr : ℕ) : Policy area where
  place t size align held :=
    if t = .early ∧ MeetsContract area t size align held ptr then some ptr
    else pol.place t size align held
  growsInPlace _ _ _ := true
  contract {t size align held p} h := by
    split at h
    · rename_i hearly
      cases h
      exact hearly.2
    · exact pol.contract h

/-- **`alloc`**, when it returns, is a call of the allocator without its memory. -/
theorem alloc_ok (ht : m.Tidy area) (hs : m.base.Sound area) (hpos : 0 < area)
    (hsize : layout.size ≠ 0) (h : alloc pools m layout = .ok (ptr, m')) :
    (∃ pol : Policy area, DefaultAlloc.alloc pol m.base layout = .ok (ptr, m'.base)) ∧
      m'.Tidy area ∧ (getNewAllocType m.base layout ≠ .early →
        Placed pools m m' layout (getNewAllocType m.base layout) ptr) := by
  rw [alloc] at h
  cases htype : getNewAllocType m.base layout with
  | early =>
      rw [htype] at h
      obtain ⟨⟨p, m₁⟩, hearly, h⟩ := bind_eq_ok.mp h
      obtain ⟨_, hnull, h⟩ := bind_eq_ok.mp h
      cases h
      obtain ⟨hcontract, hbase, htidy⟩ := ht.earlyAlloc hs hsize hpos hearly
      refine ⟨⟨pinned pools.toPolicy ptr, ?_⟩, htidy, fun hne => absurd rfl hne⟩
      have hplace : (pinned pools.toPolicy ptr).place .early layout.size (max layout.align 4)
          m.base.held = some ptr := if_pos ⟨rfl, hcontract⟩
      rw [DefaultAlloc.alloc, htype, hbase]
      dsimp only
      rw [DefaultAlloc.earlyAlloc, hplace]
      dsimp only
      rw [ok_bind]
      dsimp only
      rw [lift_eq_ok.mp hnull]
      rfl
  | slab c =>
      rw [htype] at h
      obtain ⟨⟨r, m₁⟩, hslab, h⟩ := bind_eq_ok.mp h
      rcases r with _ | p
      · cases h
      · cases h
        obtain ⟨hplaced, hbase⟩ := slabAllocate_ok hslab
        refine ⟨⟨pools.toPolicy, ?_⟩, (hplaced.tidy ht hs (fun h => (by cases h)) hsize).2.2,
          fun _ => hplaced⟩
        rw [DefaultAlloc.alloc, htype]
        dsimp only
        rw [hbase]
        rfl
  | page =>
      rw [htype] at h
      obtain ⟨⟨r, m₁⟩, hpage, h⟩ := bind_eq_ok.mp h
      rcases r with _ | p
      · cases h
      · cases h
        obtain ⟨hplaced, hbase⟩ := pageAllocate_ok hpage
        refine ⟨⟨pools.toPolicy, ?_⟩, (hplaced.tidy ht hs (fun h => (by cases h)) hsize).2.2,
          fun _ => hplaced⟩
        rw [DefaultAlloc.alloc, htype]
        dsimp only
        rw [hbase]
        rfl

/-- A slab or page allocator takes back what it holds. -/
theorem take_returns (pools : Pools area) (h : ⟨t, ptr, size⟩ ∈ m.base.held) :
    ∃ m', m.take pools t ptr size = .ok m' := by
  rw [Machine.take, lift_eq_ok.mpr (take_eq_ok h)]
  exact ⟨_, rfl⟩

/-- **`dealloc`** returns for a live block. -/
theorem dealloc_returns (ht : m.Tidy area) (pools : Pools area) {b : Block}
    (hb : backing area m.base b ∈ m.base.held) (hnull : b.ptr ≠ 0) :
    ∃ m', dealloc pools m b.ptr b.layout = .ok m' := by
  rw [dealloc, unwrapNonNull, lift_eq_ok.mpr (ensure_pos hnull), ok_bind]
  rw [backing] at hb
  cases htype : getExistingAllocType area m.base b.ptr b.layout with
  | early =>
      rw [htype] at hb
      obtain ⟨m', h, -⟩ := ht.earlyFree hb
      exact ⟨m', h⟩
  | slab c | page =>
      rw [htype] at hb
      exact take_returns pools hb

/-- **`dealloc`**, when it returns, is a call of the allocator without its memory. A block of
the early pool is written to, and others are taken back by their allocators. -/
theorem dealloc_ok (ht : m.Tidy area) {b : Block} (hb : backing area m.base b ∈ m.base.held)
    (h : dealloc pools m b.ptr b.layout = .ok m') :
    DefaultAlloc.dealloc area m.base b.ptr b.layout = .ok m'.base ∧ m'.Tidy area ∧
      (((∀ a, (a < b.ptr ∨ b.ptr + b.layout.size ≤ a) → m'.heap.mem a = m.heap.mem a) ∧
          area ≤ b.ptr ∧ b.ptr + b.layout.size ≤ area + earlyAllocSize) ∨
        m.take pools (backing area m.base b).owner b.ptr (backing area m.base b).size =
          .ok m') := by
  obtain ⟨_, hnull, h⟩ := bind_eq_ok.mp h
  rw [DefaultAlloc.dealloc, lift_eq_ok.mp hnull, ok_bind]
  rw [backing] at hb ⊢
  cases htype : getExistingAllocType area m.base b.ptr b.layout with
  | early =>
      rw [htype] at hb h
      obtain ⟨m₁, heq, hbase, htidy, hmem, hin⟩ := ht.earlyFree hb
      cases heq.symm.trans h
      exact ⟨hbase, htidy, .inl ⟨hmem, hin⟩⟩
  | slab c | page =>
      rw [htype] at h
      exact ⟨take_base h, ht.take h, .inr h⟩

/-! ### `realloc` -/

/-- A block stays with its allocator and at its address. -/
def StaysInPlace (area : ℕ) (m : Machine) (b : Block) (newSize : ℕ) : Prop :=
  getNewAllocType m.base ⟨newSize, b.layout.align⟩ =
      getExistingAllocType area m.base b.ptr b.layout ∧
    (getExistingAllocType area m.base b.ptr b.layout = .page →
      Layout.numPages ⟨newSize, b.layout.align⟩ ≤ b.layout.numPages)

/-- **When `realloc` works**: a block of the early pool that is to grow is at its top; the page
allocator refuses no alignment, which it does at a page for a block of its own and above a page
for others; and no page that is mapped for a fresh block has stayed mapped. -/
structure CanRealloc (pools : Pools area) (m : Machine) (b : Block) (newSize : ℕ) : Prop where
  top : m.base.useEarlyAlloc = true → b.layout.size < newSize →
    m.heap.mark = b.ptr + fullSize b.layout.size
  align : getNewAllocType m.base ⟨newSize, b.layout.align⟩ = .page → b.layout.align ≤ pageSize ∧
    (getExistingAllocType area m.base b.ptr b.layout = .page → b.layout.align ≠ pageSize)
  unmapped : ¬ StaysInPlace area m b newSize →
    ∀ page ∈ pagesFor pools m ⟨newSize, b.layout.align⟩
      (getNewAllocType m.base ⟨newSize, b.layout.align⟩), page ∉ m.leftover

/-- In the early mode there is only the early pool. -/
theorem types_of_useEarlyAlloc {s : State} (h : s.useEarlyAlloc = true)
    (layout : Layout) (ptr : ℕ) :
    getNewAllocType s layout = .early ∧ getExistingAllocType area s ptr layout = .early := by
  have hnew : getNewAllocType s layout = .early := if_pos h
  refine ⟨hnew, ?_⟩
  rw [getExistingAllocType, hnew, ite_self]

/-- The early pool is chosen in the early mode only. -/
theorem useEarlyAlloc_of_new {s : State} (h : getNewAllocType s layout = .early) :
    s.useEarlyAlloc = true := by
  rw [getNewAllocType] at h
  split at h
  · assumption
  · exact absurd h (allocTypeOfSize_ne_early _)

section Realloc

variable (ht : m.Tidy area) (hs : m.base.Sound area) (hpos : 0 < area) {b : Block}
  (hb : backing area m.base b ∈ m.base.held) {newSize : ℕ} (hsize : newSize ≠ 0)

include ht hb in
/-- A block of the early pool. -/
theorem reallocWith_early_ok (hold : getExistingAllocType area m.base b.ptr b.layout = .early)
    (h : reallocWith pools m .early b.ptr b.layout newSize = .ok (ptr, m')) :
    (∃ pol : Policy area,
        DefaultAlloc.reallocWith pol m.base .early b.ptr b.layout newSize = .ok (ptr, m'.base)) ∧
      m'.Tidy area ∧
      (∀ i < min b.layout.size newSize, m'.heap.mem (ptr + i) = m.heap.mem (b.ptr + i)) ∧
      (b.layout.size < newSize → m.heap.mark = b.ptr + fullSize b.layout.size) := by
  rw [backing, hold] at hb
  have hheld : ⟨.early, b.ptr, b.layout.size⟩ ∈ m.base.held := hb
  obtain ⟨⟨p, m₁⟩, hearly, h⟩ := bind_eq_ok.mp h
  obtain ⟨_, hp, h⟩ := bind_eq_ok.mp h
  cases h
  have hp := lift_eq_ok.mp hp
  have hne : ptr ≠ 0 := ensure_eq_ok.mp hp
  obtain ⟨rfl, hbase, htidy, hcontents, htop⟩ := ht.earlyRealloc hheld hearly hne
  refine ⟨⟨pinned pools.toPolicy 0, ?_⟩, htidy, hcontents, htop⟩
  have hgrows : (pinned pools.toPolicy 0).growsInPlace m.base.held b.ptr newSize = true := rfl
  rw [DefaultAlloc.reallocWith]
  dsimp only
  rw [DefaultAlloc.earlyRealloc, check_eq_ok hheld, ok_bind, hgrows, if_neg (by simp),
    take_eq_ok hheld, ok_bind, hbase]
  change (unwrapNonNull b.ptr >>= fun _ => _) = _
  rw [hp]
  rfl

/-- A slab allocator leaves its object as it is. -/
theorem reallocWith_slab_ok {c : SlabClass}
    (h : reallocWith pools m (.slab c) b.ptr b.layout newSize = .ok (ptr, m')) :
    DefaultAlloc.reallocWith pools.toPolicy m.base (.slab c) b.ptr b.layout newSize =
        .ok (ptr, m'.base) ∧ m' = m ∧ ptr = b.ptr := by
  have hgrow : ∀ {r : Option ℕ × State} {p : ℕ},
      DefaultAlloc.slabGrow m.base c b.ptr ⟨newSize, b.layout.align⟩ = .ok r → r.1 = some p →
        r.2 = m.base ∧ p = b.ptr := by
    intro r p hr hp
    obtain ⟨-, hr⟩ := ensure_bind_eq_ok.mp hr
    split at hr <;> cases hr
    · cases hp
    · exact ⟨rfl, (Option.some.inj hp).symm⟩
  have hshrink : ∀ {r : Option ℕ × State} {p : ℕ},
      DefaultAlloc.slabShrink m.base c b.ptr ⟨newSize, b.layout.align⟩ = .ok r → r.1 = some p →
        r.2 = m.base ∧ p = b.ptr := by
    intro r p hr hp
    obtain ⟨-, hr⟩ := ensure_bind_eq_ok.mp hr
    split at hr <;> cases hr
    · cases hp
    · exact ⟨rfl, (Option.some.inj hp).symm⟩
  rw [reallocWith] at h
  rw [DefaultAlloc.reallocWith]
  dsimp only at h ⊢
  split at h
  · rw [if_pos ‹_›]
    obtain ⟨⟨r, m₁⟩, hr, h⟩ := bind_eq_ok.mp h
    obtain ⟨⟨r, s⟩, hbase, hr⟩ := bind_eq_ok.mp hr
    cases hr
    rcases r with _ | p
    · cases h
    · cases h
      have hbase := lift_eq_ok.mp hbase
      obtain ⟨rfl, rfl⟩ := hgrow hbase rfl
      rw [hbase]
      exact ⟨rfl, rfl, rfl⟩
  · rw [if_neg ‹_›]
    obtain ⟨⟨r, m₁⟩, hr, h⟩ := bind_eq_ok.mp h
    obtain ⟨⟨r, s⟩, hbase, hr⟩ := bind_eq_ok.mp hr
    cases hr
    rcases r with _ | p
    · cases h
    · cases h
      have hbase := lift_eq_ok.mp hbase
      obtain ⟨rfl, rfl⟩ := hshrink hbase rfl
      rw [hbase]
      exact ⟨rfl, rfl, rfl⟩

include ht hs hb hsize in
/-- The page allocator leaves a block as it is, moves it to new pages, or cuts off its end. -/
theorem reallocWith_page_ok (hold : getExistingAllocType area m.base b.ptr b.layout = .page)
    (h : reallocWith pools m .page b.ptr b.layout newSize = .ok (ptr, m')) :
    DefaultAlloc.reallocWith pools.toPolicy m.base .page b.ptr b.layout newSize =
        .ok (ptr, m'.base) ∧
      m'.Tidy area ∧
      (∀ i < min b.layout.size newSize, m'.heap.mem (ptr + i) = m.heap.mem (b.ptr + i)) ∧
      b.layout.align < pageSize ∧
      (¬ Layout.numPages ⟨newSize, b.layout.align⟩ ≤ b.layout.numPages →
        ∀ page ∈ pagesFor pools m ⟨newSize, b.layout.align⟩ .page, page ∉ m.leftover) := by
  rw [backing, hold] at hb
  have hheld : ⟨.page, b.ptr, pageBytes b.layout⟩ ∈ m.base.held := hb
  have hcheck := check_eq_ok hheld
  have hfits := size_le_pageBytes b.layout
  rw [reallocWith] at h
  rw [DefaultAlloc.reallocWith]
  dsimp only at h ⊢
  split at h
  · rename_i hle
    rw [if_pos hle]
    obtain ⟨⟨r, m₁⟩, hr, h⟩ := bind_eq_ok.mp h
    rw [pageGrow, lift_eq_ok.mpr hcheck, ok_bind] at hr
    rw [DefaultAlloc.pageGrow, hcheck, ok_bind]
    split at hr
    · cases hr
      cases h
    rename_i halign
    rw [if_neg halign]
    split at hr
    · rename_i hpages
      rw [if_pos hpages]
      cases hr
      cases h
      exact ⟨rfl, ht, fun _ _ => rfl, Nat.lt_of_not_le halign, fun hne => absurd hpages.le hne⟩
    · rename_i hpages
      rw [if_neg hpages]
      obtain ⟨⟨r₂, m₂⟩, halloc, hr⟩ := bind_eq_ok.mp hr
      rcases r₂ with _ | newPtr
      · cases hr
        cases h
      obtain ⟨m₃, hfree, hr⟩ := bind_eq_ok.mp hr
      cases hr
      cases h
      obtain ⟨hplaced, hbase⟩ := pageAllocate_ok halloc
      obtain ⟨hnew, hout, htidy⟩ := hplaced.tidy ht hs (fun h => (by cases h)) hsize
      have hroom : b.layout.size ≤ backingSize ⟨newSize, b.layout.align⟩ .page :=
        hle.trans (size_le_pageBytes ⟨newSize, b.layout.align⟩)
      have htake : m₂.base.take .page b.ptr (pageBytes b.layout) = .ok m'.base :=
        take_base (m := m₂.copy b.ptr ptr b.layout.size) hfree
      refine ⟨?_, (htidy.copy hout hroom).take hfree, fun i hi => ?_, Nat.lt_of_not_le halign,
        fun _ => hplaced.unmapped⟩
      · rw [hbase]
        dsimp only
        rw [DefaultAlloc.pageDeallocate, htake]
        rfl
      · exact hplaced.move_contents hheld hnew hfits hroom hfree (by omega)
  · rename_i hlt
    rw [if_neg hlt]
    obtain ⟨⟨r, m₁⟩, hr, h⟩ := bind_eq_ok.mp h
    rw [pageShrink, lift_eq_ok.mpr hcheck, ok_bind] at hr
    rw [DefaultAlloc.pageShrink, hcheck, ok_bind]
    split at hr
    · cases hr
      cases h
    rename_i halign
    rw [if_neg halign]
    rw [lift_eq_ok.mpr (take_eq_ok hheld), ok_bind] at hr
    rw [take_eq_ok hheld, ok_bind]
    cases hr
    cases h
    have hmono : Layout.numPages ⟨newSize, b.layout.align⟩ ≤ b.layout.numPages :=
      numPages_mono (Nat.le_of_not_le hlt)
    have hbytes : pageBytes ⟨newSize, b.layout.align⟩ ≤ pageBytes b.layout :=
      Nat.mul_le_mul_right _ hmono
    obtain ⟨pool, hpool, hearly⟩ := ht.pool
    refine ⟨rfl, Machine.Tidy.touch ?_ pools, fun i hi => ?_, Nat.lt_of_not_le halign,
      fun hne => absurd hmono hne⟩
    · refine ⟨ptrs_replace ht.ptrs hheld rfl, fun x hx hxe => ?_, pool, hpool, fun x hx hxe => ?_⟩
      · rcases List.mem_cons.mp hx with rfl | hx
        · rcases ht.outside _ hheld hxe with h | h
          · exact .inl ((Nat.add_le_add_left hbytes _).trans h)
          · exact .inr h
        · exact ht.outside x (List.mem_of_mem_erase hx) hxe
      · rcases List.mem_cons.mp hx with rfl | hx
        · cases hxe
        · exact hearly x (List.mem_of_mem_erase hx) hxe
    · have hnew : newSize ≤ pageBytes ⟨newSize, b.layout.align⟩ :=
        size_le_pageBytes ⟨newSize, b.layout.align⟩
      have hin : i < (⟨.page, b.ptr, pageBytes ⟨newSize, b.layout.align⟩⟩ : Held).size := by
        dsimp only
        omega
      exact pools.touch_held List.mem_cons_self hin

/-- What `realloc` does when it returns. -/
structure Reallocates (pools : Pools area) (m m' : Machine) (b : Block) (newSize ptr : ℕ) :
    Prop where
  routes : ∃ pol : Policy area,
    DefaultAlloc.realloc pol m.base b.ptr b.layout newSize = .ok (ptr, m'.base)
  tidy : m'.Tidy area
  contents : ∀ i < min b.layout.size newSize, m'.heap.mem (ptr + i) = m.heap.mem (b.ptr + i)
  can : CanRealloc pools m b newSize

include ht hs hb hsize in
/-- A block that stays with its allocator. -/
theorem reallocWith_ok (hl : LayoutOk newSize b.layout.align)
    (hnew : getNewAllocType m.base ⟨newSize, b.layout.align⟩ =
      getExistingAllocType area m.base b.ptr b.layout)
    (h : reallocWith pools m (getExistingAllocType area m.base b.ptr b.layout) b.ptr b.layout
      newSize = .ok (ptr, m')) : Reallocates pools m m' b newSize ptr := by
  have hnull : unwrapNonNull b.ptr = .ok () := ensure_pos (hs.ne_null _ hb)
  have hroutes : ∀ pol : Policy area, DefaultAlloc.reallocWith pol m.base
      (getExistingAllocType area m.base b.ptr b.layout) b.ptr b.layout newSize =
        .ok (ptr, m'.base) →
      DefaultAlloc.realloc pol m.base b.ptr b.layout newSize = .ok (ptr, m'.base) := by
    intro pol hwith
    rw [DefaultAlloc.realloc]
    dsimp only
    rw [ensure_pos hl, ok_bind, if_pos hnew, hnull, ok_bind]
    exact hwith
  cases hold : getExistingAllocType area m.base b.ptr b.layout with
  | early =>
      rw [hold] at h hnew hroutes
      obtain ⟨⟨pol, hwith⟩, htidy, hcontents, htop⟩ := reallocWith_early_ok ht hb hold h
      refine ⟨⟨pol, hroutes pol hwith⟩, htidy, hcontents, fun _ => htop, fun hpage => ?_,
        fun hne => absurd ⟨hnew.trans hold.symm, fun hpage => ?_⟩ hne⟩
      · cases hnew.symm.trans hpage
      · cases hold.symm.trans hpage
  | slab c =>
      rw [hold] at h hnew hroutes
      obtain ⟨hwith, rfl, rfl⟩ := reallocWith_slab_ok h
      refine ⟨⟨_, hroutes _ hwith⟩, ht, fun _ _ => rfl, fun hearly => ?_, fun hpage => ?_,
        fun hne => absurd ⟨hnew.trans hold.symm, fun hpage => ?_⟩ hne⟩
      · cases hold.symm.trans (types_of_useEarlyAlloc hearly b.layout b.ptr).2
      · cases hnew.symm.trans hpage
      · cases hold.symm.trans hpage
  | page =>
      rw [hold] at h hnew hroutes
      obtain ⟨hwith, htidy, hcontents, halign, hpages⟩ :=
        reallocWith_page_ok ht hs hb hsize hold h
      refine ⟨⟨_, hroutes _ hwith⟩, htidy, hcontents, fun hearly => ?_,
        fun _ => ⟨halign.le, fun _ => halign.ne⟩, fun hne => ?_⟩
      · cases hold.symm.trans (types_of_useEarlyAlloc hearly b.layout b.ptr).2
      · rw [hnew]
        exact hpages fun hle => hne ⟨hnew.trans hold.symm, fun _ => hle⟩

/-- A block moves to another allocator only after the early mode, and not to the early pool. -/
theorem late_of_moves (hnew : getNewAllocType m.base ⟨newSize, b.layout.align⟩ ≠
      getExistingAllocType area m.base b.ptr b.layout) :
    m.base.useEarlyAlloc ≠ true ∧ getNewAllocType m.base ⟨newSize, b.layout.align⟩ ≠ .early := by
  have hlate : m.base.useEarlyAlloc ≠ true := fun hearly =>
    have htypes := @types_of_useEarlyAlloc area _ hearly
    hnew ((htypes ⟨newSize, b.layout.align⟩ 0).1.trans (htypes b.layout b.ptr).2.symm)
  exact ⟨hlate, fun h => hlate (useEarlyAlloc_of_new h)⟩

include ht hs hpos hb hsize in
/-- The new block of a block that moves to another allocator, before the old one is given
back. -/
theorem alloc_of_moves {m₁ : Machine}
    (hnew : getNewAllocType m.base ⟨newSize, b.layout.align⟩ ≠
      getExistingAllocType area m.base b.ptr b.layout)
    (halloc : alloc pools m ⟨newSize, b.layout.align⟩ = .ok (ptr, m₁)) :
    Placed pools m m₁ ⟨newSize, b.layout.align⟩
        (getNewAllocType m.base ⟨newSize, b.layout.align⟩) ptr ∧
      (m₁.copy b.ptr ptr (min b.layout.size newSize)).Tidy area ∧
      backing area m₁.base b = backing area m.base b ∧ backing area m₁.base b ∈ m₁.base.held ∧
      min b.layout.size newSize ≤ backingSize ⟨newSize, b.layout.align⟩
        (getNewAllocType m.base ⟨newSize, b.layout.align⟩) := by
  have hne := (late_of_moves hnew).2
  have hplaced := (alloc_ok ht hs hpos hsize halloc).2.2 hne
  obtain ⟨-, hout, htidy⟩ := hplaced.tidy ht hs hne hsize
  have hroom : min b.layout.size newSize ≤ backingSize ⟨newSize, b.layout.align⟩
      (getNewAllocType m.base ⟨newSize, b.layout.align⟩) :=
    (Nat.min_le_right _ _).trans (@size_le_backingSize_of_new ⟨newSize, b.layout.align⟩ _ hne)
  have hbacking : backing area m₁.base b = backing area m.base b := by
    rw [hplaced.eq_give]
    rfl
  refine ⟨hplaced, @Machine.Tidy.copy _ _ htidy b.ptr _ _ _ hout hroom, hbacking, ?_, hroom⟩
  rw [hbacking, hplaced.eq_give]
  exact List.mem_cons_of_mem _ hb

include ht hs hpos hb hsize in
/-- A block that moves to another allocator. -/
theorem realloc_moved_ok {m₁ : Machine} (hl : LayoutOk newSize b.layout.align)
    (hnew : getNewAllocType m.base ⟨newSize, b.layout.align⟩ ≠
      getExistingAllocType area m.base b.ptr b.layout)
    (halloc : alloc pools m ⟨newSize, b.layout.align⟩ = .ok (ptr, m₁))
    (hfree : dealloc pools (m₁.copy b.ptr ptr (min b.layout.size newSize)) b.ptr b.layout =
      .ok m') : Reallocates pools m m' b newSize ptr := by
  obtain ⟨hlate, hne⟩ := late_of_moves hnew
  obtain ⟨⟨pol, hroutes⟩, -, -⟩ := alloc_ok ht hs hpos hsize halloc
  obtain ⟨hplaced, hcopied, hbacking, hheld, hroom⟩ :=
    alloc_of_moves ht hs hpos hb hsize hnew halloc
  obtain ⟨hfresh, hout, -⟩ := hplaced.tidy ht hs hne hsize
  have hold : min b.layout.size newSize ≤ (backing area m.base b).size :=
    (Nat.min_le_left _ _).trans size_le_backingSize
  obtain ⟨hbase, htidy', hwrites⟩ := dealloc_ok hcopied hheld hfree
  refine ⟨⟨pol, ?_⟩, htidy', fun i hi => ?_, fun hearly => absurd hearly hlate,
    fun hpage => ⟨hplaced.align hpage, fun hold => absurd (hpage.trans hold.symm) hnew⟩,
    fun _ => hplaced.unmapped⟩
  · rw [DefaultAlloc.realloc]
    dsimp only
    rw [ensure_pos hl, ok_bind, if_neg hnew, hroutes, ok_bind]
    dsimp only
    exact bind_eq_ok.mpr ⟨_, hbase, rfl⟩
  · rcases hwrites with ⟨hmem, hin⟩ | htake
    · have hoff : ptr + i < b.ptr ∨ b.ptr + b.layout.size ≤ ptr + i := by
        rcases hout with h | h <;> omega
      rw [hmem _ hoff]
      refine (Bytes.copy_add hi).trans ?_
      rw [hplaced.eq_give]
      exact pools.touch_held hb (Nat.lt_of_lt_of_le hi hold)
    · have hbacking' : backing area (m₁.copy b.ptr ptr (min b.layout.size newSize)).base b =
          backing area m.base b := hbacking
      rw [hbacking'] at htake
      exact hplaced.move_contents hb hfresh hold hroom htake hi

include ht hs hpos hb hsize in
/-- **`realloc`**, when it returns, is a call of the allocator without its memory, and keeps the
contents of the block. -/
theorem realloc_ok (h : realloc pools m b.ptr b.layout newSize = .ok (ptr, m')) :
    Reallocates pools m m' b newSize ptr := by
  rw [realloc] at h
  obtain ⟨_, hl, h⟩ := bind_eq_ok.mp h
  have hl := ensure_eq_ok.mp (lift_eq_ok.mp hl)
  dsimp only at h
  split at h
  · rename_i hnew
    obtain ⟨_, -, h⟩ := bind_eq_ok.mp h
    exact reallocWith_ok ht hs hb hsize hl hnew h
  · rename_i hnew
    obtain ⟨⟨p, m₁⟩, halloc, h⟩ := bind_eq_ok.mp h
    obtain ⟨m₂, hfree, h⟩ := bind_eq_ok.mp h
    cases h
    exact realloc_moved_ok ht hs hpos hb hsize hl hnew halloc hfree

/-- The pools have room for a fresh block. -/
def EnoughMemory (pools : Pools area) (m : Machine) (layout : Layout) : Prop :=
  LayoutOk layout.size layout.align ∧
    match getNewAllocType m.base layout with
    | .early => ∃ r, Early.alloc area m.heap layout.size layout.align = .ok r
    | t => ∃ ptr, pools.place t (backingSize layout t) (placeAlign t) m.base.held = some ptr

include ht hb in
/-- A block of the early pool that need not grow, or is at the top, is returned. -/
theorem reallocWith_early_returns
    (hold : getExistingAllocType area m.base b.ptr b.layout = .early) (hnull : b.ptr ≠ 0)
    (htop : b.layout.size < newSize → m.heap.mark = b.ptr + fullSize b.layout.size)
    (hroom : ∃ r, Early.alloc area m.heap newSize b.layout.align = .ok r) :
    ∃ ptr m', reallocWith pools m .early b.ptr b.layout newSize = .ok (ptr, m') := by
  rw [backing, hold] at hb
  have hheld : ⟨.early, b.ptr, b.layout.size⟩ ∈ m.base.held := hb
  obtain ⟨pool, align, hpool, hblock, -⟩ := ht.block hheld
  obtain ⟨⟨p, heap⟩, hfresh⟩ := hroom
  have hend := Early.alloc_room hfresh
  obtain ⟨heap', hearly⟩ := @Early.Sound.realloc_returns _ _ _ _ newSize hpool hblock fun hlt => by
    have hmark := htop hlt
    dsimp only
    omega
  obtain ⟨m', hrealloc⟩ : ∃ m', earlyRealloc area m b.ptr b.layout.size newSize =
      .ok (b.ptr, m') := by
    rw [earlyRealloc, lift_eq_ok.mpr (check_eq_ok hheld), ok_bind, mapError_eq_ok.mpr hearly,
      ok_bind]
    dsimp only
    rw [if_neg hnull, lift_eq_ok.mpr (take_eq_ok hheld), ok_bind]
    exact ⟨_, rfl⟩
  refine ⟨b.ptr, m', ?_⟩
  rw [reallocWith]
  dsimp only
  rw [hrealloc, ok_bind]
  dsimp only
  rw [unwrapNonNull, lift_eq_ok.mpr (ensure_pos hnull), ok_bind]
  rfl

include hb in
/-- A slab allocator returns its block. -/
theorem reallocWith_slab_returns {c : SlabClass} (hl : LayoutOk newSize b.layout.align)
    (hold : getExistingAllocType area m.base b.ptr b.layout = .slab c)
    (hnew : getNewAllocType m.base ⟨newSize, b.layout.align⟩ = .slab c) :
    ∃ ptr m', reallocWith pools m (.slab c) b.ptr b.layout newSize = .ok (ptr, m') := by
  rw [backing, hold] at hb
  have hheld : ⟨.slab c, b.ptr, c.objectSize⟩ ∈ m.base.held := hb
  have hle := max_le_objectSize hnew
  refine ⟨b.ptr, m, ?_⟩
  rw [reallocWith]
  dsimp only
  rw [slabGrow, lift_eq_ok.mpr (slabGrow_eq_ok hheld hl hle), slabShrink,
    lift_eq_ok.mpr (slabShrink_eq_ok hheld hl hle), ite_self]
  rfl

/-- The page allocator hands out a block where it has room, unless it refuses the alignment or
finds a page that is still mapped. -/
theorem pageAllocate_returns (halign : layout.align ≤ pageSize)
    (hplace : pools.place .page (pageBytes layout) pageSize m.base.held = some ptr)
    (hpages : ∀ page ∈ pagesFor pools m layout .page, page ∉ m.leftover) :
    pageAllocate pools m layout = .ok (some ptr, m.give pools .page ptr (pageBytes layout)) := by
  rw [pagesFor, hplace] at hpages
  rw [pageAllocate, if_neg (Nat.not_lt.mpr halign), hplace]
  dsimp only
  rw [ensure_pos hpages, ok_bind]

include hb in
/-- The page allocator returns a block below its largest alignment. -/
theorem reallocWith_page_returns (halign : b.layout.align < pageSize)
    (hold : getExistingAllocType area m.base b.ptr b.layout = .page)
    (hplace : pools.place .page (pageBytes ⟨newSize, b.layout.align⟩) pageSize m.base.held =
      some ptr)
    (hpages : ¬ Layout.numPages ⟨newSize, b.layout.align⟩ ≤ b.layout.numPages →
      ∀ page ∈ pagesFor pools m ⟨newSize, b.layout.align⟩ .page, page ∉ m.leftover) :
    ∃ ptr m', reallocWith pools m .page b.ptr b.layout newSize = .ok (ptr, m') := by
  rw [backing, hold] at hb
  have hheld : ⟨.page, b.ptr, pageBytes b.layout⟩ ∈ m.base.held := hb
  have hcheck := lift_eq_ok.mpr (check_eq_ok hheld)
  have hrefuse : ¬ pageSize ≤ b.layout.align := Nat.not_le.mpr halign
  rw [reallocWith]
  dsimp only
  split
  · rename_i hle
    rw [pageGrow, hcheck, ok_bind, if_neg hrefuse]
    by_cases heq : Layout.numPages ⟨newSize, b.layout.align⟩ = b.layout.numPages
    · rw [if_pos heq]
      exact ⟨_, _, rfl⟩
    · have hmono : b.layout.numPages ≤ Layout.numPages ⟨newSize, b.layout.align⟩ :=
        @numPages_mono b.layout.size b.layout.align ⟨newSize, b.layout.align⟩ hle
      have hunmapped := hpages (by omega)
      have hreturns : pageAllocate pools m ⟨newSize, b.layout.align⟩ =
          .ok (some ptr, m.give pools .page ptr (pageBytes ⟨newSize, b.layout.align⟩)) :=
        pageAllocate_returns halign.le hplace hunmapped
      rw [if_neg heq, hreturns, ok_bind]
      have hheld' : ⟨.page, b.ptr, pageBytes b.layout⟩ ∈ ((m.give pools .page ptr
          (pageBytes ⟨newSize, b.layout.align⟩)).copy b.ptr ptr b.layout.size).base.held :=
        List.mem_cons_of_mem _ hheld
      obtain ⟨m', hfree⟩ := take_returns pools hheld'
      dsimp only
      rw [pageDeallocate, hfree]
      exact ⟨_, _, rfl⟩
  · rw [pageShrink, hcheck, ok_bind, if_neg hrefuse, lift_eq_ok.mpr (take_eq_ok hheld), ok_bind]
    exact ⟨_, _, rfl⟩

/-- `alloc` returns after the early mode, where there is room. -/
theorem alloc_returns (hne : getNewAllocType m.base layout ≠ .early)
    (hroom : EnoughMemory pools m layout)
    (halign : getNewAllocType m.base layout = .page → layout.align ≤ pageSize)
    (hpages : ∀ page ∈ pagesFor pools m layout (getNewAllocType m.base layout),
      page ∉ m.leftover) : ∃ ptr m', alloc pools m layout = .ok (ptr, m') := by
  obtain ⟨hl, hroom⟩ := hroom
  rw [alloc]
  cases htype : getNewAllocType m.base layout with
  | early => exact absurd htype hne
  | slab c =>
      rw [htype] at hroom hpages
      obtain ⟨ptr, hplace⟩ := hroom
      have hplace : pools.place (.slab c) c.objectSize c.objectSize m.base.held = some ptr := hplace
      have hle := max_le_objectSize htype
      have hfits : ¬ (c.objectSize < layout.size ∨
          nextMultipleOf c.objectSize layout.align ≠ c.objectSize) := by
        rw [nextMultipleOf_of_dvd (align_dvd_objectSize hl hle), not_or, Nat.not_lt]
        exact ⟨(Nat.le_max_left _ _).trans hle, fun h => h rfl⟩
      have hpages : ∀ page ∈ pools.newPages c m.base.held, page ∉ m.leftover := hpages
      dsimp only
      rw [slabAllocate, if_neg hfits, ensure_pos hpages, ok_bind, hplace]
      exact ⟨_, _, rfl⟩
  | page =>
      rw [htype] at hroom hpages
      obtain ⟨ptr, hplace⟩ := hroom
      dsimp only
      rw [pageAllocate_returns (halign htype) hplace hpages]
      exact ⟨_, _, rfl⟩

include ht hs hpos hb hsize in
/-- **`realloc` returns** where it can. -/
theorem realloc_returns (hroom : EnoughMemory pools m ⟨newSize, b.layout.align⟩)
    (hcan : CanRealloc pools m b newSize) :
    ∃ ptr m', realloc pools m b.ptr b.layout newSize = .ok (ptr, m') := by
  have hnull : b.ptr ≠ 0 := hs.ne_null _ hb
  obtain ⟨hl, hplace⟩ := id hroom
  dsimp only at hl
  rw [realloc]
  dsimp only
  rw [lift_eq_ok.mpr (ensure_pos hl), ok_bind]
  by_cases hnew : getNewAllocType m.base ⟨newSize, b.layout.align⟩ =
      getExistingAllocType area m.base b.ptr b.layout
  · rw [if_pos hnew, unwrapNonNull, lift_eq_ok.mpr (ensure_pos hnull), ok_bind]
    cases hold : getExistingAllocType area m.base b.ptr b.layout with
    | early =>
        rw [hnew.trans hold] at hplace
        exact reallocWith_early_returns ht hb hold hnull
          (hcan.top (useEarlyAlloc_of_new (hnew.trans hold))) hplace
    | slab c => exact reallocWith_slab_returns hb hl hold (hnew.trans hold)
    | page =>
        rw [hnew.trans hold] at hplace
        obtain ⟨ptr, hplace⟩ := hplace
        obtain ⟨hle, hne⟩ := hcan.align (hnew.trans hold)
        have hunmapped := hcan.unmapped
        rw [hnew.trans hold] at hunmapped
        exact reallocWith_page_returns hb (Nat.lt_of_le_of_ne hle (hne hold)) hold hplace
          fun hmore => hunmapped fun hstays => hmore (hstays.2 hold)
  · obtain ⟨ptr, m₁, halloc⟩ := alloc_returns (late_of_moves hnew).2 hroom
      (fun h => (hcan.align h).1) (hcan.unmapped fun hstays => hnew hstays.1)
    obtain ⟨-, hcopied, -, hheld, -⟩ := alloc_of_moves ht hs hpos hb hsize hnew halloc
    obtain ⟨m', hfree⟩ := dealloc_returns hcopied pools hheld hnull
    rw [if_neg hnew, halloc, ok_bind]
    dsimp only
    rw [hfree, ok_bind]
    exact ⟨ptr, m', rfl⟩

end Realloc

/-! ### Runs -/

/-- The invariant of the allocator with its memory. -/
structure System.Inv (area : ℕ) (sys : System) : Prop where
  routing : sys.routing.Inv area
  tidy : sys.mem.Tidy area

/-- **A call refines one of the allocator without its memory**, and keeps the blocks tidy. -/
theorem System.Inv.refines {sys sys' : System} (hinv : sys.Inv area) (hpos : 0 < area)
    {op : DefaultAlloc.Op} (hvalid : op.Valid sys.routing)
    (h : exec pools sys (.call op) = .ok sys') :
    (∃ pol : Policy area, DefaultAlloc.exec pol sys.routing op = .ok sys'.routing) ∧
      sys'.mem.Tidy area := by
  obtain ⟨hrouting, htidy⟩ := hinv
  have hsound : sys.mem.base.Sound area := hrouting.sound
  cases op with
  | alloc layout =>
      obtain ⟨⟨ptr, mem⟩, halloc, h⟩ := bind_eq_ok.mp h
      cases h
      obtain ⟨⟨pol, hroutes⟩, htidy', -⟩ := alloc_ok htidy hsound hpos hvalid.1 halloc
      exact ⟨⟨pol, bind_eq_ok.mpr ⟨_, hroutes, rfl⟩⟩, htidy'⟩
  | realloc b newSize =>
      obtain ⟨⟨ptr, mem⟩, hrealloc, h⟩ := bind_eq_ok.mp h
      cases h
      have hr := realloc_ok htidy hsound hpos (hrouting.mem_held hvalid.1) hvalid.2 hrealloc
      obtain ⟨pol, hroutes⟩ := hr.routes
      exact ⟨⟨pol, bind_eq_ok.mpr ⟨_, hroutes, rfl⟩⟩, hr.tidy⟩
  | dealloc b =>
      obtain ⟨mem, hfree, h⟩ := bind_eq_ok.mp h
      cases h
      obtain ⟨hroutes, htidy', -⟩ := dealloc_ok htidy (hrouting.mem_held hvalid) hfree
      exact ⟨⟨pools.toPolicy, bind_eq_ok.mpr ⟨_, hroutes, rfl⟩⟩, htidy'⟩
  | endEarlyAlloc =>
      cases h
      exact ⟨⟨pools.toPolicy, rfl⟩, htidy.ptrs, htidy.outside, htidy.pool⟩

/-- A caller writes to its block. -/
theorem System.Inv.store {sys : System} (hinv : sys.Inv area) {b : Block} (hb : b ∈ sys.live)
    {i : ℕ} (hi : i < b.layout.size) (v : UInt8) :
    System.Inv area ⟨{ sys.mem with
      heap := ⟨sys.mem.heap.mark, Function.update sys.mem.heap.mem (b.ptr + i) v⟩ }, sys.live⟩ := by
  obtain ⟨hrouting, htidy⟩ := hinv
  have hheld : backing area sys.mem.base b ∈ sys.mem.base.held := hrouting.mem_held hb
  have hfits : b.layout.size ≤ (backing area sys.mem.base b).size := size_le_backingSize
  refine ⟨hrouting, htidy.ptrs, htidy.outside, ?_⟩
  obtain ⟨pool, hpool, hearly⟩ := htidy.pool
  refine ⟨pool, ?_, hearly⟩
  by_cases howner : (backing area sys.mem.base b).owner = .early
  · obtain ⟨b', hb', hptr, hsize⟩ := hearly _ hheld howner
    have hi' : i < b'.size := by omega
    have hstore := hpool.store hb' hi' v
    rw [hptr] at hstore
    exact hstore
  · have hptr : (backing area sys.mem.base b).ptr = b.ptr := rfl
    have hout := htidy.outside _ hheld howner
    refine hpool.congr fun x hx hx' => Function.update_of_ne ?_ _ _
    rcases hout with h | h <;> omega

/-- Every step keeps the invariant. -/
theorem System.Inv.step {sys sys' : System} {op : Op} (hinv : sys.Inv area) (hpos : 0 < area)
    (hstep : Step area sys op sys') : sys'.Inv area := by
  obtain ⟨hvalid, pools, h⟩ := hstep
  cases op with
  | call op =>
      obtain ⟨⟨pol, hroutes⟩, htidy⟩ := hinv.refines hpos hvalid h
      exact ⟨((hinv.routing.exec pol hvalid).2 _ hroutes).1, htidy⟩
  | store b i v =>
      cases h
      exact hinv.store hvalid.1 hvalid.2 v

/-- The invariant holds before any call. -/
theorem System.Inv.init (hpos : 0 < area) (haligned : 4096 ∣ area) {heap : Heap}
    (hmark : heap.mark = area) : System.Inv area (.init heap) := by
  refine ⟨DefaultAlloc.System.Inv.init, List.nodup_nil, fun x hx => ?_, [],
    Early.Sound.init hpos haligned hmark, fun x hx => ?_⟩
  · cases hx
  · cases hx

/-- What `realloc` owes to its caller: a block that is aligned as before, has the new size, and
begins with the old contents. -/
def Works (pools : Pools area) (m : Machine) (b : Block) (newSize : ℕ) : Prop :=
  ∃ ptr m', realloc pools m b.ptr b.layout newSize = .ok (ptr, m') ∧ b.layout.align ∣ ptr ∧
    (∃ x ∈ m'.base.held, x.ptr = ptr ∧ newSize ≤ x.size) ∧
    ∀ i < min b.layout.size newSize, m'.heap.mem (ptr + i) = m.heap.mem (b.ptr + i)

/-- **When `realloc` works.** In every state that a run reaches, for every live block and every
new size that the pools have room for: `realloc` returns a block that is aligned as before, is
large enough and holds the old contents, exactly if a block of the early pool that is to grow
is at the top of the pool, the page allocator refuses no alignment, and no page for a fresh
block is still mapped. -/
theorem realloc_works_iff (hpos : 0 < area) (haligned : 4096 ∣ area) {heap : Heap}
    (hmark : heap.mark = area) {ops : List Op} {sys : System}
    (hruns : Runs (Step area) (.init heap) ops sys) (pools : Pools area) {b : Block}
    (hb : b ∈ sys.live) {newSize : ℕ} (hsize : newSize ≠ 0)
    (hroom : EnoughMemory pools sys.mem ⟨newSize, b.layout.align⟩) :
    Works pools sys.mem b newSize ↔ CanRealloc pools sys.mem b newSize := by
  have hinv : sys.Inv area := hruns.invariant (System.Inv.init hpos haligned hmark)
    fun _ _ _ hinv hstep => hinv.step hpos hstep
  have hsound : sys.mem.base.Sound area := hinv.routing.sound
  have hheld : backing area sys.mem.base b ∈ sys.mem.base.held := hinv.routing.mem_held hb
  constructor
  · rintro ⟨ptr, m', h, -⟩
    exact (realloc_ok hinv.tidy hsound hpos hheld hsize h).can
  · intro hcan
    obtain ⟨ptr, m', h⟩ := realloc_returns hinv.tidy hsound hpos hheld hsize hroom hcan
    have hr := realloc_ok hinv.tidy hsound hpos hheld hsize h
    have hexec : exec pools sys (.call (.realloc b newSize)) =
        .ok ⟨m', ⟨ptr, ⟨newSize, b.layout.align⟩⟩ :: sys.live.erase b⟩ :=
      bind_eq_ok.mpr ⟨_, h, rfl⟩
    have hstep : Step area sys (.call (.realloc b newSize))
        ⟨m', ⟨ptr, ⟨newSize, b.layout.align⟩⟩ :: sys.live.erase b⟩ := ⟨⟨hb, hsize⟩, pools, hexec⟩
    have hinv' := hinv.step hpos hstep
    have hheld' := hinv'.routing.mem_held List.mem_cons_self
    have hfits : newSize ≤ backingSize ⟨newSize, b.layout.align⟩
        (getExistingAllocType area m'.base ptr ⟨newSize, b.layout.align⟩) :=
      @size_le_backingSize area m'.base ptr ⟨newSize, b.layout.align⟩
    exact ⟨ptr, m', h, hinv'.routing.aligned _ List.mem_cons_self, ⟨_, hheld', rfl, hfits⟩,
      hr.contents⟩

/-- The early pool has room for a fresh block. -/
theorem enoughMemory_early (hearly : m.base.useEarlyAlloc = true)
    (hl : LayoutOk layout.size layout.align)
    (hroom : (Early.alloc area m.heap layout.size layout.align).isOk = true) :
    EnoughMemory pools m layout := by
  refine ⟨hl, ?_⟩
  rw [(@types_of_useEarlyAlloc area _ hearly layout 0).1]
  exact ⟨_, eq_ok_of_isOk hroom (0, m.heap)⟩

/-- In the early mode it only matters where the block is. -/
theorem canRealloc_early (hearly : m.base.useEarlyAlloc = true) {b : Block} {newSize : ℕ}
    (htop : b.layout.size < newSize → m.heap.mark = b.ptr + fullSize b.layout.size) :
    CanRealloc pools m b newSize := by
  have hnew := (@types_of_useEarlyAlloc area _ hearly ⟨newSize, b.layout.align⟩ 0).1
  refine ⟨fun _ => htop, fun hpage => ?_, fun _ page hmem => ?_⟩
  · cases hnew.symm.trans hpage
  · rw [hnew] at hmem
    cases hmem

/-- Pools that place every block on pages of its own, and write nothing. -/
def pagewisePools (area : ℕ) : Pools area where
  toPolicy := pagewise area
  newPages _ _ := []
  touch _ mem := mem
  outside {t size align held ptr} hne h := by
    have hplace : (if MeetsContract area t size align held (nextPage area t held) then
        some (nextPage area t held) else none) = some ptr := h
    split at hplace
    · cases hplace
      refine .inr ?_
      rw [nextPage, if_neg hne]
      exact Nat.le_add_right _ _
    · cases hplace
  touch_held _ _ := rfl
  touch_area _ _ := rfl

/-- The early mode with an empty memory. -/
def bootHeap : Heap := ⟨pageSize, fun _ => 0⟩

/-- The state after a call. -/
def after (sys : System) (op : Op) : System :=
  (exec (pagewisePools pageSize) sys op).toOption.getD sys

/-- A block of eight bytes in the early pool. -/
def oneBlock : System := after (.init bootHeap) (.call (.alloc ⟨8, 8⟩))

/-- Two blocks of eight bytes in the early pool. -/
def twoBlocks : System := after oneBlock (.call (.alloc ⟨8, 8⟩))

/-- A valid call that returns is a step. -/
theorem step_after {sys : System} {op : Op} (hvalid : op.Valid sys)
    (h : (exec (pagewisePools pageSize) sys op).isOk = true) :
    Step pageSize sys op (after sys op) :=
  ⟨hvalid, pagewisePools pageSize, eq_ok_of_isOk h sys⟩

/-- The first block. -/
theorem runs_oneBlock : Runs (Step pageSize) (.init bootHeap) [.call (.alloc ⟨8, 8⟩)] oneBlock :=
  Runs.cons (step_after ⟨by decide, by decide⟩ (by decide +kernel)) .refl

/-- The theorem for a block at the top of the early pool, that grows to twice its size. -/
theorem realloc_works_iff_topmost :
    ∃ sys, Runs (Step pageSize) (.init bootHeap) [.call (.alloc ⟨8, 8⟩)] sys ∧
      Works (pagewisePools pageSize) sys.mem ⟨pageSize, ⟨8, 8⟩⟩ 16 := by
  have hroom : (Early.alloc pageSize oneBlock.mem.heap 16 8).isOk = true := by decide +kernel
  have hmem : ⟨pageSize, ⟨8, 8⟩⟩ ∈ oneBlock.live := by decide +kernel
  have htop : oneBlock.mem.heap.mark = pageSize + fullSize 8 := by decide +kernel
  have hearly : oneBlock.mem.base.useEarlyAlloc = true := by decide +kernel
  have hmark : bootHeap.mark = pageSize := rfl
  have hfresh : EnoughMemory (pagewisePools pageSize) oneBlock.mem ⟨16, 8⟩ :=
    enoughMemory_early hearly (by decide) hroom
  have hiff := realloc_works_iff (by decide) (by decide) hmark runs_oneBlock
    (pagewisePools pageSize) hmem (by decide) hfresh
  exact ⟨_, runs_oneBlock, hiff.mpr (canRealloc_early hearly fun _ => htop)⟩

/-- **`realloc` panics** for a block of the early pool that is not at the top: two blocks of
eight bytes are allocated, and the first one is to grow to sixteen. There is room for a fresh
block of this size. -/
theorem realloc_panics :
    ∃ sys, Runs (Step pageSize) (.init bootHeap)
        [.call (.alloc ⟨8, 8⟩), .call (.alloc ⟨8, 8⟩)] sys ∧
      ⟨pageSize, ⟨8, 8⟩⟩ ∈ sys.live ∧ EnoughMemory (pagewisePools pageSize) sys.mem ⟨16, 8⟩ ∧
      realloc (pagewisePools pageSize) sys.mem pageSize ⟨8, 8⟩ 16 =
        .error (.call .unwrapNull) ∧
      ¬ Works (pagewisePools pageSize) sys.mem ⟨pageSize, ⟨8, 8⟩⟩ 16 := by
  have hruns : Runs (Step pageSize) (.init bootHeap)
      [.call (.alloc ⟨8, 8⟩), .call (.alloc ⟨8, 8⟩)] twoBlocks :=
    runs_oneBlock.snoc (step_after ⟨by decide, by decide⟩ (by decide +kernel))
  have hroom : (Early.alloc pageSize twoBlocks.mem.heap 16 8).isOk = true := by decide +kernel
  have hmem : ⟨pageSize, ⟨8, 8⟩⟩ ∈ twoBlocks.live := by decide +kernel
  have hpanics : panicOf (realloc (pagewisePools pageSize) twoBlocks.mem pageSize ⟨8, 8⟩ 16) =
      some (.call .unwrapNull) := by decide +kernel
  have hearly : twoBlocks.mem.base.useEarlyAlloc = true := by decide +kernel
  refine ⟨_, hruns, hmem, enoughMemory_early hearly (by decide) hroom,
    eq_error_of_panicOf hpanics, ?_⟩
  rintro ⟨ptr, m', h, -⟩
  cases (eq_error_of_panicOf hpanics).symm.trans h

end HydroxKernel.DefaultAlloc.Memory
