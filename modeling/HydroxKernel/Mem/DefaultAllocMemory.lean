import HydroxKernel.Mem.DefaultAlloc
import HydroxKernel.Mem.EarlyCalls

/-!
# The Global Allocator with its Memory

The calls of `DefaultAlloc` once more, now with the contents of the memory and with the early
pool itself in place of its contract. The slab allocators and the page allocator are still
known by what they promise. They may write wherever no block is held.

Pages that `PageBasedAlloc::shrink` cuts off a block go back to the virtual allocator, but they
stay mapped. `PageBasedAlloc::allocate` asserts that the pages it is given are not mapped, and
so it panics when one of these comes back. The slab allocators take their pages there too.

## Main definitions

* `Pools`: the slab allocators and the page allocator.
* `alloc`, `dealloc` and `realloc`: the calls.
-/

namespace HydroxKernel.DefaultAlloc.Memory

open HydroxKernel.PageAlloc (Layout pageSize)
open HydroxKernel.Early (earlyAllocSize Heap)

/-- The ways in which a call can fail to return. -/
inductive Panic
  /-- A panic of the early pool. -/
  | early (e : Early.Panic)
  /-- A panic of `DefaultAlloc`, or a block that is not the backing allocator's own. -/
  | call (e : DefaultAlloc.Panic)
  /-- The `assert_eq!` of `PageBasedAlloc::allocate`: the page is already mapped. -/
  | alreadyMapped
  deriving DecidableEq

/-- A block lies outside of the early area. -/
def Outside (area ptr size : ℕ) : Prop := ptr + size ≤ area ∨ area + earlyAllocSize ≤ ptr

instance (area ptr size : ℕ) : Decidable (Outside area ptr size) :=
  inferInstanceAs (Decidable (_ ∨ _))

/-- What the slab allocators and the page allocator do: where they place a block, which pages a
slab allocator needs for a new slab, and what they write. They keep out of the early area and
of the blocks that are held. -/
structure Pools (area : ℕ) extends Policy area where
  newPages : SlabClass → List Held → List ℕ
  touch : List Held → Bytes → Bytes
  outside : ∀ {t size align held ptr}, t ≠ .early → place t size align held = some ptr →
    Outside area ptr size
  touch_held : ∀ {held : List Held} {mem x i}, x ∈ held → i < x.size →
    touch held mem (x.ptr + i) = mem (x.ptr + i)
  touch_area : ∀ {held : List Held} {mem a}, area ≤ a → a < area + earlyAllocSize →
    touch held mem a = mem a

/-- `USE_EARLY_ALLOC` and the held blocks, `EARLY_ALLOC_MARK` and the memory, and the pages
that are mapped although they belong to no block. -/
structure Machine where
  base : State
  heap : Heap
  leftover : List ℕ

variable {area : ℕ}

/-! ### The backing allocators -/

/-- Goes on with what does not concern the memory. -/
def lift {α : Type} (x : Except DefaultAlloc.Panic α) : Except Panic α := x.mapError .call

/-- A slab or page allocator has worked. -/
def Machine.touch (pools : Pools area) (m : Machine) : Machine :=
  { m with heap := ⟨m.heap.mark, pools.touch m.base.held m.heap.mem⟩ }

/-- A slab or page allocator hands out a block. -/
def Machine.give (pools : Pools area) (m : Machine) (t : AllocType) (ptr size : ℕ) : Machine :=
  { m.touch pools with base := m.base.give t ptr size }

/-- A slab or page allocator takes a block back. -/
def Machine.take (pools : Pools area) (m : Machine) (t : AllocType) (ptr size : ℕ) :
    Except Panic Machine := do
  let base ← lift (m.base.take t ptr size)
  return { m with base := base }.touch pools

/-- `ptr::copy_nonoverlapping`. -/
def Machine.copy (m : Machine) (src dst n : ℕ) : Machine :=
  { m with heap := ⟨m.heap.mark, m.heap.mem.copy src dst n⟩ }

/-- `early::alloc`. -/
def earlyAlloc (area : ℕ) (m : Machine) (size align : ℕ) : Except Panic (ℕ × Machine) := do
  let (ptr, heap) ← (Early.alloc area m.heap size align).mapError .early
  return (ptr, { m with base := m.base.give .early ptr size, heap := heap })

/-- `early::free`. -/
def earlyFree (m : Machine) (ptr size : ℕ) : Except Panic Machine := do
  let base ← lift (m.base.take .early ptr size)
  let heap ← (Early.free m.heap ptr size).mapError .early
  return { m with base := base, heap := heap }

/-- `early::realloc`, with the null pointer as 0. -/
def earlyRealloc (area : ℕ) (m : Machine) (ptr oldSize newSize : ℕ) :
    Except Panic (ℕ × Machine) := do
  lift (m.base.check .early ptr oldSize)
  let (newPtr, heap) ← (Early.realloc area m.heap ptr oldSize newSize).mapError .early
  if newPtr = 0 then return (0, { m with heap := heap })
  else
    let base ← lift (m.base.take .early ptr oldSize)
    return (newPtr, { m with base := base.give .early newPtr newSize, heap := heap })

/-- `SlabAlloc::allocate`. -/
def slabAllocate (pools : Pools area) (m : Machine) (c : SlabClass) (layout : Layout) :
    Except Panic (Option ℕ × Machine) :=
  if c.objectSize < layout.size ∨ nextMultipleOf c.objectSize layout.align ≠ c.objectSize then
    .ok (none, m)
  else do
    ensure (∀ page ∈ pools.newPages c m.base.held, page ∉ m.leftover) .alreadyMapped
    match pools.place (.slab c) c.objectSize c.objectSize m.base.held with
    | some ptr => .ok (some ptr, m.give pools (.slab c) ptr c.objectSize)
    | none => .ok (none, m)

/-- `SlabAlloc::deallocate`. -/
def slabDeallocate (pools : Pools area) (m : Machine) (c : SlabClass) (ptr : ℕ) :
    Except Panic Machine :=
  m.take pools (.slab c) ptr c.objectSize

/-- `SlabAlloc::grow`. -/
def slabGrow (m : Machine) (c : SlabClass) (ptr : ℕ) (newLayout : Layout) :
    Except Panic (Option ℕ × Machine) := do
  let (ptr, base) ← lift (DefaultAlloc.slabGrow m.base c ptr newLayout)
  return (ptr, { m with base := base })

/-- `SlabAlloc::shrink`. -/
def slabShrink (m : Machine) (c : SlabClass) (ptr : ℕ) (newLayout : Layout) :
    Except Panic (Option ℕ × Machine) := do
  let (ptr, base) ← lift (DefaultAlloc.slabShrink m.base c ptr newLayout)
  return (ptr, { m with base := base })

/-- The pages from an address on. -/
def pagesFrom (ptr n : ℕ) : List ℕ := (List.range n).map (ptr / pageSize + ·)

/-- `PageBasedAlloc::allocate`, for a layout that is not empty. -/
def pageAllocate (pools : Pools area) (m : Machine) (layout : Layout) :
    Except Panic (Option ℕ × Machine) :=
  if pageSize < layout.align then .ok (none, m)
  else
    match pools.place .page (pageBytes layout) pageSize m.base.held with
    | none => .ok (none, m)
    | some ptr => do
        ensure (∀ page ∈ pagesFrom ptr layout.numPages, page ∉ m.leftover) .alreadyMapped
        .ok (some ptr, m.give pools .page ptr (pageBytes layout))

/-- `PageBasedAlloc::deallocate`. -/
def pageDeallocate (pools : Pools area) (m : Machine) (ptr : ℕ) (layout : Layout) :
    Except Panic Machine :=
  m.take pools .page ptr (pageBytes layout)

/-- `PageBasedAlloc::grow`. -/
def pageGrow (pools : Pools area) (m : Machine) (ptr : ℕ) (oldLayout newLayout : Layout) :
    Except Panic (Option ℕ × Machine) := do
  lift (m.base.check .page ptr (pageBytes oldLayout))
  if pageSize ≤ newLayout.align then return (none, m)
  else if newLayout.numPages = oldLayout.numPages then return (some ptr, m)
  else
    match ← pageAllocate pools m newLayout with
    | (none, m) => return (none, m)
    | (some newPtr, m) =>
        let m ← pageDeallocate pools (m.copy ptr newPtr oldLayout.size) ptr oldLayout
        return (some newPtr, m)

/-- `PageBasedAlloc::shrink`. The pages at the end of the block are given back, but they stay
mapped. -/
def pageShrink (pools : Pools area) (m : Machine) (ptr : ℕ) (oldLayout newLayout : Layout) :
    Except Panic (Option ℕ × Machine) := do
  lift (m.base.check .page ptr (pageBytes oldLayout))
  if pageSize ≤ newLayout.align then return (none, m)
  else
    let base ← lift (m.base.take .page ptr (pageBytes oldLayout))
    let cut := pagesFrom (ptr + pageBytes newLayout) (oldLayout.numPages - newLayout.numPages)
    return (some ptr, { m with
      base := base.give .page ptr (pageBytes newLayout)
      leftover := cut ++ m.leftover }.touch pools)

/-! ### The calls -/

/-- Unwraps the result of a backing allocator. -/
def unwrapAlloc : Option ℕ × Machine → Except Panic (ℕ × Machine)
  | (some ptr, m) => .ok (ptr, m)
  | (none, _) => .error (.call .allocError)

/-- `DefaultAlloc::alloc`. -/
def alloc (pools : Pools area) (m : Machine) (layout : Layout) : Except Panic (ℕ × Machine) :=
  match getNewAllocType m.base layout with
  | .early => do
      let (ptr, m) ← earlyAlloc area m layout.size layout.align
      lift (unwrapNonNull ptr)
      return (ptr, m)
  | .slab c => do unwrapAlloc (← slabAllocate pools m c layout)
  | .page => do unwrapAlloc (← pageAllocate pools m layout)

/-- `DefaultAlloc::dealloc`. -/
def dealloc (pools : Pools area) (m : Machine) (ptr : ℕ) (layout : Layout) :
    Except Panic Machine := do
  lift (unwrapNonNull ptr)
  match getExistingAllocType area m.base ptr layout with
  | .early => earlyFree m ptr layout.size
  | .slab c => slabDeallocate pools m c ptr
  | .page => pageDeallocate pools m ptr layout

/-- `DefaultAlloc::realloc`, where the block stays with its allocator: the inner function
`realloc` for the slab and page allocators, and `early::realloc`. -/
def reallocWith (pools : Pools area) (m : Machine) (t : AllocType) (ptr : ℕ) (layout : Layout)
    (newSize : ℕ) : Except Panic (ℕ × Machine) :=
  match t with
  | .early => do
      let (ptr, m) ← earlyRealloc area m ptr layout.size newSize
      lift (unwrapNonNull ptr)
      return (ptr, m)
  | .slab c => do
      let r ← if layout.size ≤ newSize then slabGrow m c ptr ⟨newSize, layout.align⟩
        else slabShrink m c ptr ⟨newSize, layout.align⟩
      unwrapAlloc r
  | .page => do
      let r ← if layout.size ≤ newSize then pageGrow pools m ptr layout ⟨newSize, layout.align⟩
        else pageShrink pools m ptr layout ⟨newSize, layout.align⟩
      unwrapAlloc r

/-- `DefaultAlloc::realloc`. -/
def realloc (pools : Pools area) (m : Machine) (ptr : ℕ) (layout : Layout) (newSize : ℕ) :
    Except Panic (ℕ × Machine) := do
  let oldTy := getExistingAllocType area m.base ptr layout
  lift (ensure (LayoutOk newSize layout.align) .badLayout)
  let newTy := getNewAllocType m.base ⟨newSize, layout.align⟩
  if newTy = oldTy then do
    lift (unwrapNonNull ptr)
    reallocWith pools m (getExistingAllocType area m.base ptr layout) ptr layout newSize
  else
    let (newPtr, m) ← alloc pools m ⟨newSize, layout.align⟩
    let m ← dealloc pools (m.copy ptr newPtr (min layout.size newSize)) ptr layout
    return (newPtr, m)

/-! ### The allocator and its callers -/

/-- The allocator and the live blocks. -/
structure System where
  mem : Machine
  live : List Block

/-- The early mode, before any call. -/
def System.init (heap : Heap) : System := ⟨⟨⟨true, []⟩, heap, []⟩, []⟩

/-- The same system, without its memory. -/
def System.routing (sys : System) : DefaultAlloc.System := ⟨sys.mem.base, sys.live⟩

/-- The calls to the allocator, and what the callers write to their blocks. -/
inductive Op
  | call (op : DefaultAlloc.Op)
  | store (b : Block) (i : ℕ) (v : UInt8)

/-- What a caller promises. It writes to its live blocks only. -/
def Op.Valid (sys : System) : Op → Prop
  | .call op => op.Valid sys.routing
  | .store b i _ => b ∈ sys.live ∧ i < b.layout.size

/-- The effect of a call. -/
def exec (pools : Pools area) (sys : System) : Op → Except Panic System
  | .call (.alloc layout) => do
      let (ptr, mem) ← alloc pools sys.mem layout
      return ⟨mem, ⟨ptr, layout⟩ :: sys.live⟩
  | .call (.realloc b newSize) => do
      let (ptr, mem) ← realloc pools sys.mem b.ptr b.layout newSize
      return ⟨mem, ⟨ptr, ⟨newSize, b.layout.align⟩⟩ :: sys.live.erase b⟩
  | .call (.dealloc b) => do
      let mem ← dealloc pools sys.mem b.ptr b.layout
      return ⟨mem, sys.live.erase b⟩
  | .call .endEarlyAlloc =>
      .ok ⟨{ sys.mem with base := { sys.mem.base with useEarlyAlloc := false } }, sys.live⟩
  | .store b i v =>
      .ok ⟨{ sys.mem with
        heap := ⟨sys.mem.heap.mark, Function.update sys.mem.heap.mem (b.ptr + i) v⟩ }, sys.live⟩

/-- One valid call, with any slab and page allocators. -/
def Step (area : ℕ) (sys : System) (op : Op) (sys' : System) : Prop :=
  op.Valid sys ∧ ∃ pools : Pools area, exec pools sys op = .ok sys'

end HydroxKernel.DefaultAlloc.Memory
