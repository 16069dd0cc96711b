import HydroxKernel.Mem.Early
import HydroxKernel.Mem.PageAlloc

/-!
# The Global Allocator

`DefaultAlloc` is the allocator of the kernel's own `Box` and `Vec`. At first it takes blocks
from the early pool, and later from the slab allocators of nine size classes or from the page
allocator. It does not record which one a block came from, but computes it again from the
block's address and its layout.

The backing allocators are known by their contracts only. `held` lists the blocks that they
have handed out, each with the allocator that it came from. A backing allocator places a new
block where it likes, aligned as it promises and apart from all blocks that are held, and it
may only be given a block of its own, with the size that the block has: anything else is
undefined behaviour, and the panic `foreign` stands for it. What the slab and page allocators
check of a layout, and what they do in place, is as in the code.

## Main definitions

* `getNewAllocType` and `getExistingAllocType`: the allocator that a call is routed to.
* `alloc`, `dealloc` and `realloc`: the calls.
-/

namespace HydroxKernel.DefaultAlloc

open HydroxKernel.PageAlloc (Layout pageSize)
open HydroxKernel.Early (earlyAllocSize)

/-- The size classes: `SLAB_8` to `SLAB_2048`. -/
inductive SlabClass
  | slab8
  | slab16
  | slab32
  | slab64
  | slab128
  | slab256
  | slab512
  | slab1024
  | slab2048
  deriving DecidableEq

/-- `SlabAlloc::OBJECT_SIZE`. -/
def SlabClass.objectSize : SlabClass → ℕ
  | slab8 => 8
  | slab16 => 16
  | slab32 => 32
  | slab64 => 64
  | slab128 => 128
  | slab256 => 256
  | slab512 => 512
  | slab1024 => 1024
  | slab2048 => 2048

/-- `AllocType`. -/
inductive AllocType
  | early
  | slab (c : SlabClass)
  | page
  deriving DecidableEq

/-- The ways in which a call can fail to return. -/
inductive Panic
  /-- `handle_alloc_error`. -/
  | allocError
  /-- A panic of the early pool: it is out of memory. -/
  | outOfEarlyMemory
  /-- `NonNull::new(..).unwrap()` of null. -/
  | unwrapNull
  /-- The `unwrap` of `Layout::from_size_align`. -/
  | badLayout
  /-- A backing allocator is given a block that it does not hold, or the wrong size of it. -/
  | foreign
  deriving DecidableEq

/-- A block that a backing allocator has handed out. -/
structure Held where
  owner : AllocType
  ptr : ℕ
  size : ℕ
  deriving DecidableEq

/-- The blocks lie apart. -/
def Held.Apart (b : Held) (ptr size : ℕ) : Prop := b.ptr + b.size ≤ ptr ∨ ptr + size ≤ b.ptr

instance (b : Held) (ptr size : ℕ) : Decidable (b.Apart ptr size) :=
  inferInstanceAs (Decidable (_ ∨ _))

/-- `USE_EARLY_ALLOC`, and the blocks that are held. -/
structure State where
  useEarlyAlloc : Bool
  held : List Held
  deriving DecidableEq

/-- `is_in_early_alloc_region`, for an `EARLY_ALLOC_AREA` at `area`. -/
def IsInEarlyAllocRegion (area ptr : ℕ) : Prop := area ≤ ptr ∧ ptr < area + earlyAllocSize

instance (area ptr : ℕ) : Decidable (IsInEarlyAllocRegion area ptr) :=
  inferInstanceAs (Decidable (_ ∧ _))

/-- What a backing allocator promises of a new block: it is not null, it is aligned, it lies
apart from all blocks that are held, and it is in the early area exactly if the early pool
places it. -/
def MeetsContract (area : ℕ) (t : AllocType) (size align : ℕ) (held : List Held) (ptr : ℕ) : Prop :=
  ptr ≠ 0 ∧ align ∣ ptr ∧ (∀ b ∈ held, b.Apart ptr size) ∧
    (IsInEarlyAllocRegion area ptr ↔ t = .early)

instance (area : ℕ) (t : AllocType) (size align : ℕ) (held : List Held) (ptr : ℕ) :
    Decidable (MeetsContract area t size align held ptr) :=
  inferInstanceAs (Decidable (_ ∧ _))

/-- What the backing allocators do: where they place a block, if they have room for it, and
whether the early pool has room to grow a block in place. -/
structure Policy (area : ℕ) where
  place : AllocType → ℕ → ℕ → List Held → Option ℕ
  growsInPlace : List Held → ℕ → ℕ → Bool
  contract : ∀ {t size align held ptr}, place t size align held = some ptr →
    MeetsContract area t size align held ptr

variable {area : ℕ}

/-! ### The backing allocators -/

/-- A backing allocator hands out a block. -/
def State.give (s : State) (t : AllocType) (ptr size : ℕ) : State :=
  { s with held := ⟨t, ptr, size⟩ :: s.held }

/-- A backing allocator is given a block. -/
def State.check (s : State) (t : AllocType) (ptr size : ℕ) : Except Panic Unit :=
  ensure (⟨t, ptr, size⟩ ∈ s.held) .foreign

/-- A backing allocator takes a block back. -/
def State.take (s : State) (t : AllocType) (ptr size : ℕ) : Except Panic State := do
  s.check t ptr size
  return { s with held := s.held.erase ⟨t, ptr, size⟩ }

/-- `early::alloc`. -/
def earlyAlloc (pol : Policy area) (s : State) (size align : ℕ) : Except Panic (ℕ × State) :=
  match pol.place .early size (max align 4) s.held with
  | some ptr => .ok (ptr, s.give .early ptr size)
  | none => .error .outOfEarlyMemory

/-- `early::realloc`, with the null pointer as 0. -/
def earlyRealloc (pol : Policy area) (s : State) (ptr oldSize newSize : ℕ) :
    Except Panic (ℕ × State) := do
  s.check .early ptr oldSize
  if oldSize < newSize ∧ pol.growsInPlace s.held ptr newSize = false then return (0, s)
  else
    let s ← s.take .early ptr oldSize
    return (ptr, s.give .early ptr newSize)

/-- `usize::next_multiple_of`. -/
def nextMultipleOf (n m : ℕ) : ℕ := if n % m = 0 then n else n + (m - n % m)

/-- `SlabAlloc::allocate`. -/
def slabAllocate (pol : Policy area) (s : State) (c : SlabClass) (layout : Layout) :
    Option ℕ × State :=
  if c.objectSize < layout.size ∨ nextMultipleOf c.objectSize layout.align ≠ c.objectSize then
    (none, s)
  else
    match pol.place (.slab c) c.objectSize c.objectSize s.held with
    | some ptr => (some ptr, s.give (.slab c) ptr c.objectSize)
    | none => (none, s)

/-- `SlabAlloc::deallocate`. -/
def slabDeallocate (s : State) (c : SlabClass) (ptr : ℕ) : Except Panic State :=
  s.take (.slab c) ptr c.objectSize

/-- `SlabAlloc::grow`. -/
def slabGrow (s : State) (c : SlabClass) (ptr : ℕ) (newLayout : Layout) :
    Except Panic (Option ℕ × State) := do
  s.check (.slab c) ptr c.objectSize
  if c.objectSize < newLayout.size ∨ nextMultipleOf c.objectSize newLayout.align ≠ c.objectSize then
    return (none, s)
  else return (some ptr, s)

/-- `SlabAlloc::shrink`. -/
def slabShrink (s : State) (c : SlabClass) (ptr : ℕ) (newLayout : Layout) :
    Except Panic (Option ℕ × State) := do
  s.check (.slab c) ptr c.objectSize
  if nextMultipleOf c.objectSize newLayout.align ≠ c.objectSize then return (none, s)
  else return (some ptr, s)

/-- The number of bytes of the pages that `PageBasedAlloc` takes for a layout. -/
def pageBytes (layout : Layout) : ℕ := layout.numPages * pageSize

/-- `PageBasedAlloc::allocate`, for a layout that is not empty. -/
def pageAllocate (pol : Policy area) (s : State) (layout : Layout) : Option ℕ × State :=
  if pageSize < layout.align then (none, s)
  else
    match pol.place .page (pageBytes layout) pageSize s.held with
    | some ptr => (some ptr, s.give .page ptr (pageBytes layout))
    | none => (none, s)

/-- `PageBasedAlloc::deallocate`. -/
def pageDeallocate (s : State) (ptr : ℕ) (layout : Layout) : Except Panic State :=
  s.take .page ptr (pageBytes layout)

/-- `PageBasedAlloc::grow`. -/
def pageGrow (pol : Policy area) (s : State) (ptr : ℕ) (oldLayout newLayout : Layout) :
    Except Panic (Option ℕ × State) := do
  s.check .page ptr (pageBytes oldLayout)
  if pageSize ≤ newLayout.align then return (none, s)
  else if newLayout.numPages = oldLayout.numPages then return (some ptr, s)
  else
    match pageAllocate pol s newLayout with
    | (none, s) => return (none, s)
    | (some newPtr, s) =>
        let s ← pageDeallocate s ptr oldLayout
        return (some newPtr, s)

/-- `PageBasedAlloc::shrink`. The pages at the end of the block are given back. -/
def pageShrink (s : State) (ptr : ℕ) (oldLayout newLayout : Layout) :
    Except Panic (Option ℕ × State) := do
  s.check .page ptr (pageBytes oldLayout)
  if pageSize ≤ newLayout.align then return (none, s)
  else
    let s ← s.take .page ptr (pageBytes oldLayout)
    return (some ptr, s.give .page ptr (pageBytes newLayout))

/-! ### Routing -/

/-- The allocator for a size, once the early pool is no longer used. -/
def allocTypeOfSize (n : ℕ) : AllocType :=
  if n ≤ 8 then .slab .slab8
  else if n ≤ 16 then .slab .slab16
  else if n ≤ 32 then .slab .slab32
  else if n ≤ 64 then .slab .slab64
  else if n ≤ 128 then .slab .slab128
  else if n ≤ 256 then .slab .slab256
  else if n ≤ 512 then .slab .slab512
  else if n ≤ 1024 then .slab .slab1024
  else if n ≤ 2048 then .slab .slab2048
  else .page

/-- `get_new_alloc_type`. -/
def getNewAllocType (s : State) (layout : Layout) : AllocType :=
  if s.useEarlyAlloc then .early else allocTypeOfSize (max layout.size layout.align)

/-- `get_existing_alloc_type`. -/
def getExistingAllocType (area : ℕ) (s : State) (ptr : ℕ) (layout : Layout) : AllocType :=
  if IsInEarlyAllocRegion area ptr then .early else getNewAllocType s layout

/-! ### The calls -/

/-- Unwraps the result of a backing allocator. -/
def unwrapAlloc : Option ℕ × State → Except Panic (ℕ × State)
  | (some ptr, s) => .ok (ptr, s)
  | (none, _) => .error .allocError

/-- `NonNull::new(..).unwrap()`. -/
def unwrapNonNull (ptr : ℕ) : Except Panic Unit := ensure (ptr ≠ 0) .unwrapNull

/-- `DefaultAlloc::alloc`. -/
def alloc (pol : Policy area) (s : State) (layout : Layout) : Except Panic (ℕ × State) :=
  match getNewAllocType s layout with
  | .early => do
      let (ptr, s) ← earlyAlloc pol s layout.size layout.align
      unwrapNonNull ptr
      return (ptr, s)
  | .slab c => unwrapAlloc (slabAllocate pol s c layout)
  | .page => unwrapAlloc (pageAllocate pol s layout)

/-- `DefaultAlloc::dealloc`. -/
def dealloc (area : ℕ) (s : State) (ptr : ℕ) (layout : Layout) : Except Panic State := do
  unwrapNonNull ptr
  match getExistingAllocType area s ptr layout with
  | .early => s.take .early ptr layout.size
  | .slab c => slabDeallocate s c ptr
  | .page => pageDeallocate s ptr layout

/-- `Layout::from_size_align`, where a layout is valid. -/
def LayoutOk (size align : ℕ) : Prop := (∃ k ≤ 63, align = 2 ^ k) ∧ size + (align - 1) < 2 ^ 63

instance (size align : ℕ) : Decidable (LayoutOk size align) := inferInstanceAs (Decidable (_ ∧ _))

/-- `DefaultAlloc::realloc`, where the block stays with its allocator: the inner function
`realloc` for the slab and page allocators, and `early::realloc`. -/
def reallocWith (pol : Policy area) (s : State) (t : AllocType) (ptr : ℕ) (layout : Layout)
    (newSize : ℕ) : Except Panic (ℕ × State) :=
  match t with
  | .early => do
      let (ptr, s) ← earlyRealloc pol s ptr layout.size newSize
      unwrapNonNull ptr
      return (ptr, s)
  | .slab c => do
      let r ← if layout.size ≤ newSize then slabGrow s c ptr ⟨newSize, layout.align⟩
        else slabShrink s c ptr ⟨newSize, layout.align⟩
      unwrapAlloc r
  | .page => do
      let r ← if layout.size ≤ newSize then pageGrow pol s ptr layout ⟨newSize, layout.align⟩
        else pageShrink s ptr layout ⟨newSize, layout.align⟩
      unwrapAlloc r

/-- `DefaultAlloc::realloc`. -/
def realloc (pol : Policy area) (s : State) (ptr : ℕ) (layout : Layout) (newSize : ℕ) :
    Except Panic (ℕ × State) := do
  let oldTy := getExistingAllocType area s ptr layout
  ensure (LayoutOk newSize layout.align) .badLayout
  let newTy := getNewAllocType s ⟨newSize, layout.align⟩
  if newTy = oldTy then do
    unwrapNonNull ptr
    reallocWith pol s (getExistingAllocType area s ptr layout) ptr layout newSize
  else
    let (newPtr, s) ← alloc pol s ⟨newSize, layout.align⟩
    let s ← dealloc area s ptr layout
    return (newPtr, s)

/-! ### The allocator and its callers -/

/-- A block that a caller holds, with its current layout. -/
structure Block where
  ptr : ℕ
  layout : Layout
  deriving DecidableEq

/-- The allocator and the live blocks. -/
structure System where
  mem : State
  live : List Block
  deriving DecidableEq

/-- The early mode, before any call. -/
def System.init : System := ⟨⟨true, []⟩, []⟩

/-- The calls to the allocator, and `set_use_early_alloc(false)`. -/
inductive Op
  | alloc (layout : Layout)
  | realloc (b : Block) (newSize : ℕ)
  | dealloc (b : Block)
  | endEarlyAlloc

/-- What a caller promises: sizes are not zero, and live blocks are passed back with their
current layout. The early pool is left once. -/
def Op.Valid (sys : System) : Op → Prop
  | .alloc layout => layout.size ≠ 0 ∧ LayoutOk layout.size layout.align
  | .realloc b newSize => b ∈ sys.live ∧ newSize ≠ 0
  | .dealloc b => b ∈ sys.live
  | .endEarlyAlloc => sys.mem.useEarlyAlloc = true

/-- The effect of a call. -/
def exec (pol : Policy area) (sys : System) : Op → Except Panic System
  | .alloc layout => do
      let (ptr, mem) ← alloc pol sys.mem layout
      return ⟨mem, ⟨ptr, layout⟩ :: sys.live⟩
  | .realloc b newSize => do
      let (ptr, mem) ← realloc pol sys.mem b.ptr b.layout newSize
      return ⟨mem, ⟨ptr, ⟨newSize, b.layout.align⟩⟩ :: sys.live.erase b⟩
  | .dealloc b => do
      let mem ← dealloc area sys.mem b.ptr b.layout
      return ⟨mem, sys.live.erase b⟩
  | .endEarlyAlloc => .ok ⟨{ sys.mem with useEarlyAlloc := false }, sys.live⟩

end HydroxKernel.DefaultAlloc
