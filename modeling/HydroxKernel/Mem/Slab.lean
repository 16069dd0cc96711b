import Mathlib.Logic.Function.Basic
import HydroxKernel.Util.BitVector

/-!
# Slab Allocators

A slab allocator hands out objects of one size. It cuts blocks of pages, the slabs, into
objects, and keeps for every slab a `SlabInfo` with a bitmap of its free objects. The
`SlabInfo` is the first object of the slab if `OWN_INFO` is set, and otherwise an object of
the slab allocator `SLAB_INFO`, which itself has `OWN_INFO` set. Two lists run through the
slabs of an allocator, one through all of them and one through those with free objects.

The model has any family of slab allocators that share `SLAB_INFO` and the page allocator:
`some i` is a member of the family and `none` is `SLAB_INFO`. Addresses are natural numbers,
and memory is what can be read from it as a `SlabInfo` at an address. The page allocator is
the list of its live blocks, together with a policy that says which block it hands out; every
call may come with a policy of its own.

An object is what a caller of an allocator holds. `System` puts the live objects next to the
allocators.
-/

namespace HydroxKernel.Slab

open Util

/-- `PAGE_SIZE`. -/
def pageSize : ℕ := 4096

/-- The size of a `SlabInfo`: three pointers, a counter of two bytes and a bitmap of 64 bytes,
rounded up to the alignment of a pointer. -/
def slabInfoSize : ℕ := 96

/-- The alignment of a `SlabInfo`. -/
def slabInfoAlign : ℕ := 8

/-- `pages_per_slab`. -/
def pagesPerSlab (size : ℕ) : ℕ :=
  if 2048 ≤ size then 4 else if 1024 ≤ size then 3 else if 512 ≤ size then 2 else 1

/-- The parameters of a slab allocator. Objects are smaller than a page, which `pages_per_slab`
asserts, and not smaller than a pointer. With `OWN_INFO`, `SlabAlloc::new` asserts that a
`SlabInfo` fits into an object and is aligned there. -/
structure SlabAlloc where
  objectSize : ℕ
  ownInfo : Bool
  size_ge : 8 ≤ objectSize
  size_lt : objectSize < pageSize
  own_size : ownInfo = true → slabInfoSize ≤ objectSize
  own_align : ownInfo = true → objectSize % slabInfoAlign = 0

/-- `SLAB_SIZE`. -/
def SlabAlloc.slabSize (c : SlabAlloc) : ℕ := pagesPerSlab c.objectSize * pageSize

/-- `OBJECTS_PER_SLAB`. -/
def SlabAlloc.objectsPerSlab (c : SlabAlloc) : ℕ := c.slabSize / c.objectSize

/-- `SLAB_INFO`. -/
def slabInfoAlloc : SlabAlloc :=
  ⟨slabInfoSize, true, by decide, by decide, fun _ => le_rfl, fun _ => rfl⟩

/-- The ways in which an operation can fail to return. -/
inductive Panic
  /-- "slab in freelist has no free slots". -/
  | noFreeSlots
  /-- "attempt to free misaligned pointer". -/
  | misaligned
  /-- "double free detected". -/
  | doubleFree
  /-- "attempt to free pointer in the wrong slab allocator". -/
  | wrongAllocator
  /-- A panic of the bitmap. -/
  | bits (e : BitPanic)
  /-- An arithmetic overflow. -/
  | overflow
  /-- A loop does not end. -/
  | diverged
  deriving DecidableEq

/-- `SlabInfo`. -/
structure SlabInfo where
  ptr : ℕ
  next : Option ℕ
  nextFree : Option ℕ
  numFree : ℕ
  free : FixedBitVector 512

/-- `SlabList`. -/
structure SlabList where
  first : Option ℕ
  firstFree : Option ℕ

/-- A block of the page allocator. -/
structure Block where
  start : ℕ
  size : ℕ
  deriving DecidableEq

/-- Two blocks do not overlap. -/
def Block.Apart (b b' : Block) : Prop := b.start + b.size ≤ b'.start ∨ b'.start + b'.size ≤ b.start

/-- Which block the page allocator hands out. It is page-aligned and overlaps no live block. -/
structure PagePolicy where
  choose : List Block → ℕ → Option ℕ
  aligned : ∀ {blocks size start}, choose blocks size = some start → start % pageSize = 0
  apart : ∀ {blocks size start}, choose blocks size = some start →
    ∀ b ∈ blocks, Block.Apart ⟨start, size⟩ b

/-- The slab lists of the allocators, memory, and the live blocks of the page allocator. -/
structure State (ι : Type) where
  lists : Option ι → SlabList
  infos : ℕ → SlabInfo
  blocks : List Block

variable {ι : Type} [DecidableEq ι]

/-- The parameters of an allocator. -/
def config (allocs : ι → SlabAlloc) : Option ι → SlabAlloc
  | none => slabInfoAlloc
  | some i => allocs i

/-! ### Primitives -/

/-- Writes a `SlabInfo`. -/
def State.write (s : State ι) (addr : ℕ) (info : SlabInfo) : State ι :=
  { s with infos := Function.update s.infos addr info }

/-- Writes the slab list of an allocator. -/
def State.setList (s : State ι) (a : Option ι) (list : SlabList) : State ι :=
  { s with lists := Function.update s.lists a list }

/-- `PageBasedAlloc::allocate`. -/
def pageAllocate (pol : PagePolicy) (s : State ι) (size : ℕ) : Option (ℕ × State ι) :=
  match pol.choose s.blocks size with
  | some start => some (start, { s with blocks := ⟨start, size⟩ :: s.blocks })
  | none => none

/-- `PageBasedAlloc::deallocate`. -/
def pageDeallocate (s : State ι) (b : Block) : State ι := { s with blocks := s.blocks.erase b }

/-- `SlabInfo::new`. -/
def SlabInfo.new (ptr n : ℕ) : Except Panic SlabInfo := do
  let free ← ((FixedBitVector.new 512 false).setRange .unbounded (.excluded n) true).mapError .bits
  .ok ⟨ptr, none, none, n, free⟩

/-- `get_obj`. -/
def SlabInfo.getObj (info : SlabInfo) (idx size : ℕ) : ℕ := info.ptr + idx * size

/-! ### Allocating -/

/-- The end of `alloc`: takes an object from a slab that has free ones. -/
def takeObject (c : SlabAlloc) (a : Option ι) (s : State ι) (slab : ℕ) :
    Except Panic (Option ℕ × State ι) :=
  let firstFree := s.infos slab
  match firstFree.free.findNext 0 with
  | none => .error .noFreeSlots
  | some idx => do
      let (_, free) ← (firstFree.free.set idx false).mapError .bits
      ensure (firstFree.numFree ≠ 0) .overflow
      let info := { firstFree with free := free, numFree := firstFree.numFree - 1 }
      let s :=
        if info.numFree = 0 then
          (s.setList a { s.lists a with firstFree := info.nextFree }).write slab
            { info with nextFree := none }
        else s.write slab info
      .ok (some (info.getObj idx c.objectSize), s)

/-- The part of `alloc` that puts a new slab at the front of both lists. -/
def linkSlab (a : Option ι) (s : State ι) (slab : ℕ) (info : SlabInfo) : State ι :=
  (s.write slab { info with
      next := (s.lists a).first
      nextFree := (s.lists a).firstFree }).setList a ⟨some slab, some slab⟩

/-- `SlabAllocLock::alloc`, given `alloc` of `SLAB_INFO`. -/
def allocWith (allocInfo : State ι → Except Panic (Option ℕ × State ι)) (pol : PagePolicy)
    (c : SlabAlloc) (a : Option ι) (s : State ι) : Except Panic (Option ℕ × State ι) :=
  match (s.lists a).firstFree with
  | some slab => takeObject c a s slab
  | none =>
      match pageAllocate pol s c.slabSize with
      | none => .ok (none, s)
      | some (ptr, s) =>
          if c.ownInfo then do
            let info ← SlabInfo.new ptr (c.objectsPerSlab % 2 ^ 16)
            let (_, free) ← (info.free.set 0 false).mapError .bits
            ensure (info.numFree ≠ 0) .overflow
            let info := { info with free := free, numFree := info.numFree - 1 }
            takeObject c a (linkSlab a s ptr info) ptr
          else do
            match ← allocInfo s with
            | (some slab, s) =>
                let info ← SlabInfo.new ptr (c.objectsPerSlab % 2 ^ 16)
                takeObject c a (linkSlab a s slab info) slab
            | (none, s) => .ok (none, pageDeallocate s ⟨ptr, c.slabSize⟩)

/-- `alloc` of `SLAB_INFO`, which never needs an object of another allocator. -/
def allocInfo (pol : PagePolicy) (s : State ι) : Except Panic (Option ℕ × State ι) :=
  allocWith (fun s => .ok (none, s)) pol slabInfoAlloc none s

/-- `alloc` of an allocator of the family. -/
def alloc (allocs : ι → SlabAlloc) (pol : PagePolicy) (s : State ι) (i : ι) :
    Except Panic (Option ℕ × State ι) :=
  allocWith (allocInfo pol) pol (allocs i) (some i) s

/-! ### Freeing -/

/-- The part of `free` for the slab that the pointer lies in. -/
def freeObject (c : SlabAlloc) (a : Option ι) (s : State ι) (slab ptr : ℕ) :
    Except Panic (State ι) := do
  let info := s.infos slab
  let slabOff := ptr - info.ptr
  let idx := slabOff / c.objectSize
  ensure (slabOff = idx * c.objectSize) .misaligned
  let (old, free) ← (info.free.set idx true).mapError .bits
  ensure (old = false) .doubleFree
  ensure (info.numFree + 1 < 2 ^ 16) .overflow
  let info := { info with free := free, numFree := info.numFree + 1 }
  if info.numFree = 1 then
    .ok ((s.write slab { info with nextFree := (s.lists a).firstFree }).setList a
      { s.lists a with firstFree := some slab })
  else .ok (s.write slab info)

/-- The loop of `free` over the slabs. -/
def freeLoop (c : SlabAlloc) (a : Option ι) (s : State ι) (ptr : ℕ) :
    ℕ → Option ℕ → Except Panic (State ι)
  | 0, _ => .error .diverged
  | _ + 1, none => .error .wrongAllocator
  | fuel + 1, some slab =>
      if (s.infos slab).ptr ≤ ptr ∧ ptr < (s.infos slab).ptr + c.slabSize then
        freeObject c a s slab ptr
      else freeLoop c a s ptr fuel (s.infos slab).next

/-- `SlabAllocLock::free`. There are not more slabs than blocks of the page allocator. -/
def free (allocs : ι → SlabAlloc) (s : State ι) (i : ι) (ptr : ℕ) : Except Panic (State ι) :=
  freeLoop (allocs i) (some i) s ptr (s.blocks.length + 1) (s.lists (some i)).first

/-! ### Counting -/

/-- The loop of `count`. -/
def countLoop (c : SlabAlloc) (s : State ι) :
    ℕ → Option ℕ → ℕ → ℕ → Except Panic (ℕ × ℕ)
  | 0, _, _, _ => .error .diverged
  | _ + 1, none, total, free => do
      ensure (free ≤ total) .overflow
      .ok (total - free, total)
  | fuel + 1, some slab, total, free =>
      countLoop c s fuel (s.infos slab).next (total + c.objectsPerSlab)
        (free + (s.infos slab).numFree)

/-- `SlabAllocLock::count`. -/
def count (allocs : ι → SlabAlloc) (s : State ι) (i : ι) : Except Panic (ℕ × ℕ) :=
  countLoop (allocs i) s (s.blocks.length + 1) (s.lists (some i)).first 0 0

/-! ### The allocators and their callers -/

/-- The allocators and the live objects, each with the allocator it is from. -/
structure System (ι : Type) where
  mem : State ι
  live : List (ι × ℕ)

/-- The calls to the allocators. -/
inductive Op (ι : Type)
  | alloc (i : ι) (pol : PagePolicy)
  | free (i : ι) (ptr : ℕ)

/-- Only live objects are given back, and to the allocator they are from. -/
def Op.Valid (sys : System ι) : Op ι → Prop
  | .alloc _ _ => True
  | .free i ptr => (i, ptr) ∈ sys.live

instance (sys : System ι) : DecidablePred (Op.Valid sys)
  | .alloc _ _ => inferInstanceAs (Decidable True)
  | .free i ptr => inferInstanceAs (Decidable ((i, ptr) ∈ sys.live))

/-- The effect of a call. -/
def exec (allocs : ι → SlabAlloc) (sys : System ι) : Op ι → Except Panic (System ι)
  | .alloc i pol => do
      let (ptr, mem) ← alloc allocs pol sys.mem i
      .ok ⟨mem, (ptr.map fun ptr => (i, ptr)).toList ++ sys.live⟩
  | .free i ptr => do
      let mem ← free allocs sys.mem i ptr
      .ok ⟨mem, sys.live.erase (i, ptr)⟩

end HydroxKernel.Slab
