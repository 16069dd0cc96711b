import Mathlib.Data.List.Basic
import Mathlib.Logic.Function.Basic
import HydroxKernel.Lib.Assert
import HydroxKernel.Arch.Page

/-!
# The Page-Based Allocator

`PageBasedAlloc` hands out whole pages of kernel memory: it takes a region of virtual memory
from the virtual allocator and frames from the frame allocator, and maps the ones to the
others in the page tables of the kernel.

The virtual allocator is the set of its free pages, together with a policy that says which
region it hands out. The frame allocator is a stack. The page tables have three levels below
the fourth, whose tables are made when they are first needed and are never given back; no
page of the virtual allocator lies under a huge page, so there are none. Addresses are
natural numbers and pages are named by their number. The contents of memory are left out.

A block is what a caller of the allocator holds: a pointer and its current layout. `System`
puts the live blocks next to the allocator.
-/

namespace HydroxKernel.PageAlloc

/-- `PAGE_SIZE`. -/
def pageSize : ℕ := 4096

/-- The number of entries of a page table. -/
def tableSize : ℕ := 512

/-- The number of the first page of the higher half, at address `0xffff800000000000`. -/
def higherHalf : ℕ := 0xffff800000000

/-- `Layout`. -/
structure Layout where
  size : ℕ
  align : ℕ
  deriving DecidableEq

/-- The number of pages that a layout needs: `size.div_ceil(PAGE_SIZE)`. -/
def Layout.numPages (layout : Layout) : ℕ := (layout.size + (pageSize - 1)) / pageSize

/-- The ways in which an operation can fail to return. -/
inductive Panic
  /-- The `assert_eq!` of `allocate`: the page is already mapped. -/
  | alreadyMapped
  /-- The `unwrap` of `get_page`: the page is not mapped. -/
  | notMapped
  /-- "bad address for page mapping". -/
  | badAddress
  /-- "set_page_kernel can only be used on higher-half virtual addresses". -/
  | lowerHalf
  /-- "out of memory": there is no frame for a page table. -/
  | outOfMemory
  /-- The `assert!` of `VirtualAllocator::free`: the region is not page-aligned. -/
  | unaligned
  /-- "Attempt to free already free virtual region". -/
  | alreadyFree
  /-- A loop does not end. -/
  | diverged
  deriving DecidableEq

/-- The free pages of the virtual allocator, the frames of the frame allocator from the top of
the stack, and the page tables: for every level, which tables there are, and the entries of
the lowest tables, with their flags. The levels are counted from `0`, so `tables 2` are the L3
tables of the source. -/
structure State where
  free : ℕ → Bool
  frames : List ℕ
  tables : ℕ → ℕ → Bool
  entries : ℕ → Option ℕ
  flags : ℕ → Page.PageFlags

/-- Which region the virtual allocator hands out for a number of pages. All pages of the
region are free. -/
structure Policy where
  choose : (ℕ → Bool) → ℕ → Option ℕ
  sound : ∀ {free n page}, choose free n = some page → ∀ k < n, free (page + k) = true

/-! ### The virtual allocator -/

/-- `VirtualAllocator::alloc`, in pages. -/
def virtAlloc (pol : Policy) (s : State) (n : ℕ) : Option (ℕ × State) :=
  match pol.choose s.free n with
  | some page =>
      some (page * pageSize,
        { s with free := fun q => if page ≤ q ∧ q < page + n then false else s.free q })
  | none => none

/-- `VirtualAllocator::free` of the `n` pages from the address `start`. -/
def virtFree (s : State) (start n : ℕ) : Except Panic State := do
  ensure (start % pageSize = 0) .unaligned
  ensure (∀ k < n, s.free (start / pageSize + k) = false) .alreadyFree
  .ok { s with
    free := fun q =>
      if start / pageSize ≤ q ∧ q < start / pageSize + n then true else s.free q }

/-! ### The frame allocator -/

/-- `alloc_one`. -/
def allocOne (s : State) : Option (ℕ × State) :=
  match s.frames with
  | [] => none
  | frame :: frames => some (frame, { s with frames := frames })

/-- `alloc_many`. -/
def allocMany (s : State) (n : ℕ) : Option (List ℕ × State) :=
  if s.frames.length < n then none
  else some (s.frames.take n, { s with frames := s.frames.drop n })

/-- `free_many`. -/
def freeMany (s : State) (frames : List ℕ) : State :=
  { s with frames := frames.reverse ++ s.frames }

/-! ### The page tables -/

/-- The table of a level that is responsible for a page. -/
def tableOf (level page : ℕ) : ℕ := page / tableSize ^ (level + 1)

/-- The frame that a page is mapped to. -/
def lookup (s : State) (page : ℕ) : Option ℕ :=
  if s.tables 2 (tableOf 2 page) = true ∧ s.tables 1 (tableOf 1 page) = true ∧
      s.tables 0 (tableOf 0 page) = true then
    s.entries page
  else none

/-- The address that `AddressSpace::get_page` returns. -/
def getPage (s : State) (addr : ℕ) : Option ℕ :=
  (lookup s (addr / pageSize)).map (· + addr % pageSize)

/-- `AddressSpace::get_page`, with the flags. -/
def getPageFlags (s : State) (addr : ℕ) : Option (ℕ × Page.PageFlags) :=
  (getPage s addr).map fun phys => (phys, s.flags (addr / pageSize))

/-- `PageFlags::WRITEABLE`. -/
def writeable : Page.PageFlags := ⟨false, true, false⟩

/-- The part of `set_page_internal` that makes the table of a level for a page if there is
none. All entries of a new table are empty. -/
def makeTable (level : ℕ) (s : State) (page : ℕ) : Except Panic State :=
  if s.tables level (tableOf level page) = true then .ok s
  else
    match allocOne s with
    | none => .error .outOfMemory
    | some (_, s) =>
        .ok { s with
          tables := fun l q =>
            if l = level ∧ q = tableOf level page then true
            else if l + 1 = level ∧ q / tableSize = tableOf level page then false
            else s.tables l q
          entries := fun q =>
            if level = 0 ∧ q / tableSize = tableOf level page then none else s.entries q }

/-- `AddressSpace::set_page_internal`. -/
def setPageInternal (s : State) (addr : ℕ) (mapping : Option (ℕ × Page.PageFlags)) :
    Except Panic State := do
  ensure (addr % pageSize = 0) .badAddress
  let page := addr / pageSize
  match mapping with
  | some (frame, flags) =>
      let s ← makeTable 2 s page
      let s ← makeTable 1 s page
      let s ← makeTable 0 s page
      .ok { s with
        entries := Function.update s.entries page (some frame)
        flags := Function.update s.flags page flags }
  | none =>
      if s.tables 2 (tableOf 2 page) = false then .ok s
      else if s.tables 1 (tableOf 1 page) = false then .ok s
      else if s.tables 0 (tableOf 0 page) = false then .ok s
      else .ok { s with entries := Function.update s.entries page none }

/-- `AddressSpace::set_page_kernel`. -/
def setPageKernel (s : State) (addr : ℕ) (mapping : Option (ℕ × Page.PageFlags)) :
    Except Panic State := do
  ensure (higherHalf * pageSize ≤ addr) .lowerHalf
  setPageInternal s addr mapping

/-! ### Loops -/

/-- The loop of `allocate` over the frames of a batch. -/
def mapFrames (start : ℕ) : ℕ → List ℕ → State → Except Panic State
  | _, [], s => .ok s
  | done, frame :: frames, s => do
      ensure (getPage s (start + done * pageSize) = none) .alreadyMapped
      let s ← setPageKernel s (start + done * pageSize) (some (frame, writeable))
      mapFrames start (done + 1) frames s

/-- The loop that collects the frames of a batch of pages, and unmaps the pages if asked to. -/
def collect (unmap : Bool) (start : ℕ) : ℕ → ℕ → State → Except Panic (List ℕ × State)
  | _, 0, s => .ok ([], s)
  | done, n + 1, s =>
      match getPage s (start + done * pageSize) with
      | none => .error .notMapped
      | some frame => do
          let s ← if unmap then setPageKernel s (start + done * pageSize) none else .ok s
          let (frames, s) ← collect unmap start (done + 1) n s
          .ok (frame :: frames, s)

/-- The loop that gives back the frames of pages in batches of sixteen. It makes at most one
round for every page and one more. -/
def releaseLoop (unmap : Bool) (start numPages : ℕ) : ℕ → ℕ → State → Except Panic State
  | 0, _, _ => .error .diverged
  | fuel + 1, done, s =>
      if done < numPages then do
        let batch := min (numPages - done) 16
        let (frames, s) ← collect unmap start done batch s
        releaseLoop unmap start numPages fuel (done + batch) (freeMany s frames)
      else .ok s

/-- Gives back the frames of the `numPages` pages from the address `start`. -/
def release (unmap : Bool) (s : State) (start numPages : ℕ) : Except Panic State :=
  releaseLoop unmap start numPages (numPages + 1) 0 s

/-- The loop of `allocate` that unmaps the first pages of a region. -/
def unmapPages (start : ℕ) : ℕ → State → Except Panic State
  | 0, s => .ok s
  | n + 1, s => do
      let s ← unmapPages start n s
      setPageKernel s (start + n * pageSize) none

/-- The way out of `allocate` when there are not enough frames: everything is undone. -/
def undo (s : State) (start done numPages : ℕ) : Except Panic State := do
  let s ← release false s start done
  let s ← unmapPages start done s
  virtFree s start numPages

/-- The main loop of `allocate`. It returns whether there were enough frames. -/
def allocLoop (start numPages : ℕ) : ℕ → ℕ → State → Except Panic (Bool × State)
  | 0, _, _ => .error .diverged
  | fuel + 1, done, s =>
      if done < numPages then
        let batch := min (numPages - done) 16
        match allocMany s batch with
        | none => do
            let s ← undo s start done numPages
            .ok (false, s)
        | some (frames, s) => do
            let s ← mapFrames start done frames s
            allocLoop start numPages fuel (done + batch) s
      else .ok (true, s)

/-! ### The allocator -/

/-- The address of `NonNull::dangling`. -/
def dangling : ℕ := 1

/-- `PageBasedAlloc::allocate`. The result is `none` for an `AllocError`. -/
def allocate (pol : Policy) (s : State) (layout : Layout) : Except Panic (Option ℕ × State) :=
  if layout.size = 0 then .ok (some dangling, s)
  else if pageSize < layout.align then .ok (none, s)
  else
    match virtAlloc pol s layout.numPages with
    | none => .ok (none, s)
    | some (start, s) => do
        let (done, s) ← allocLoop start layout.numPages (layout.numPages + 1) 0 s
        .ok (if done then some start else none, s)

/-- `PageBasedAlloc::deallocate`. -/
def deallocate (s : State) (ptr : ℕ) (layout : Layout) : Except Panic State := do
  let s ← release true s ptr layout.numPages
  virtFree s ptr layout.numPages

/-- `PageBasedAlloc::grow`. -/
def grow (pol : Policy) (s : State) (ptr : ℕ) (oldLayout newLayout : Layout) :
    Except Panic (Option ℕ × State) :=
  if pageSize ≤ newLayout.align then .ok (none, s)
  else if newLayout.numPages = oldLayout.numPages then .ok (some ptr, s)
  else do
    match ← allocate pol s newLayout with
    | (none, s) => .ok (none, s)
    | (some newPtr, s) =>
        let s ← deallocate s ptr oldLayout
        .ok (some newPtr, s)

/-- `PageBasedAlloc::shrink`. -/
def shrink (s : State) (ptr : ℕ) (oldLayout newLayout : Layout) :
    Except Panic (Option ℕ × State) :=
  if pageSize ≤ newLayout.align then .ok (none, s)
  else if newLayout.numPages = oldLayout.numPages then .ok (some ptr, s)
  else do
    let endPtr := ptr + newLayout.numPages * pageSize
    let s ← release false s endPtr (oldLayout.numPages - newLayout.numPages)
    let s ← virtFree s endPtr (oldLayout.numPages - newLayout.numPages)
    .ok (some ptr, s)

/-! ### The allocator and its callers -/

/-- A block of memory that a caller holds. -/
structure Block where
  ptr : ℕ
  layout : Layout
  deriving DecidableEq

/-- A page lies inside a block. -/
def Block.HasPage (b : Block) (page : ℕ) : Prop :=
  ∃ k < b.layout.numPages, page = b.ptr / pageSize + k

/-- The allocator and the live blocks. -/
structure System where
  mem : State
  live : List Block

/-- The calls to the allocator. -/
inductive Op
  | allocate (layout : Layout)
  | deallocate (b : Block)
  | grow (b : Block) (layout : Layout)
  | shrink (b : Block) (layout : Layout)

/-- The contract of the `Allocator` trait: blocks are passed back with the layout they
currently have, and grow and shrink to larger and smaller sizes. -/
def Op.Valid (sys : System) : Op → Prop
  | .allocate _ => True
  | .deallocate b => b ∈ sys.live
  | .grow b layout => b ∈ sys.live ∧ b.layout.size ≤ layout.size
  | .shrink b layout => b ∈ sys.live ∧ layout.size ≤ b.layout.size

/-- The block that a call returns. -/
def System.put (mem : State) (live : List Block) (ptr : Option ℕ) (layout : Layout)
    (failed : List Block) : System :=
  match ptr with
  | some ptr => ⟨mem, ⟨ptr, layout⟩ :: live⟩
  | none => ⟨mem, failed⟩

/-- The effect of a call. A failed call leaves the block of its caller as it is. -/
def exec (pol : Policy) (sys : System) : Op → Except Panic System
  | .allocate layout => do
      let (ptr, mem) ← allocate pol sys.mem layout
      .ok (.put mem sys.live ptr layout sys.live)
  | .deallocate b => do
      let mem ← deallocate sys.mem b.ptr b.layout
      .ok ⟨mem, sys.live.erase b⟩
  | .grow b layout => do
      let (ptr, mem) ← grow pol sys.mem b.ptr b.layout layout
      .ok (.put mem (sys.live.erase b) ptr layout sys.live)
  | .shrink b layout => do
      let (ptr, mem) ← shrink sys.mem b.ptr b.layout layout
      .ok (.put mem (sys.live.erase b) ptr layout sys.live)

end HydroxKernel.PageAlloc
