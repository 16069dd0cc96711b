import Mathlib.Algebra.Group.Nat.Defs
import Mathlib.Data.List.Basic
import Mathlib.Logic.Function.Basic

/-!
# The Virtual Memory Allocator

`VirtualAllocator` keeps the free regions of an address space in an unrolled doubly
linked list: every page of the list holds up to `254` regions in increasing order. Pages
come from the frame allocator, are split when they overflow and combined when they run
low.

A region is the pair of its start and its end, as in the source. Pages are named by
their address; the null pointer is `none`. All of physical memory is mapped, so `pages`
is total: a page that was given back still reads as what was last written to it. Of the
region array of a page only the valid part is kept; `try_coalesce_at` reads slot `0` of
the following page without checking that it is valid, and that read of an empty page is
`Panic.staleRead`. The loops that follow `next` write nothing, so one that makes more
steps than there are pages in use never ends: that is `Panic.diverged`.
-/

namespace HydroxKernel.Virt

/-- The size of a page in bytes. -/
def pageSize : ℕ := 4096

/-- `REGIONS_PER_PAGE`: a header of `24` bytes leaves room for `254` regions of `16`. -/
def regionsPerPage : ℕ := (pageSize - 24) / 16

/-- `SPLIT_POINT`. -/
def splitPoint : ℕ := regionsPerPage / 2

/-- `VirtualAllocRegion`: the start of a region and the address one past its end. -/
abbrev VirtualAllocRegion := ℕ × ℕ

/-- `VirtualAllocPage`: the two links of the header and the valid regions. -/
structure VirtualAllocPage where
  prev : Option ℕ
  next : Option ℕ
  regions : List VirtualAllocRegion
  deriving DecidableEq

/-- The ways in which an operation can fail to return. -/
inductive Panic
  /-- The argument is not page-aligned. -/
  | unaligned
  /-- "Attempt to free already free virtual region". -/
  | alreadyFree
  /-- "Out of physical memory". -/
  | outOfFrames
  /-- A sum of an address and a size is no address. -/
  | nonCanonical
  /-- The start of a region is subtracted from a smaller end. -/
  | negativeSize
  /-- `range().unwrap()` of an empty page. -/
  | rangeUnwrap
  /-- The `assert!(!is_full())` of `insert_region`. -/
  | pageFull
  /-- The `assert!(is_full())` of `split`. -/
  | notFull
  /-- The `assert_eq!` of `combine_pages`. -/
  | nextMismatch
  /-- An index or a slice outside the region array. -/
  | indexOutOfBounds
  /-- A null pointer is dereferenced. -/
  | nullDeref
  /-- A region of an empty page is read. -/
  | staleRead
  /-- A loop does not end. -/
  | diverged
  deriving DecidableEq

/-- The allocator, the memory its pages live in, the frames the frame allocator would
hand out next, and the number of pages in use. -/
structure Mem where
  head : Option ℕ
  pages : ℕ → VirtualAllocPage
  frames : List ℕ
  live : ℕ

/-- `VirtualAllocator::new`, over given memory and frames. -/
def Mem.new (pages : ℕ → VirtualAllocPage) (frames : List ℕ) : Mem := ⟨none, pages, frames, 0⟩

/-- `header.prev` of a page. -/
def Mem.prev (m : Mem) (p : ℕ) : Option ℕ := (m.pages p).prev

/-- `header.next` of a page. -/
def Mem.next (m : Mem) (p : ℕ) : Option ℕ := (m.pages p).next

/-- `valid_regions` of a page. -/
def Mem.regions (m : Mem) (p : ℕ) : List VirtualAllocRegion := (m.pages p).regions

/-- `header.len()` of a page. -/
def Mem.len (m : Mem) (p : ℕ) : ℕ := (m.regions p).length

/-- Writes `header.prev`. -/
def Mem.setPrev (m : Mem) (p : ℕ) (q : Option ℕ) : Mem :=
  { m with pages := Function.update m.pages p { m.pages p with prev := q } }

/-- Writes `header.prev` of a page unless the pointer to it is null. -/
def Mem.relink (m : Mem) : Option ℕ → ℕ → Mem
  | some q, p => m.setPrev q (some p)
  | none, _ => m

/-- Writes `header.next`. -/
def Mem.setNext (m : Mem) (p : ℕ) (q : Option ℕ) : Mem :=
  { m with pages := Function.update m.pages p { m.pages p with next := q } }

/-- Writes the valid regions and their number. -/
def Mem.setRegions (m : Mem) (p : ℕ) (rs : List VirtualAllocRegion) : Mem :=
  { m with pages := Function.update m.pages p { m.pages p with regions := rs } }

/-- Indexes into a list of regions. -/
def getRegion (rs : List VirtualAllocRegion) (i : ℕ) : Except Panic VirtualAllocRegion :=
  match rs[i]? with
  | some r => .ok r
  | none => .error .indexOutOfBounds

/-- Dereferences a pointer. -/
def deref : Option ℕ → Except Panic ℕ
  | some p => .ok p
  | none => .error .nullDeref

/-- A canonical virtual address: bits `47` to `63` are all equal. -/
def isCanonical (a : ℕ) : Bool := a < 2 ^ 47 || (2 ^ 64 - 2 ^ 47 ≤ a && a < 2 ^ 64)

/-- `VirtAddr::new`, through which an address is added to. If the bits from `48` on are zero, they
become copies of bit `47`. -/
def newVirtAddr (a : ℕ) : Except Panic ℕ :=
  if isCanonical a then .ok a
  else if a < 2 ^ 48 then .ok (a + (2 ^ 64 - 2 ^ 48))
  else .error .nonCanonical

/-- `VirtualAllocRegion::size`. -/
def regionSize (r : VirtualAllocRegion) : Except Panic ℕ :=
  if r.1 ≤ r.2 then .ok (r.2 - r.1) else .error .negativeSize

/-- `VirtualAllocRegion::is_page_aligned`. -/
def isPageAligned (r : VirtualAllocRegion) : Bool := r.1 % pageSize = 0 && r.2 % pageSize = 0

/-! ### `VirtualAllocPage` -/

/-- `VirtualAllocPage::new`. -/
def newPage (m : Mem) : Except Panic (ℕ × Mem) :=
  match m.frames with
  | [] => .error .outOfFrames
  | p :: frames =>
      .ok (p, { m with
        pages := Function.update m.pages p ⟨none, none, []⟩
        frames := frames
        live := m.live + 1 })

/-- `VirtualAllocPage::free`. -/
def freePage (m : Mem) (p : ℕ) : Mem := { m with frames := p :: m.frames, live := m.live - 1 }

/-- `VirtualAllocPage::range`. -/
def range (rs : List VirtualAllocRegion) : Option VirtualAllocRegion :=
  match rs.head?, rs.getLast? with
  | some a, some b => some (a.1, b.2)
  | _, _ => none

/-- `range().unwrap()`. -/
def rangeUnwrap (rs : List VirtualAllocRegion) : Except Panic VirtualAllocRegion :=
  match range rs with
  | some r => .ok r
  | none => .error .rangeUnwrap

/-- `VirtualAllocSplitIndex`. -/
inductive SplitIndex
  | prev (idx : ℕ)
  | this (idx : ℕ)
  | next (idx : ℕ)
  deriving DecidableEq

/-- `split`. A new page gets its two links, and the page before it is linked to it; the
page after it keeps its `prev`. -/
def split (m : Mem) (p idx : ℕ) : Except Panic (SplitIndex × Mem) := do
  if m.len p ≠ regionsPerPage then .error .notFull
  else
    let low := (m.regions p).take splitPoint
    let high := (m.regions p).drop splitPoint
    match m.prev p with
    | some q =>
        if m.len q < regionsPerPage / 4 then
          let split := if idx < splitPoint then .prev (m.len q + idx) else .this (idx - splitPoint)
          .ok (split, (m.setRegions q (m.regions q ++ low)).setRegions p high)
        else splitNext m low high
    | none => splitNext m low high
where
  /-- The branch of `split` that moves regions to the next page. -/
  splitNext (m : Mem) (low high : List VirtualAllocRegion) : Except Panic (SplitIndex × Mem) := do
    let split := if idx ≥ splitPoint then .next (idx - splitPoint) else .this idx
    let (q, m) ←
      match m.next p with
      | some q => if m.len q < regionsPerPage / 4 then .ok (q, m) else linkNewPage m
      | none => linkNewPage m
    .ok (split, (m.setRegions q (high ++ m.regions q)).setRegions p low)
  /-- A new page after `p`. -/
  linkNewPage (m : Mem) : Except Panic (ℕ × Mem) := do
    let next := m.next p
    let (q, m) ← newPage m
    .ok (q, ((m.setPrev q (some p)).setNext q next).setNext p (some q))

/-- The page and the index in it that a split index stands for. -/
def resolveSplit (m : Mem) (p : ℕ) : SplitIndex → Except Panic (ℕ × ℕ)
  | .prev idx => do
      let q ← deref (m.prev p)
      .ok (q, idx)
  | .this idx => .ok (p, idx)
  | .next idx => do
      let q ← deref (m.next p)
      .ok (q, idx)

/-- `binary_search_by_key` on increasing keys: the index of the key, or the index at
which it could be inserted. -/
def binarySearchByKey (keys : List ℕ) (key : ℕ) : Except ℕ ℕ :=
  let idx := keys.findIdx fun k => key ≤ k
  if keys[idx]? = some key then .ok idx else .error idx

/-- The indices of the regions before and after the place found by the search, in a page
with `len` regions. -/
def neighbours (len : ℕ) : Except ℕ ℕ → Option ℕ × Option ℕ
  | .ok idx => if idx = len - 1 then (some idx, none) else (some idx, some (idx + 1))
  | .error 0 => if len = 0 then (none, none) else (none, some 0)
  | .error idx => if idx = len then (some (idx - 1), none) else (some (idx - 1), some idx)

/-- `already_free_before` of `find_idx_for_region_insert`. -/
def alreadyFreeBefore (m : Mem) (p : ℕ) (region : VirtualAllocRegion) :
    Option ℕ → Except Panic Bool
  | some i => do
      let r ← getRegion (m.regions p) i
      .ok (region.1 < r.2)
  | none =>
      match m.prev p with
      | some q => do
          let r ← rangeUnwrap (m.regions q)
          .ok (region.1 < r.2)
      | none => .ok false

/-- `already_free_after` of `find_idx_for_region_insert`. -/
def alreadyFreeAfter (m : Mem) (p : ℕ) (region : VirtualAllocRegion) :
    Option ℕ → Except Panic Bool
  | some i => do
      let r ← getRegion (m.regions p) i
      .ok (region.2 > r.1)
  | none =>
      match m.next p with
      | some q => do
          let r ← rangeUnwrap (m.regions q)
          .ok (region.2 > r.1)
      | none => .ok false

/-- `find_idx_for_region_insert`. -/
def findIdxForRegionInsert (m : Mem) (p : ℕ) (region : VirtualAllocRegion) :
    Except Panic (Except ℕ ℕ) := do
  let result := binarySearchByKey ((m.regions p).map Prod.snd) region.1
  let (before, after) := neighbours (m.len p) result
  let freeBefore ← alreadyFreeBefore m p region before
  let freeAfter ← alreadyFreeAfter m p region after
  if freeBefore || freeAfter then .error .alreadyFree else .ok result

/-- `insert_region`. -/
def insertRegion (m : Mem) (p : ℕ) (region : VirtualAllocRegion) (idx : ℕ) : Except Panic Mem :=
  if m.len p = regionsPerPage then .error .pageFull
  else .ok (m.setRegions p ((m.regions p).insertIdx idx region))

/-- `remove_region`. -/
def removeRegion (m : Mem) (p idx : ℕ) : Mem := m.setRegions p ((m.regions p).eraseIdx idx)

/-! ### `VirtualAllocator` -/

/-- `should_combine`, on the numbers of regions of the two pages. -/
def shouldCombine (len1 len2 : ℕ) : Bool :=
  if len1 + len2 > regionsPerPage then false
  else if len1 = 0 || len2 = 0 then true
  else if len1 + len2 < regionsPerPage / 4 then true
  else if max len1 len2 - min len1 len2 ≥ regionsPerPage / 8 then true
  else false

/-- `combine_pages`. -/
def combinePages (m : Mem) (p1 p2 : ℕ) : Except Panic Mem :=
  if m.next p1 ≠ some p2 then .error .nextMismatch
  else if m.len p1 + m.len p2 > regionsPerPage then .error .indexOutOfBounds
  else
    let next := m.next p2
    let m := (m.setRegions p1 (m.regions p1 ++ m.regions p2)).setNext p1 next
    .ok (freePage (m.relink next p1) p2)

/-- `combine_if_small`. -/
def combineIfSmall : ℕ → Mem → ℕ → Except Panic (ℕ × Mem)
  | 0, _, _ => .error .diverged
  | fuel + 1, m, p =>
      match m.prev p with
      | some q =>
          if shouldCombine (m.len q) (m.len p) then do
            let m ← combinePages m q p
            combineIfSmall fuel m q
          else combineNext fuel m p
      | none => combineNext fuel m p
where
  /-- The branch of `combine_if_small` that looks at the next page. -/
  combineNext (fuel : ℕ) (m : Mem) (p : ℕ) : Except Panic (ℕ × Mem) :=
    match m.next p with
    | some q =>
        if shouldCombine (m.len p) (m.len q) then do
          let m ← combinePages m p q
          combineIfSmall fuel m p
        else .ok (p, m)
    | none => .ok (p, m)

/-- `try_coalesce_at`. -/
def tryCoalesceAt : ℕ → Mem → ℕ → Except Panic (Bool × Mem)
  | 0, _, _ => .error .diverged
  | fuel + 1, m, p =>
      match (m.regions p).getLast?, m.next p with
      | some last, some next =>
          match (m.regions next).head? with
          | none => .error .staleRead
          | some first =>
              if last.2 = first.1 then do
                let m := m.setRegions next ((last.1, first.2) :: (m.regions next).tail)
                let m := m.setRegions p (m.regions p).dropLast
                let m ←
                  if m.len next = 1 then do
                    let (_, m) ← tryCoalesceAt fuel m next
                    Except.ok m
                  else Except.ok m
                let (_, m) ← combineIfSmall (m.live + 1) m p
                .ok (true, m)
              else .ok (false, m)
      | _, _ => .ok (false, m)

/-- The loop of `free` that finds the page for a region. -/
def findPage (m : Mem) (region : VirtualAllocRegion) : ℕ → ℕ → Except Panic ℕ
  | 0, _ => .error .diverged
  | fuel + 1, p =>
      match m.next p with
      | none => .ok p
      | some q => do
          let r ← rangeUnwrap (m.regions q)
          if region.2 ≥ r.1 then findPage m region fuel q else .ok p

/-- The branch of `free` that inserts a region of its own. -/
def insertNew (m : Mem) (p idx : ℕ) (region : VirtualAllocRegion) :
    Except Panic (ℕ × ℕ × Mem) :=
  if m.len p = regionsPerPage then do
    let (s, m) ← split m p idx
    let (q, idx) ← resolveSplit m p s
    let m ← insertRegion m q region idx
    .ok (q, idx, m)
  else do
    let m ← insertRegion m p region idx
    .ok (p, idx, m)

/-- The match of `free`: the region is merged with a region of the page, or inserted. -/
def place (m : Mem) (p : ℕ) (region : VirtualAllocRegion) :
    Except ℕ ℕ → Except Panic (ℕ × ℕ × Mem)
  | .ok idx => do
      let rs := m.regions p
      let r ← getRegion rs idx
      match rs[idx + 1]? with
      | some r' =>
          if r'.1 = region.2 then
            .ok (p, idx, m.setRegions p ((rs.set idx (r.1, r'.2)).eraseIdx (idx + 1)))
          else .ok (p, idx, m.setRegions p (rs.set idx (r.1, region.2)))
      | none => .ok (p, idx, m.setRegions p (rs.set idx (r.1, region.2)))
  | .error idx =>
      let rs := m.regions p
      match rs[idx]? with
      | some r =>
          if r.1 = region.2 then .ok (p, idx, m.setRegions p (rs.set idx (region.1, r.2)))
          else insertNew m p idx region
      | none => insertNew m p idx region

/-- The page that `free` starts from: a first page is made for an empty allocator. -/
def firstPage (m : Mem) : Except Panic (ℕ × Mem) :=
  match m.head with
  | some p => .ok (p, m)
  | none => do
      let (p, m) ← newPage m
      .ok (p, { m with head := some p })

/-- The end of `free`: the page is joined with its neighbours where regions now touch. -/
def coalesce (m : Mem) (p idx : ℕ) : Except Panic Mem := do
  let (coalesced, m) ←
    match m.prev p with
    | some q => if idx = 0 then tryCoalesceAt (m.live + 1) m q else .ok (false, m)
    | none => .ok (false, m)
  if !coalesced && idx = m.len p - 1 then do
    let (_, m) ← tryCoalesceAt (m.live + 1) m p
    .ok m
  else .ok m

/-- `free`. -/
def free (m : Mem) (region : VirtualAllocRegion) : Except Panic Mem := do
  if !isPageAligned region then .error .unaligned
  else
    let size ← regionSize region
    if size = 0 then .ok m
    else
      let (head, m) ← firstPage m
      let p ← findPage m region (m.live + 1) head
      let result ← findIdxForRegionInsert m p region
      let (p, idx, m) ← place m p region result
      coalesce m p idx

/-- The inner loop of `alloc`: the last of the first `n` regions that has room. -/
def findRoom (rs : List VirtualAllocRegion) (size : ℕ) :
    ℕ → Except Panic (Option (ℕ × VirtualAllocRegion))
  | 0 => .ok none
  | n + 1 =>
      match rs[n]? with
      | some r => do
          let length ← regionSize r
          if size ≤ length then .ok (some (n, r)) else findRoom rs size n
      | none => .ok none

/-- The loop of `alloc`. -/
def allocLoop (m : Mem) (size : ℕ) : ℕ → Option ℕ → Except Panic (Option VirtualAllocRegion × Mem)
  | 0, _ => .error .diverged
  | _ + 1, none => .ok (none, m)
  | fuel + 1, some p => do
      match ← findRoom (m.regions p) size (m.len p) with
      | none => allocLoop m size fuel (m.next p)
      | some (idx, r) =>
          if r.2 - r.1 = size then do
            let m := removeRegion m p idx
            let (_, m) ← combineIfSmall (m.live + 1) m p
            -- the sum is the end of the region, which is an address
            .ok (some (r.1, r.1 + size), m)
          else do
            let start ← newVirtAddr (r.1 + size)
            .ok (some (r.1, start), m.setRegions p ((m.regions p).set idx (start, r.2)))

/-- `VirtualAllocRegion::empty`. -/
def emptyRegion : VirtualAllocRegion := (pageSize, pageSize)

/-- `alloc`. -/
def alloc (m : Mem) (size : ℕ) : Except Panic (Option VirtualAllocRegion × Mem) :=
  if size % pageSize ≠ 0 then .error .unaligned
  else if size = 0 then .ok (some emptyRegion, m)
  else allocLoop m size (m.live + 1) m.head

/-- The loop of `reserve`: the page and the index of the last region that starts at or
before the start of `region`, when some page reaches that far. -/
def findReserve (m : Mem) (region : VirtualAllocRegion) :
    ℕ → Option ℕ → Except Panic (Option (ℕ × ℕ))
  | 0, _ => .error .diverged
  | _ + 1, none => .ok none
  | fuel + 1, some p =>
      match range (m.regions p) with
      | none => findReserve m region fuel (m.next p)
      | some r =>
          if region.1 < r.1 then .ok none
          else if region.1 < r.2 then
            match binarySearchByKey ((m.regions p).map Prod.fst) region.1 with
            | .ok idx => .ok (some (p, idx))
            | .error 0 => .error .indexOutOfBounds
            | .error (idx + 1) => .ok (some (p, idx))
          else findReserve m region fuel (m.next p)

/-- The match of `reserve`: the region is cut out of the region that holds it. -/
def cut (m : Mem) (p idx : ℕ) (region held : VirtualAllocRegion) : Except Panic Mem :=
  match decide (region.1 = held.1), decide (region.2 = held.2) with
  | true, true => do
      let m := removeRegion m p idx
      let (_, m) ← combineIfSmall (m.live + 1) m p
      .ok m
  | true, false => .ok (m.setRegions p ((m.regions p).set idx (region.2, held.2)))
  | false, true => .ok (m.setRegions p ((m.regions p).set idx (held.1, region.1)))
  | false, false => do
      let (q, idx, m) ←
        if m.len p = regionsPerPage then do
          let (s, m) ← split m p idx
          let (q, idx) ← resolveSplit m p s
          Except.ok (q, idx, m)
        else Except.ok (p, idx, m)
      let r ← getRegion (m.regions q) idx
      let m := m.setRegions q ((m.regions q).set idx (r.1, region.1))
      insertRegion m q (region.2, held.2) (idx + 1)

/-- `reserve`. -/
def reserve (m : Mem) (region : VirtualAllocRegion) : Except Panic (Bool × Mem) := do
  if !isPageAligned region then .error .unaligned
  else
    let size ← regionSize region
    if size = 0 then .ok (true, m)
    else
      match ← findReserve m region (m.live + 1) m.head with
      | none => .ok (false, m)
      | some (p, idx) => do
          let held ← getRegion (m.regions p) idx
          if region.1 < held.2 && region.2 ≤ held.2 then do
            let m ← cut m p idx region held
            .ok (true, m)
          else .ok (false, m)

/-- The size of a region that does not end before it starts. -/
theorem regionSize_of_le {r : VirtualAllocRegion} (h : r.1 ≤ r.2) :
    regionSize r = .ok (r.2 - r.1) := if_pos h

end HydroxKernel.Virt
