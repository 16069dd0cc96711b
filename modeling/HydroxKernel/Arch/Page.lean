import HydroxKernel.Lib.Assert
import Mathlib.Algebra.GroupWithZero.Nat
import Mathlib.Data.List.FinRange
import Mathlib.Logic.Function.Basic

/-!
# Address Spaces

An address space is a tree of page tables of four levels, whose root is the L4 table. Every
address space has its own lower half; the upper half is the kernel's, and is shared: the
upper entries of the L4 table of the kernel are all filled when the kernel starts, and are
copied into every L4 table that is made later.

Physical memory is seen as page tables. A frame is named by its number, so that a physical
address is a frame and an offset. The frames that `alloc_one` returns during an operation are
given to the operation as a list, from which it takes one frame at a time. A panic carries
the state that it leaves behind. The virtual allocator of an address space and the
translation caches are left out.
-/

namespace HydroxKernel.Page

/-- `PAGE_SIZE`. -/
def pageSize : ℕ := 4096

/-! ### Page table entries -/

/-- `PageTableFlags`. The bits that are not read by name are `other`. -/
structure PageTableFlags where
  present : Bool
  writable : Bool
  userAccessible : Bool
  hugePage : Bool
  noExecute : Bool
  other : ℕ
  deriving DecidableEq

/-- `PageTableFlags::empty`. -/
def PageTableFlags.empty : PageTableFlags := ⟨false, false, false, false, false, 0⟩

/-- The flags of the tables that the kernel makes for itself: `PRESENT | WRITABLE`. -/
def PageTableFlags.kernelTable : PageTableFlags := ⟨true, true, false, false, false, 0⟩

/-- The flags of the tables that are made for a mapping:
`PRESENT | USER_ACCESSIBLE | WRITABLE`. -/
def PageTableFlags.newTable : PageTableFlags := ⟨true, true, true, false, false, 0⟩

/-- `PageTableEntry`: the frame it points to, and its flags. -/
structure Entry where
  frame : ℕ
  flags : PageTableFlags
  deriving DecidableEq

/-- `PageTableEntry::new`, the entry that `is_unused`. -/
def Entry.unused : Entry := ⟨0, .empty⟩

/-- `PageFlags`. -/
structure PageFlags where
  user : Bool
  writeable : Bool
  executable : Bool
  deriving DecidableEq

/-- `to_generic_flags`. -/
def toGenericFlags (flags : PageTableFlags) : PageFlags :=
  ⟨flags.userAccessible, flags.writable, !flags.noExecute⟩

/-- `to_x86_64_flags`. -/
def toX8664Flags (flags : PageFlags) : PageTableFlags :=
  ⟨true, flags.writeable, flags.user, false, !flags.executable, 0⟩

/-! ### Virtual addresses -/

/-- `VirtAddr`: the upper sixteen bits of an address are copies of bit 47. -/
structure VirtAddr where
  val : ℕ
  canonical : val < 0x0000800000000000 ∨
    (0xffff800000000000 ≤ val ∧ val < 0x10000000000000000)

/-- The address is in the upper half of the address space. -/
def VirtAddr.Upper (addr : VirtAddr) : Prop := 0xffff800000000000 ≤ addr.val

instance (addr : VirtAddr) : Decidable addr.Upper := Nat.decLe _ _

/-- A table has entries. -/
instance neZeroEntries : NeZero 512 := ⟨by decide⟩

/-- `p4_index`. -/
def VirtAddr.p4Index (addr : VirtAddr) : Fin 512 := Fin.ofNat 512 (addr.val / 2 ^ 39)

/-- `p3_index`. -/
def VirtAddr.p3Index (addr : VirtAddr) : Fin 512 := Fin.ofNat 512 (addr.val / 2 ^ 30)

/-- `p2_index`. -/
def VirtAddr.p2Index (addr : VirtAddr) : Fin 512 := Fin.ofNat 512 (addr.val / 2 ^ 21)

/-- `p1_index`. -/
def VirtAddr.p1Index (addr : VirtAddr) : Fin 512 := Fin.ofNat 512 (addr.val / 2 ^ 12)

/-! ### Address spaces -/

/-- `AddressSpace`: the frame of its L4 table, and whether it is the kernel's. -/
structure AddressSpace where
  pageTable : ℕ
  isKernel : Bool
  deriving DecidableEq

/-- The page tables in physical memory, `KERNEL_ADDRESS_SPACE`, and the user address spaces
in the order in which they were made. -/
structure State where
  tables : ℕ → Fin 512 → Entry
  kernel : AddressSpace
  users : List AddressSpace

/-- The ways in which an operation can fail to return. -/
inductive Panic
  /-- "Kernel is loaded in lower-half?". -/
  | kernelInLowerHalf
  /-- There is no frame for a page table. -/
  | outOfMemory
  /-- "bad address for page mapping". -/
  | badAddress
  /-- The `assert!` of `set_addr`: the frame to map is not aligned. -/
  | unalignedFrame
  /-- `unimplemented!()`: the page lies in a huge page. -/
  | unimplemented
  /-- "set_page_user cannot be called on the kernel address space", and
  "set_page_kernel cannot be called on a user address space". -/
  | wrongAddressSpace
  /-- "set_page_user can only be used on lower-half virtual addresses", and
  "set_page_kernel can only be used on higher-half virtual addresses". -/
  | wrongHalf
  deriving DecidableEq

/-- Writes an entry of a table. -/
def State.setEntry (s : State) (table : ℕ) (i : Fin 512) (e : Entry) : State :=
  { s with tables := Function.update s.tables table (Function.update (s.tables table) i e) }

/-- `PageTable::new`, written to a frame. -/
def State.clear (s : State) (table : ℕ) : State :=
  { s with tables := Function.update s.tables table fun _ => .unused }

/-- `AddressSpace::get_page`. -/
def getPage (s : State) (space : AddressSpace) (addr : VirtAddr) : Option (ℕ × PageFlags) :=
  let l4Entry := s.tables space.pageTable addr.p4Index
  if l4Entry.flags.present = false then none
  else
    let l3Entry := s.tables l4Entry.frame addr.p3Index
    if l3Entry.flags.present = false then none
    else if l3Entry.flags.hugePage = true then
      some (l3Entry.frame * pageSize + addr.val % 2 ^ 30, toGenericFlags l3Entry.flags)
    else
      let l2Entry := s.tables l3Entry.frame addr.p2Index
      if l2Entry.flags.present = false then none
      else if l2Entry.flags.hugePage = true then
        some (l2Entry.frame * pageSize + addr.val % 2 ^ 21, toGenericFlags l2Entry.flags)
      else
        let l1Entry := s.tables l2Entry.frame addr.p1Index
        if l1Entry.flags.present = false then none
        else
          some (l1Entry.frame * pageSize + addr.val % 2 ^ 12, toGenericFlags l1Entry.flags)

/-- The part of `set_page_internal` that goes from an entry of a table to the table it points
to. If the entry is not present, a table is made for a mapping, and there is nothing to do
for the removal of one. Returns the entry, with the frames that are left. -/
def enterTable (s : State) (frames : List ℕ) (table : ℕ) (i : Fin 512) (isSome : Bool) :
    Except (Panic × State) (Option (State × List ℕ × Entry)) :=
  if (s.tables table i).flags.present = true then .ok (some (s, frames, s.tables table i))
  else if isSome = true then
    match frames with
    | [] => .error (.outOfMemory, s)
    | frame :: frames =>
        .ok (some ((s.clear frame).setEntry table i ⟨frame, .newTable⟩, frames,
          ⟨frame, .newTable⟩))
  else .ok none

/-- The entry that `set_page_internal` writes into the L1 table. -/
def mappingEntry (s : State) : Option (ℕ × PageFlags) → Except (Panic × State) Entry
  | some (frame, flags) => do
      ensure (frame % pageSize = 0) (.unalignedFrame, s)
      return ⟨frame / pageSize, toX8664Flags flags⟩
  | none => .ok .unused

/-- The part of `set_page_internal` that goes through the L1 table. -/
def setL1 (s : State) (table : ℕ) (addr : VirtAddr) (mapping : Option (ℕ × PageFlags)) :
    Except (Panic × State) State := do
  let e ← mappingEntry s mapping
  return s.setEntry table addr.p1Index e

/-- The part of `set_page_internal` that goes through the L2 table. -/
def setL2 (s : State) (frames : List ℕ) (table : ℕ) (addr : VirtAddr)
    (mapping : Option (ℕ × PageFlags)) : Except (Panic × State) State := do
  match ← enterTable s frames table addr.p2Index mapping.isSome with
  | none => return s
  | some (s, _, l2Entry) => do
      ensure (l2Entry.flags.hugePage = false) (.unimplemented, s)
      setL1 s l2Entry.frame addr mapping

/-- The part of `set_page_internal` that goes through the L3 table. -/
def setL3 (s : State) (frames : List ℕ) (table : ℕ) (addr : VirtAddr)
    (mapping : Option (ℕ × PageFlags)) : Except (Panic × State) State := do
  match ← enterTable s frames table addr.p3Index mapping.isSome with
  | none => return s
  | some (s, frames, l3Entry) => do
      ensure (l3Entry.flags.hugePage = false) (.unimplemented, s)
      setL2 s frames l3Entry.frame addr mapping

/-- `AddressSpace::set_page_internal`. -/
def setPageInternal (s : State) (frames : List ℕ) (space : AddressSpace) (addr : VirtAddr)
    (mapping : Option (ℕ × PageFlags)) : Except (Panic × State) State := do
  ensure (addr.val % pageSize = 0) (.badAddress, s)
  match ← enterTable s frames space.pageTable addr.p4Index mapping.isSome with
  | none => return s
  | some (s, frames, l4Entry) => setL3 s frames l4Entry.frame addr mapping

/-- `AddressSpace::set_page_user`. -/
def setPageUser (s : State) (frames : List ℕ) (space : AddressSpace) (addr : VirtAddr)
    (mapping : Option (ℕ × PageFlags)) : Except (Panic × State) State := do
  ensure (space.isKernel = false) (.wrongAddressSpace, s)
  ensure (addr.val < 0x0000800000000000) (.wrongHalf, s)
  setPageInternal s frames space addr mapping

/-- `AddressSpace::set_page_kernel`. -/
def setPageKernel (s : State) (frames : List ℕ) (space : AddressSpace) (addr : VirtAddr)
    (mapping : Option (ℕ × PageFlags)) : Except (Panic × State) State := do
  ensure (space.isKernel = true) (.wrongAddressSpace, s)
  ensure (0xffff800000000000 ≤ addr.val) (.wrongHalf, s)
  setPageInternal s frames space addr mapping

/-- The L4 table of a new address space: empty entries in the lower half, and copies of the
kernel's entries in the upper half. -/
def newL4Table (s : State) : Fin 512 → Entry :=
  fun i => if i.val < 256 then .unused else s.tables s.kernel.pageTable i

/-- `AddressSpace::new`. -/
def newAddressSpace (s : State) (frames : List ℕ) : Except (Panic × State) State :=
  match frames with
  | [] => .error (.outOfMemory, s)
  | frame :: _ =>
      .ok { s with
        tables := Function.update s.tables frame (newL4Table s)
        users := s.users ++ [⟨frame, false⟩] }

/-! ### The start of the kernel -/

/-- The indices `0..256` of an L4 table. -/
def lowerIndices : List (Fin 512) := (List.finRange 512).filter fun i => i.val < 256

/-- The indices `256..512` of an L4 table. -/
def upperIndices : List (Fin 512) := (List.finRange 512).filter fun i => 256 ≤ i.val

/-- The loop of `init_kernel_addrspace` that empties entries of the L4 table. -/
def clearEntries (s : State) : List (Fin 512) → State
  | [] => s
  | i :: is => clearEntries (s.setEntry s.kernel.pageTable i .unused) is

/-- The loop of `init_kernel_addrspace` that makes L3 tables for entries of the L4 table. -/
def fillEntries (s : State) (frames : List ℕ) : List (Fin 512) → Except (Panic × State) State
  | [] => .ok s
  | i :: is =>
      if s.tables s.kernel.pageTable i = .unused then
        match frames with
        | [] => .error (.outOfMemory, s)
        | frame :: frames =>
            fillEntries
              ((s.clear frame).setEntry s.kernel.pageTable i ⟨frame, .kernelTable⟩) frames is
      else fillEntries s frames is

/-- What the bootloader leaves: the page tables, with the L4 table in the frame `cr3`. -/
def bootState (tables : ℕ → Fin 512 → Entry) (cr3 : ℕ) : State := ⟨tables, ⟨cr3, true⟩, []⟩

/-- `init_kernel_addrspace`, a function at the address `fnAddr`. -/
def initKernelAddrspace (tables : ℕ → Fin 512 → Entry) (cr3 fnAddr : ℕ) (frames : List ℕ) :
    Except (Panic × State) State := do
  ensure (0xffff800000000000 ≤ fnAddr) (.kernelInLowerHalf, bootState tables cr3)
  fillEntries (clearEntries (bootState tables cr3) lowerIndices) frames upperIndices

/-! ### Runs -/

/-- The operations, with the frames that `alloc_one` returns during them. -/
inductive Op
  /-- `AddressSpace::new`. -/
  | new (frames : List ℕ)
  /-- `set_page_kernel`. -/
  | setPageKernel (frames : List ℕ) (space : AddressSpace) (addr : VirtAddr)
      (mapping : Option (ℕ × PageFlags))
  /-- `set_page_user`. -/
  | setPageUser (frames : List ℕ) (space : AddressSpace) (addr : VirtAddr)
      (mapping : Option (ℕ × PageFlags))

/-- The frames that `alloc_one` returns during the operation. -/
def Op.frames : Op → List ℕ
  | .new frames => frames
  | .setPageKernel frames _ _ _ => frames
  | .setPageUser frames _ _ _ => frames

/-- The address space that an operation is called on exists. -/
def Op.Exists (s : State) : Op → Prop
  | .new _ => True
  | .setPageKernel _ space _ _ => space ∈ s.kernel :: s.users
  | .setPageUser _ space _ _ => space ∈ s.kernel :: s.users

/-- Performs an operation. -/
def perform (s : State) : Op → Except (Panic × State) State
  | .new frames => newAddressSpace s frames
  | .setPageKernel frames space addr mapping => setPageKernel s frames space addr mapping
  | .setPageUser frames space addr mapping => setPageUser s frames space addr mapping

/-- The state that an operation leaves, whether it returns or panics. -/
def finalState : Except (Panic × State) State → State
  | .ok s => s
  | .error (_, s) => s

end HydroxKernel.Page
