import Mathlib.Logic.Function.Basic
import HydroxKernel.Lib.Assert
import HydroxKernel.Lib.Bytes
import HydroxKernel.Lib.Runs

/-!
# The Early Allocator

The allocator of the early boot hands out blocks of a fixed area from below, with a mark that
says how much of the area is in use. A block ends with a word that holds its real size, that
is its size together with the bytes that were skipped to align it. A block at the top of the
area, whose end is the mark, is given back or changes its size by moving the mark.

The mark is an atomic variable: an operation loads it and later changes it with a
`compare_exchange`, and in between other agents may move it. A step of an agent therefore
contains at most one access to the mark, with the accesses to the memory of its own block
around it. The blocks that no agent is working on are in a pool.
-/

namespace HydroxKernel.Early

/-- The ways in which an operation can fail to return. -/
inductive Panic
  /-- "Early allocation too large". -/
  | tooLarge
  /-- "Out of early allocation memory". -/
  | outOfMemory
  /-- "Attempt to use early memory allocation before initializing it". -/
  | notInitialized
  /-- The panic of `align_offset` for an alignment that is not a power of two. -/
  | notPowerOfTwo
  deriving DecidableEq

/-- `EARLY_ALLOC_SIZE`. -/
def earlyAllocSize : ℕ := 1024 * 1024

/-- `EARLY_ALLOC_MARK` and the memory. -/
structure Heap where
  mark : ℕ
  mem : Bytes

/-- `get_full_size`. -/
def getFullSize (size : ℕ) : Except Panic ℕ :=
  if size = 0 then .ok 4
  else do
    ensure (size < 2 ^ 32) .tooLarge
    let full := (size - 1) / 4 * 4 + 8
    ensure (full < 2 ^ 32) .tooLarge
    .ok full

/-- `align_offset` of a pointer. -/
def alignOffset (ptr align : ℕ) : Except Panic ℕ := do
  ensure (∃ k < 64, align = 2 ^ k) .notPowerOfTwo
  .ok ((align - ptr % align) % align)

/-! ### The operations, cut at the accesses to the mark -/

/-- `alloc` before its loop: the alignment and the full size. -/
def allocStart (size align : ℕ) : Except Panic (ℕ × ℕ) := do
  ensure (max align 4 < 2 ^ 32) .tooLarge
  let full ← getFullSize size
  .ok (max align 4, full)

/-- `alloc` from the load of the mark up to the `compare_exchange`: the bytes to skip. -/
def allocLoad (area mark align full : ℕ) : Except Panic ℕ := do
  let offset ← alignOffset mark align
  ensure (full + offset < 2 ^ 32) .tooLarge
  ensure (mark ≠ 0) .notInitialized
  ensure (full + offset ≤ area + earlyAllocSize - mark) .outOfMemory
  .ok offset

/-- `alloc` after a `compare_exchange` that succeeds. -/
def allocCommit (h : Heap) (mark full offset : ℕ) : Heap where
  mark := mark + (full + offset)
  mem := (h.mem.fill mark (offset + full) 0xAD).writeWord (mark + (offset + full - 4))
    (full + offset)

/-- `free` up to the `compare_exchange`: the memory, and the real size of the block if it is
at the top. -/
def freeLoad (h : Heap) (ptr size : ℕ) : Except Panic (Bytes × Option ℕ) := do
  let mem := h.mem.fill ptr size 0xEA
  let full ← getFullSize size
  if h.mark = ptr + full then .ok (mem, some (mem.readWord (ptr + (full - 4))))
  else .ok (mem, none)

/-- `realloc_grow` up to the `compare_exchange`: the new full size and the new real size, if
the block is at the top. -/
def growLoad (area : ℕ) (h : Heap) (ptr oldSize newSize : ℕ) :
    Except Panic (Option (ℕ × ℕ × ℕ)) := do
  let oldFull ← getFullSize oldSize
  let newFull ← getFullSize newSize
  if h.mark = ptr + oldFull then do
    ensure (newFull - oldFull ≤ area + earlyAllocSize - h.mark) .outOfMemory
    let realNew := h.mem.readWord (ptr + (oldFull - 4)) - oldFull + newFull
    ensure (realNew < 2 ^ 32) .tooLarge
    .ok (some (oldFull, newFull, realNew))
  else .ok none

/-- `realloc_grow` after a `compare_exchange` that succeeds. -/
def growCommit (h : Heap) (ptr oldFull newFull realNew : ℕ) : Heap where
  mark := ptr + newFull
  mem := (h.mem.fill (ptr + oldFull) (newFull - oldFull) 0xAD).writeWord
    (ptr + (newFull - 4)) realNew

/-- `realloc_shrink` up to the `compare_exchange`: the memory, and the new full size and the
new real size, if the block is at the top. -/
def shrinkLoad (h : Heap) (ptr oldSize newSize : ℕ) :
    Except Panic (Bytes × Option (ℕ × ℕ)) := do
  let mem := h.mem.fill (ptr + newSize) (oldSize - newSize) 0xEA
  let oldFull ← getFullSize oldSize
  let newFull ← getFullSize newSize
  if h.mark = ptr + oldFull then
    .ok (mem, some (newFull, mem.readWord (ptr + (oldFull - 4)) - oldFull + newFull))
  else .ok (mem, none)

/-- `realloc_shrink` after a `compare_exchange` that succeeds. -/
def shrinkCommit (h : Heap) (ptr newFull realNew : ℕ) : Heap where
  mark := ptr + newFull
  mem := h.mem.writeWord (ptr + (newFull - 4)) realNew

/-! ### Agents -/

/-- A block as its owner knows it: its address, its current size, and the alignment that it
was requested with. -/
structure Block where
  ptr : ℕ
  size : ℕ
  align : ℕ
  deriving DecidableEq

/-- What an agent does. Before a `compare_exchange` it knows the mark that it loaded. A
`realloc` remembers the memory at its call, for what has to survive it. -/
inductive Pc
  | idle
  | panicked
  | alloc (size align full : ℕ)
  | allocCas (size align full mark offset : ℕ)
  | freeCas (b : Block) (mark real : ℕ)
  | growCas (b : Block) (newSize mark oldFull newFull realNew : ℕ) (before : Bytes)
  | shrinkCas (b : Block) (newSize mark newFull realNew : ℕ) (before : Bytes)
  | reallocated (b : Block) (oldSize : ℕ) (before : Bytes)

/-- The mark, the memory, the blocks that no agent is working on, and the agents. -/
structure State where
  heap : Heap
  pool : List Block
  pc : ℕ → Pc

/-- What an agent can do: begin an operation, write to a block, or go on with what it is
doing. -/
inductive Act
  | alloc (size align : ℕ)
  | free (b : Block)
  | realloc (b : Block) (newSize : ℕ)
  | store (b : Block) (i : ℕ) (v : UInt8)
  | go

/-- Puts an agent at a place, with a new heap and a new pool. -/
def State.put (s : State) (a : ℕ) (h : Heap) (pool : List Block) (pc : Pc) : State :=
  ⟨h, pool, Function.update s.pc a pc⟩

/-- The first step of `free`. The block is no longer in the pool. -/
def beginFree (s : State) (a : ℕ) (b : Block) : State :=
  match freeLoad s.heap b.ptr b.size with
  | .error _ => s.put a s.heap s.pool .panicked
  | .ok (mem, some real) =>
      s.put a ⟨s.heap.mark, mem⟩ (s.pool.erase b) (.freeCas b s.heap.mark real)
  | .ok (mem, none) => s.put a ⟨s.heap.mark, mem⟩ (s.pool.erase b) .idle

/-- The first step of `realloc_grow`. If it returns null, the block stays in the pool. -/
def beginGrow (area : ℕ) (s : State) (a : ℕ) (b : Block) (newSize : ℕ) : State :=
  match growLoad area s.heap b.ptr b.size newSize with
  | .error _ => s.put a s.heap s.pool .panicked
  | .ok (some (oldFull, newFull, realNew)) =>
      s.put a s.heap (s.pool.erase b)
        (.growCas b newSize s.heap.mark oldFull newFull realNew s.heap.mem)
  | .ok none => s.put a s.heap s.pool .idle

/-- The first step of `realloc_shrink`. -/
def beginShrink (s : State) (a : ℕ) (b : Block) (newSize : ℕ) : State :=
  match shrinkLoad s.heap b.ptr b.size newSize with
  | .error _ => s.put a s.heap s.pool .panicked
  | .ok (mem, some (newFull, realNew)) =>
      s.put a ⟨s.heap.mark, mem⟩ (s.pool.erase b)
        (.shrinkCas b newSize s.heap.mark newFull realNew s.heap.mem)
  | .ok (mem, none) =>
      s.put a ⟨s.heap.mark, mem⟩ (s.pool.erase b)
        (.reallocated { b with size := newSize } b.size s.heap.mem)

/-- The first step of `realloc`. -/
def beginRealloc (area : ℕ) (s : State) (a : ℕ) (b : Block) (newSize : ℕ) : State :=
  if b.size < newSize then beginGrow area s a b newSize
  else if newSize < b.size then beginShrink s a b newSize
  else s.put a s.heap (s.pool.erase b) (.reallocated b b.size s.heap.mem)

/-- The load of the mark in the loop of `alloc`. -/
def loadAlloc (area : ℕ) (s : State) (a size align full : ℕ) : State :=
  match allocLoad area s.heap.mark (max align 4) full with
  | .error _ => s.put a s.heap s.pool .panicked
  | .ok offset => s.put a s.heap s.pool (.allocCas size align full s.heap.mark offset)

/-- The `compare_exchange` of `alloc`. -/
def casAlloc (s : State) (a size align full mark offset : ℕ) : State :=
  if s.heap.mark = mark then
    s.put a (allocCommit s.heap mark full offset) (⟨mark + offset, size, align⟩ :: s.pool) .idle
  else s.put a s.heap s.pool (.alloc size align full)

/-- The `compare_exchange` of `free`. -/
def casFree (s : State) (a mark real : ℕ) : State :=
  if s.heap.mark = mark then s.put a ⟨mark - real, s.heap.mem⟩ s.pool .idle
  else s.put a s.heap s.pool .idle

/-- The `compare_exchange` of `realloc_grow`. -/
def casGrow (s : State) (a : ℕ) (b : Block) (newSize mark oldFull newFull realNew : ℕ)
    (before : Bytes) : State :=
  if s.heap.mark = mark then
    s.put a (growCommit s.heap b.ptr oldFull newFull realNew) s.pool
      (.reallocated { b with size := newSize } b.size before)
  else s.put a s.heap (b :: s.pool) .idle

/-- The `compare_exchange` of `realloc_shrink`. -/
def casShrink (s : State) (a : ℕ) (b : Block) (newSize mark newFull realNew : ℕ)
    (before : Bytes) : State :=
  if s.heap.mark = mark then
    s.put a (shrinkCommit s.heap b.ptr newFull realNew) s.pool
      (.reallocated { b with size := newSize } b.size before)
  else s.put a s.heap s.pool (.reallocated { b with size := newSize } b.size before)

/-- A later step of an operation. -/
def continueOp (area : ℕ) (s : State) (a : ℕ) : Pc → Option State
  | .idle => none
  | .panicked => none
  | .alloc size align full => some (loadAlloc area s a size align full)
  | .allocCas size align full mark offset => some (casAlloc s a size align full mark offset)
  | .freeCas _ mark real => some (casFree s a mark real)
  | .growCas b newSize mark oldFull newFull realNew before =>
      some (casGrow s a b newSize mark oldFull newFull realNew before)
  | .shrinkCas b newSize mark newFull realNew before =>
      some (casShrink s a b newSize mark newFull realNew before)
  | .reallocated b _ _ => some (s.put a s.heap (b :: s.pool) .idle)

/-- One step of an agent, if it can make it. An operation begins on a block of the pool, with
the size that it has. -/
def exec (area : ℕ) (s : State) (a : ℕ) : Act → Option State
  | .alloc size align =>
      match s.pc a with
      | .idle =>
          match allocStart size align with
          | .ok (_, full) => some (s.put a s.heap s.pool (.alloc size align full))
          | .error _ => some (s.put a s.heap s.pool .panicked)
      | _ => none
  | .free b =>
      match s.pc a with
      | .idle => if b ∈ s.pool then some (beginFree s a b) else none
      | _ => none
  | .realloc b newSize =>
      match s.pc a with
      | .idle => if b ∈ s.pool then some (beginRealloc area s a b newSize) else none
      | _ => none
  | .store b i v =>
      if b ∈ s.pool ∧ i < b.size then
        some { s with heap := ⟨s.heap.mark, Function.update s.heap.mem (b.ptr + i) v⟩ }
      else none
  | .go => continueOp area s a (s.pc a)

/-- One step of the system. -/
def Step (area : ℕ) (s : State) (op : ℕ × Act) (s' : State) : Prop :=
  exec area s op.1 op.2 = some s'

/-- The rest of a call, when no other agent makes a step. -/
def finishCall (area a : ℕ) : ℕ → State → Option State
  | 0, s => some s
  | n + 1, s =>
      match s.pc a with
      | .idle => some s
      | pc => (continueOp area s a pc).bind (finishCall area a n)

/-- A whole call, when no other agent makes a step. No operation needs more than three steps
after its first. -/
def call (area : ℕ) (s : State) (a : ℕ) (act : Act) : Option State :=
  (exec area s a act).bind (finishCall area a 3)

/-- What an agent does with a stack of blocks. -/
inductive StackOp
  | alloc (size align : ℕ)
  | realloc (newSize : ℕ)
  | free
  | store (b : Block) (i : ℕ) (v : UInt8)

/-- One call of an agent that frees its blocks in the reverse order of their allocation, and
changes the size of the topmost one only. The blocks are listed from the top; what the agent
writes to may be any block. -/
def StackStep (area a : ℕ) (x : State × List Block) (op : StackOp) (y : State × List Block) :
    Prop :=
  match op with
  | .alloc size align => call area x.1 a (.alloc size align) = some y.1 ∧ y.1.pc a = .idle ∧
      ∃ b, y.1.pool = b :: x.1.pool ∧ y.2 = b :: x.2
  | .realloc newSize => ∃ b b' rest, x.2 = b :: rest ∧
      call area x.1 a (.realloc b newSize) = some y.1 ∧ y.1.pc a = .idle ∧
      (b' = b ∨ b' = { b with size := newSize }) ∧ b' ∈ y.1.pool ∧ y.2 = b' :: rest
  | .free => ∃ b, x.2 = b :: y.2 ∧ call area x.1 a (.free b) = some y.1 ∧ y.1.pc a = .idle
  | .store b i v => exec area x.1 a (.store b i v) = some y.1 ∧ y.2 = x.2

/-- The state after `init`: the area begins on a page. -/
structure Init (area : ℕ) (s : State) : Prop where
  pos : 0 < area
  aligned : 4096 ∣ area
  mark : s.heap.mark = area
  pool : s.pool = []
  idle : ∀ a, s.pc a = .idle

end HydroxKernel.Early
