import HydroxKernel.Mem.EarlyStack

/-!
# Calls of the Early Allocator

The calls of the early allocator as functions, for code that no other agent interferes with:
nobody moves the mark between its load and the `compare_exchange`, which therefore succeeds.
They are the calls of the step relation with a single agent, and take over its invariant.

## Main results

* `call_alloc_eq`, `call_free_eq` and `call_realloc_eq`: the functions are the whole calls.
* `Sound.alloc`, `Sound.free` and `Sound.realloc`: what they do to the blocks.
* `Sound.realloc_returns` and `Sound.realloc_null`: when `realloc` returns the block.
-/

namespace HydroxKernel.Early

variable {area : ℕ} {h h' : Heap} {b : Block} {pool : List Block} {reg : ℕ → ℕ × ℕ}
  {ptr size align newSize : ℕ}

/-! ### The calls -/

/-- `alloc`. -/
def alloc (area : ℕ) (h : Heap) (size align : ℕ) : Except Panic (ℕ × Heap) := do
  let (align, full) ← allocStart size align
  let offset ← allocLoad area h.mark align full
  .ok (h.mark + offset, allocCommit h h.mark full offset)

/-- `free`. -/
def free (h : Heap) (ptr size : ℕ) : Except Panic Heap := do
  match ← freeLoad h ptr size with
  | (mem, some real) => .ok ⟨h.mark - real, mem⟩
  | (mem, none) => .ok ⟨h.mark, mem⟩

/-- `realloc_grow`. The null pointer is `0`. -/
def reallocGrow (area : ℕ) (h : Heap) (ptr oldSize newSize : ℕ) : Except Panic (ℕ × Heap) := do
  match ← growLoad area h ptr oldSize newSize with
  | some (oldFull, newFull, realNew) => .ok (ptr, growCommit h ptr oldFull newFull realNew)
  | none => .ok (0, h)

/-- `realloc_shrink`. -/
def reallocShrink (h : Heap) (ptr oldSize newSize : ℕ) : Except Panic (ℕ × Heap) := do
  match ← shrinkLoad h ptr oldSize newSize with
  | (mem, some (newFull, realNew)) => .ok (ptr, shrinkCommit ⟨h.mark, mem⟩ ptr newFull realNew)
  | (mem, none) => .ok (ptr, ⟨h.mark, mem⟩)

/-- `realloc`. -/
def realloc (area : ℕ) (h : Heap) (ptr oldSize newSize : ℕ) : Except Panic (ℕ × Heap) :=
  if oldSize < newSize then reallocGrow area h ptr oldSize newSize
  else if newSize < oldSize then reallocShrink h ptr oldSize newSize
  else .ok (ptr, h)

/-! ### They are the calls of the step relation -/

/-- The state between two calls: no agent is doing anything. -/
def quiet (h : Heap) (pool : List Block) : State := ⟨h, pool, fun _ => .idle⟩

/-- An agent that is done leaves a quiet state. -/
theorem put_idle_quiet (h h' : Heap) (pool pool' : List Block) :
    (quiet h pool).put 0 h' pool' .idle = quiet h' pool' := by
  rw [State.put, quiet, quiet, Function.update_eq_self]

/-- An agent that has been somewhere else and is done leaves a quiet state. -/
@[simp] theorem put_put_idle (h h₁ h' : Heap) (pool pool₁ pool' : List Block) (pc : Pc) :
    ((quiet h pool).put 0 h₁ pool₁ pc).put 0 h' pool' .idle = quiet h' pool' := by
  rw [← put_idle_quiet h h' pool pool']
  simp only [State.put, Function.update_idem]

/-- A place on the way does not matter. -/
@[simp] theorem put_put (s : State) (h₁ h₂ : Heap) (pool₁ pool₂ : List Block) (pc₁ pc₂ : Pc) :
    (s.put 0 h₁ pool₁ pc₁).put 0 h₂ pool₂ pc₂ = s.put 0 h₂ pool₂ pc₂ := by
  simp only [State.put, Function.update_idem]

/-- **`alloc`** is a whole call. -/
theorem call_alloc_eq (pool : List Block) (halloc : alloc area h size align = .ok (ptr, h')) :
    call area (quiet h pool) 0 (.alloc size align) =
      some (quiet h' (⟨ptr, size, align⟩ :: pool)) := by
  obtain ⟨⟨align', full⟩, hstart, halloc⟩ := bind_eq_ok.mp halloc
  obtain ⟨offset, hload, halloc⟩ := bind_eq_ok.mp halloc
  cases halloc
  have halign : align' = max align 4 := by
    obtain ⟨-, hfull⟩ := ensure_bind_eq_ok.mp hstart
    obtain ⟨_, -, hfull⟩ := bind_eq_ok.mp hfull
    cases hfull
    rfl
  subst halign
  have hpc : (quiet h pool).pc 0 = .idle := rfl
  rw [call, exec, hpc]
  simp only [hstart]
  rw [Option.bind_some, finishCall_succ (put_pc _ _ _) (by simp), continueOp, Option.bind_some,
    loadAlloc_ok hload, finishCall_succ (put_pc _ _ _) (by simp), continueOp, Option.bind_some,
    casAlloc, put_heap, if_pos rfl, finishCall_idle (put_pc _ _ _)]
  simp only [put_put, put_idle_quiet]
  rfl

/-- **`free`** is a whole call. -/
theorem call_free_eq (hb : b ∈ pool) (hfree : free h b.ptr b.size = .ok h') :
    call area (quiet h pool) 0 (.free b) = some (quiet h' (pool.erase b)) := by
  obtain ⟨⟨mem, top⟩, hload, hfree⟩ := bind_eq_ok.mp hfree
  have hpc : (quiet h pool).pc 0 = .idle := rfl
  have hpool : b ∈ (quiet h pool).pool := hb
  have hheap : freeLoad (quiet h pool).heap b.ptr b.size = .ok (mem, top) := hload
  rw [call, exec, hpc]
  simp only [if_pos hpool]
  rw [Option.bind_some, beginFree]
  cases top with
  | none =>
      cases hfree
      simp only [hheap]
      rw [finishCall_idle (put_pc _ _ _), put_idle_quiet]
      rfl
  | some real =>
      cases hfree
      simp only [hheap]
      rw [finishCall_succ (put_pc _ _ _) (by simp), continueOp, Option.bind_some, casFree,
        put_heap, if_pos rfl, finishCall_idle (put_pc _ _ _)]
      simp only [put_put, put_idle_quiet]
      rfl

/-- **`realloc`** is a whole call, unless it returns null. -/
theorem call_realloc_eq (hb : b ∈ pool)
    (hrealloc : realloc area h b.ptr b.size newSize = .ok (ptr, h')) (hptr : ptr ≠ 0) :
    ptr = b.ptr ∧ call area (quiet h pool) 0 (.realloc b newSize) =
      some (quiet h' ({ b with size := newSize } :: pool.erase b)) := by
  have hpc : (quiet h pool).pc 0 = .idle := rfl
  have hpool : b ∈ (quiet h pool).pool := hb
  rw [call, exec, hpc]
  simp only [if_pos hpool]
  rw [Option.bind_some, beginRealloc]
  rw [realloc] at hrealloc
  split at hrealloc
  · rename_i hlt
    rw [if_pos hlt, beginGrow]
    obtain ⟨r, hload, hrealloc⟩ := bind_eq_ok.mp hrealloc
    have hheap : growLoad area (quiet h pool).heap b.ptr b.size newSize = .ok r := hload
    rcases r with _ | ⟨oldFull, newFull, realNew⟩
    · cases hrealloc
      exact absurd rfl hptr
    · cases hrealloc
      refine ⟨rfl, ?_⟩
      simp only [hheap]
      rw [finishCall_succ (put_pc _ _ _) (by simp), continueOp, Option.bind_some, casGrow,
        put_heap, if_pos rfl, finishCall_succ (put_pc _ _ _) (by simp), continueOp,
        Option.bind_some, finishCall_idle (put_pc _ _ _)]
      simp only [put_put, put_idle_quiet]
      rfl
  · rename_i hle
    rw [if_neg hle]
    split at hrealloc
    · rename_i hlt
      rw [if_pos hlt, beginShrink]
      obtain ⟨⟨mem, r⟩, hload, hrealloc⟩ := bind_eq_ok.mp hrealloc
      have hheap : shrinkLoad (quiet h pool).heap b.ptr b.size newSize = .ok (mem, r) := hload
      rcases r with _ | ⟨newFull, realNew⟩
      · cases hrealloc
        refine ⟨rfl, ?_⟩
        simp only [hheap]
        rw [finishCall_succ (put_pc _ _ _) (by simp), continueOp, Option.bind_some,
          finishCall_idle (put_pc _ _ _)]
        simp only [put_put, put_idle_quiet]
        rfl
      · cases hrealloc
        refine ⟨rfl, ?_⟩
        simp only [hheap]
        rw [finishCall_succ (put_pc _ _ _) (by simp), continueOp, Option.bind_some, casShrink,
          put_heap, if_pos rfl, finishCall_succ (put_pc _ _ _) (by simp), continueOp,
          Option.bind_some, finishCall_idle (put_pc _ _ _)]
        simp only [put_put, put_idle_quiet]
        rfl
    · rename_i hge
      cases hrealloc
      obtain rfl : newSize = b.size := by omega
      refine ⟨rfl, ?_⟩
      rw [if_neg hge, finishCall_succ (put_pc _ _ _) (by simp), continueOp, Option.bind_some,
        finishCall_idle (put_pc _ _ _)]
      simp only [put_put, put_idle_quiet]
      rfl

/-! ### What the calls keep -/

/-- The rest of a call keeps the invariant. -/
theorem Inv.finishCall {n a : ℕ} {s s' : State} (hi : Inv area s reg)
    (hcall : Early.finishCall area a n s = some s') : ∃ reg', Inv area s' reg' := by
  induction n generalizing s reg with
  | zero =>
      cases hcall
      exact ⟨reg, hi⟩
  | succ n ih =>
      by_cases hpc : s.pc a = .idle
      · rw [finishCall_idle hpc] at hcall
        cases hcall
        exact ⟨reg, hi⟩
      · rw [finishCall_succ rfl hpc, Option.bind_eq_some_iff] at hcall
        obtain ⟨s₁, hstep, hcall⟩ := hcall
        obtain ⟨reg₁, hi₁⟩ := hi.continueOp hstep
        exact ih hi₁ hcall

/-- A whole call keeps the invariant. -/
theorem Inv.call {a : ℕ} {act : Act} {s s' : State} (hi : Inv area s reg)
    (hcall : Early.call area s a act = some s') : ∃ reg', Inv area s' reg' := by
  rw [Early.call, Option.bind_eq_some_iff] at hcall
  obtain ⟨s₁, hstep, hcall⟩ := hcall
  have hstep' : Step area s (a, act) s₁ := hstep
  obtain ⟨reg₁, hi₁⟩ := hi.step hstep'
  exact hi₁.finishCall hcall

/-- What holds of the pool between two calls. -/
def Sound (area : ℕ) (h : Heap) (pool : List Block) : Prop := ∃ reg, Inv area (quiet h pool) reg

/-- The pool after `init`. -/
theorem Sound.init (hpos : 0 < area) (haligned : 4096 ∣ area) (hmark : h.mark = area) :
    Sound area h [] :=
  ⟨_, Init.inv ⟨hpos, haligned, hmark, rfl, fun _ => rfl⟩⟩

/-- A block of the pool has a region below the mark. -/
theorem Sound.blockOk (hs : Sound area h pool) (hb : b ∈ pool) :
    ∃ r, BlockOk area h r b ∧ h.mark ≤ area + earlyAllocSize := by
  obtain ⟨reg, hi⟩ := hs
  have hat : (quiet h pool).At (.pool b) b := ⟨rfl, hb⟩
  exact ⟨_, hi.block hat, hi.le_end⟩

/-- A block of the pool lies in the area, with its size word. -/
theorem Sound.inside (hs : Sound area h pool) (hb : b ∈ pool) :
    area ≤ b.ptr ∧ b.ptr + fullSize b.size ≤ area + earlyAllocSize := by
  obtain ⟨r, hok, hend⟩ := hs.blockOk hb
  have hbase := hok.base
  have hle := hok.le
  have hfits := hok.fits
  have htop := hok.top
  omega

/-- A block of the pool is aligned. -/
theorem Sound.aligned (hs : Sound area h pool) (hb : b ∈ pool) : max b.align 4 ∣ b.ptr := by
  obtain ⟨r, hok, -⟩ := hs.blockOk hb
  exact hok.aligned

/-- Two blocks of the pool do not overlap. -/
theorem Sound.apart (hs : Sound area h pool) {b' : Block} (hb : b ∈ pool) (hb' : b' ∈ pool)
    (hne : b ≠ b') : b.ptr + b.size ≤ b'.ptr ∨ b'.ptr + b'.size ≤ b.ptr := by
  obtain ⟨reg, hi⟩ := hs
  have hat : (quiet h pool).At (.pool b) b := ⟨rfl, hb⟩
  have hat' : (quiet h pool).At (.pool b') b' := ⟨rfl, hb'⟩
  have hok := hi.block hat
  have hok' := hi.block hat'
  have hsize := size_add_le b.size
  have hsize' := size_add_le b'.size
  have h1 := hok.le
  have h2 := hok.fits
  have h3 := hok'.le
  have h4 := hok'.fits
  have hslots : Slot.pool b ≠ Slot.pool b' := fun heq => hne (Slot.pool.inj heq)
  rcases hi.apart hat hat' hslots with hle | hle <;> omega

/-- The pool has no block twice. -/
theorem Sound.nodup (hs : Sound area h pool) : pool.Nodup := by
  obtain ⟨reg, hi⟩ := hs
  exact hi.nodup

/-- What is written outside of the area does not concern the pool. -/
theorem Sound.congr (hs : Sound area h pool) {mem : Bytes}
    (hmem : ∀ x, area ≤ x → x < area + earlyAllocSize → mem x = h.mem x) :
    Sound area ⟨h.mark, mem⟩ pool := by
  obtain ⟨reg, hi⟩ := hs
  refine ⟨reg, hi.area_le, hi.le_end, hi.four, fun {x b} hat => ?_, hi.apart, hi.nodup,
    fun _ => trivial⟩
  have hat' : (quiet h pool).At x b := hat
  have hok := hi.block hat'
  refine hok.frame (fun y hy hy' => hmem y ?_ ?_) hok.top
  · exact hok.base.trans hy
  · exact Nat.lt_of_lt_of_le hy' (hok.top.trans hi.le_end)

/-- The owner of a block writes to it. -/
theorem Sound.store (hs : Sound area h pool) (hb : b ∈ pool) {i : ℕ} (hi : i < b.size)
    (v : UInt8) : Sound area ⟨h.mark, Function.update h.mem (b.ptr + i) v⟩ pool := by
  obtain ⟨reg, hinv⟩ := hs
  have hpool : b ∈ (quiet h pool).pool := hb
  exact ⟨reg, hinv.store hpool hi⟩

/-- **`alloc`** puts a block into the pool. -/
theorem Sound.alloc (hs : Sound area h pool)
    (halloc : Early.alloc area h size align = .ok (ptr, h')) :
    Sound area h' (⟨ptr, size, align⟩ :: pool) := by
  obtain ⟨reg, hi⟩ := hs
  exact hi.call (call_alloc_eq pool halloc)

/-- A size that fits into the area has a full size. -/
theorem getFullSize_of_le {size : ℕ} (hle : fullSize size < 2 ^ 32) :
    getFullSize size = .ok (fullSize size) := by
  have hsize := size_add_le size
  rw [getFullSize]
  split
  · rename_i hzero
    rw [hzero]
    rfl
  · have hfull : (size - 1) / 4 * 4 + 8 = fullSize size := by
      rw [fullSize]
      omega
    rw [ensure_pos (by omega), ok_bind]
    dsimp only
    rw [hfull, ensure_pos hle, ok_bind]

/-- The full size of a block of the pool. -/
theorem Sound.getFullSize_eq (hs : Sound area h pool) (hb : b ∈ pool) :
    getFullSize b.size = .ok (fullSize b.size) := by
  obtain ⟨hptr, hend⟩ := hs.inside hb
  have hsize : earlyAllocSize < 2 ^ 32 := by decide
  exact getFullSize_of_le (by omega)

/-- **`free`** takes a block from the pool, and writes to its bytes only. -/
theorem Sound.free (hs : Sound area h pool) (hb : b ∈ pool) :
    ∃ h', Early.free h b.ptr b.size = .ok h' ∧ Sound area h' (pool.erase b) ∧
      ∀ x, (x < b.ptr ∨ b.ptr + b.size ≤ x) → h'.mem x = h.mem x := by
  have hfull := hs.getFullSize_eq hb
  have hfill : ∀ x, (x < b.ptr ∨ b.ptr + b.size ≤ x) →
      h.mem.fill b.ptr b.size 0xEA x = h.mem x := fun x hx => Bytes.fill_of_notMem hx
  have hkeep : ∀ h', Early.free h b.ptr b.size = .ok h' → Sound area h' (pool.erase b) := by
    intro h' hfree
    obtain ⟨reg, hi⟩ := hs
    exact hi.call (call_free_eq hb hfree)
  by_cases htop : h.mark = b.ptr + fullSize b.size
  · have hfree : Early.free h b.ptr b.size = .ok ⟨h.mark -
        (h.mem.fill b.ptr b.size 0xEA).readWord (b.ptr + (fullSize b.size - 4)),
        h.mem.fill b.ptr b.size 0xEA⟩ := by
      rw [Early.free, freeLoad, hfull, ok_bind, if_pos htop]
      rfl
    exact ⟨_, hfree, hkeep _ hfree, hfill⟩
  · have hfree : Early.free h b.ptr b.size = .ok ⟨h.mark, h.mem.fill b.ptr b.size 0xEA⟩ := by
      rw [Early.free, freeLoad, hfull, ok_bind, if_neg htop]
      rfl
    exact ⟨_, hfree, hkeep _ hfree, hfill⟩

/-- **`realloc`** changes the size of a block of the pool, unless it returns null. -/
theorem Sound.realloc (hs : Sound area h pool) (hb : b ∈ pool)
    (hrealloc : Early.realloc area h b.ptr b.size newSize = .ok (ptr, h')) (hptr : ptr ≠ 0) :
    ptr = b.ptr ∧ Sound area h' ({ b with size := newSize } :: pool.erase b) := by
  obtain ⟨rfl, hcall⟩ := call_realloc_eq hb hrealloc hptr
  obtain ⟨reg, hi⟩ := hs
  exact ⟨rfl, hi.call hcall⟩

/-- What `realloc` keeps of a block. -/
theorem realloc_contents {oldSize : ℕ} (hfull : getFullSize oldSize = .ok (fullSize oldSize))
    (hrealloc : realloc area h ptr oldSize newSize = .ok (ptr, h')) {i : ℕ}
    (hi : i < min oldSize newSize) : h'.mem (ptr + i) = h.mem (ptr + i) := by
  have hsize := size_add_le oldSize
  have hsize' := size_add_le newSize
  rw [realloc] at hrealloc
  split at hrealloc
  · rename_i hlt
    have hmono := fullSize_mono (le_of_lt hlt)
    obtain ⟨r, hload, hrealloc⟩ := bind_eq_ok.mp hrealloc
    rcases r with _ | ⟨oldFull, newFull, realNew⟩
    · cases hrealloc
      rfl
    · cases hrealloc
      rw [growLoad, hfull, ok_bind] at hload
      obtain ⟨new, hnew, hload⟩ := bind_eq_ok.mp hload
      obtain ⟨rfl, -⟩ := Early.getFullSize_eq hnew
      split at hload
      · obtain ⟨-, hload⟩ := ensure_bind_eq_ok.mp hload
        obtain ⟨-, hload⟩ := ensure_bind_eq_ok.mp hload
        cases hload
        dsimp only [growCommit]
        rw [Bytes.writeWord_of_notMem (by omega), Bytes.fill_of_notMem (by omega)]
      · cases hload
  · split at hrealloc
    · rename_i hlt
      obtain ⟨⟨mem, r⟩, hload, hrealloc⟩ := bind_eq_ok.mp hrealloc
      rw [shrinkLoad, hfull, ok_bind] at hload
      obtain ⟨new, hnew, hload⟩ := bind_eq_ok.mp hload
      obtain ⟨rfl, -⟩ := Early.getFullSize_eq hnew
      split at hload
      · cases hload
        cases hrealloc
        dsimp only [shrinkCommit]
        rw [Bytes.writeWord_of_notMem (by omega), Bytes.fill_of_notMem (by omega)]
      · cases hload
        cases hrealloc
        exact Bytes.fill_of_notMem (by omega)
    · cases hrealloc
      rfl

/-- **`realloc` returns** the block if it does not grow, or is at the top and has room above. -/
theorem Sound.realloc_returns (hs : Sound area h pool) (hb : b ∈ pool)
    (hgrow : b.size < newSize → h.mark = b.ptr + fullSize b.size ∧
      b.ptr + fullSize newSize ≤ area + earlyAllocSize) :
    ∃ h', Early.realloc area h b.ptr b.size newSize = .ok (b.ptr, h') := by
  obtain ⟨reg, hi⟩ := hs
  have hat : (quiet h pool).At (.pool b) b := ⟨rfl, hb⟩
  have hok := hi.block hat
  have hs : Sound area h pool := ⟨reg, hi⟩
  have hfull := hs.getFullSize_eq hb
  have hbase := hok.base
  have hle := hok.le
  have hinside := (hs.inside hb).2
  have hsize : earlyAllocSize < 2 ^ 32 := by decide
  rw [Early.realloc]
  split
  · rename_i hlt
    obtain ⟨htop, hend⟩ := hgrow hlt
    have hmono := fullSize_mono (le_of_lt hlt)
    have hreal : h.mem.readWord (b.ptr + (fullSize b.size - 4)) = h.mark - (reg b.ptr).1 :=
      (hok.real_eq htop).2
    rw [reallocGrow, growLoad, hfull, ok_bind,
      @getFullSize_of_le newSize (by omega), ok_bind, if_pos htop,
      ensure_pos (by omega), ok_bind]
    dsimp only
    rw [hreal, ensure_pos (by omega), ok_bind]
    exact ⟨_, rfl⟩
  · split
    · rename_i hlt
      have hmono := fullSize_mono (le_of_lt hlt)
      rw [reallocShrink, shrinkLoad, hfull, ok_bind,
        @getFullSize_of_le newSize (by omega), ok_bind]
      split
      · exact ⟨_, rfl⟩
      · exact ⟨_, rfl⟩
    · exact ⟨_, rfl⟩

/-- **`realloc` returns null** for a block that is to grow and is not at the top. -/
theorem Sound.realloc_null (hs : Sound area h pool) (hb : b ∈ pool) (hlt : b.size < newSize)
    (htop : h.mark ≠ b.ptr + fullSize b.size) {r : ℕ × Heap}
    (hrealloc : Early.realloc area h b.ptr b.size newSize = .ok r) : r = (0, h) := by
  rw [Early.realloc, if_pos hlt, reallocGrow, growLoad, hs.getFullSize_eq hb, ok_bind] at hrealloc
  obtain ⟨x, hload, hrealloc⟩ := bind_eq_ok.mp hrealloc
  obtain ⟨new, -, hload⟩ := bind_eq_ok.mp hload
  rw [if_neg htop] at hload
  cases hload
  cases hrealloc
  rfl

/-- Where there is room for a new block, a block at the top has room to grow to its size. -/
theorem alloc_room (halloc : alloc area h size align = .ok (ptr, h')) :
    h.mark + fullSize size ≤ area + earlyAllocSize := by
  obtain ⟨⟨align', full⟩, hstart, halloc⟩ := bind_eq_ok.mp halloc
  obtain ⟨offset, hload, -⟩ := bind_eq_ok.mp halloc
  obtain ⟨-, hfull⟩ := ensure_bind_eq_ok.mp hstart
  obtain ⟨full', hfull, heq⟩ := bind_eq_ok.mp hfull
  cases heq
  obtain ⟨rfl, -⟩ := getFullSize_eq hfull
  have hpos := size_add_le size
  have hroom := (allocLoad_eq (by omega) hload).2.2.2
  omega

end HydroxKernel.Early
