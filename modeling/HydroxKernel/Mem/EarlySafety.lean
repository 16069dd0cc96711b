import HydroxKernel.Mem.Early

/-!
# Safety of the Early Allocator

Every block, also one that an agent is working on, has a region of the area to itself: from
the mark at its allocation to the end of the block at that time, or after it has last changed
its size at the top of the area. A block that shrinks below other blocks keeps its region.
The word at the end of a region holds the size of the region.
-/

namespace HydroxKernel.Early

variable {area : ℕ} {s s' : State} {h h' : Heap} {b : Block} {r r' : ℕ × ℕ}
  {reg reg' : ℕ → ℕ × ℕ}

/-! ### Sizes -/

/-- The size of a block with its size word. -/
def fullSize (size : ℕ) : ℕ := (size + 3) / 4 * 4 + 4

/-- `get_full_size` rounds up, or panics. -/
theorem getFullSize_eq {size full : ℕ} (h : getFullSize size = .ok full) :
    full = fullSize size ∧ full < 2 ^ 32 := by
  rw [getFullSize] at h
  split at h
  · cases h
    subst size
    exact ⟨rfl, by decide⟩
  · obtain ⟨hs, h⟩ := ensure_bind_eq_ok.mp h
    obtain ⟨hf, h⟩ := ensure_bind_eq_ok.mp h
    cases h
    exact ⟨by rw [fullSize]; omega, hf⟩

/-- A block fits below its size word. -/
theorem size_add_le (size : ℕ) : size + 4 ≤ fullSize size := by
  rw [fullSize]
  omega

/-- Full sizes are multiples of four. -/
theorem four_dvd_fullSize (size : ℕ) : 4 ∣ fullSize size := by
  rw [fullSize]
  omega

/-- Larger blocks are not smaller with their size words. -/
theorem fullSize_mono {m n : ℕ} (h : m ≤ n) : fullSize m ≤ fullSize n := by
  rw [fullSize, fullSize]
  omega

/-- The bytes that are skipped to align a pointer. -/
theorem alignOffset_eq {ptr align offset : ℕ} (h4 : 4 ≤ align)
    (h : alignOffset ptr align = .ok offset) : align ∣ ptr + offset ∧ 4 ∣ align := by
  obtain ⟨⟨k, -, hk⟩, h⟩ := ensure_bind_eq_ok.mp h
  have hoff := Except.ok.inj h
  subst hoff
  constructor
  · have hmod := Nat.mod_lt ptr (show 0 < align by omega)
    have hsum : ptr + (align - ptr % align) = align * (ptr / align + 1) := by
      have hdiv := Nat.div_add_mod ptr align
      rw [Nat.mul_add, Nat.mul_one]
      omega
    rw [Nat.dvd_iff_mod_eq_zero, Nat.add_mod, Nat.mod_mod, ← Nat.add_mod, hsum]
    exact Nat.mul_mod_right _ _
  · have h2 : 2 ≤ k := by
      rcases k with _ | _ | k <;> omega
    rw [hk]
    exact Nat.pow_dvd_pow 2 h2

/-- What `alloc` knows when it has loaded the mark. -/
theorem allocLoad_eq {mark align full offset : ℕ} (hf : 0 < full)
    (h : allocLoad area mark (max align 4) full = .ok offset) :
    max align 4 ∣ mark + offset ∧ 4 ∣ mark + offset ∧ full + offset < 2 ^ 32 ∧
      mark + (full + offset) ≤ area + earlyAllocSize := by
  rw [allocLoad] at h
  cases ho : alignOffset mark (max align 4) with
  | error e =>
      rw [ho, error_bind] at h
      cases h
  | ok off =>
      rw [ho, ok_bind] at h
      obtain ⟨hlt, h⟩ := ensure_bind_eq_ok.mp h
      obtain ⟨-, h⟩ := ensure_bind_eq_ok.mp h
      obtain ⟨hle, h⟩ := ensure_bind_eq_ok.mp h
      cases h
      obtain ⟨hdvd, hfour⟩ := alignOffset_eq (by omega) ho
      exact ⟨hdvd, hfour.trans hdvd, hlt, by omega⟩

/-! ### Regions -/

/-- Two regions do not overlap. -/
def Apart (r r' : ℕ × ℕ) : Prop := r.2 ≤ r'.1 ∨ r'.2 ≤ r.1

/-- Two memories agree on a region. -/
def Agree (m m' : Bytes) (r : ℕ × ℕ) : Prop := ∀ x, r.1 ≤ x → x < r.2 → m' x = m x

/-- A block lies in its region, which lies in the area below the mark and ends with its
size. -/
structure BlockOk (area : ℕ) (h : Heap) (r : ℕ × ℕ) (b : Block) : Prop where
  base : area ≤ r.1
  le : r.1 ≤ b.ptr
  fits : b.ptr + fullSize b.size ≤ r.2
  top : r.2 ≤ h.mark
  word : h.mem.readWord (r.2 - 4) = r.2 - r.1
  aligned : max b.align 4 ∣ b.ptr
  four : 4 ∣ b.ptr
  start_four : 4 ∣ r.1

/-- The region of a block has room for the size word above its beginning. -/
theorem BlockOk.add_four_le (hb : BlockOk area h r b) : r.1 + 4 ≤ r.2 := by
  have h1 := hb.le
  have h2 := hb.fits
  have h3 := size_add_le b.size
  omega

/-- The bytes of a block are in its region. -/
theorem BlockOk.mem_region (hb : BlockOk area h r b) {i : ℕ} (hi : i < b.size) :
    r.1 ≤ b.ptr + i ∧ b.ptr + i < r.2 := by
  have h1 := hb.le
  have h2 := hb.fits
  have h3 := size_add_le b.size
  omega

/-- A block stays right while the memory of its region and the mark above it do. -/
theorem BlockOk.frame (hb : BlockOk area h r b) (hm : Agree h.mem h'.mem r)
    (ht : r.2 ≤ h'.mark) : BlockOk area h' r b := by
  refine ⟨hb.base, hb.le, hb.fits, ht, ?_, hb.aligned, hb.four, hb.start_four⟩
  rw [← hb.word]
  have h4 := hb.add_four_le
  exact Bytes.readWord_congr fun i hi => hm _ (by omega) (by omega)

/-- A region below what is written stays as it is. -/
theorem agree_fill {m : Bytes} {a n : ℕ} {v : UInt8} (ha : r.2 ≤ a ∨ a + n ≤ r.1) :
    Agree m (m.fill a n v) r :=
  fun _ h1 h2 => Bytes.fill_of_notMem (by omega)

/-- A region that does not hold the word stays as it is. -/
theorem agree_writeWord {m : Bytes} {a v : ℕ} (ha : r.2 ≤ a ∨ a + 4 ≤ r.1) :
    Agree m (m.writeWord a v) r :=
  fun _ h1 h2 => Bytes.writeWord_of_notMem (by omega)

/-- Memories that agree one after another agree. -/
theorem Agree.trans {m m' m'' : Bytes} (h₁ : Agree m m' r) (h₂ : Agree m' m'' r) :
    Agree m m'' r :=
  fun x hx hx' => (h₂ x hx hx').trans (h₁ x hx hx')

/-! ### The invariant -/

/-- The block that an agent is working on. -/
def Pc.block : Pc → Option Block
  | .freeCas b _ _ => some b
  | .growCas b _ _ _ _ _ _ => some b
  | .shrinkCas b _ _ _ _ _ => some b
  | .reallocated b _ _ => some b
  | _ => none

/-- What an agent knows, where `r` is the region of its block. -/
def PcOk (area : ℕ) (m : Bytes) (reg : ℕ → ℕ × ℕ) : Pc → Prop
  | .alloc size _ full => full = fullSize size
  | .allocCas size align full mark offset =>
      full = fullSize size ∧ max align 4 ∣ mark + offset ∧ 4 ∣ mark + offset ∧
        full + offset < 2 ^ 32 ∧ mark + (full + offset) ≤ area + earlyAllocSize
  | .freeCas b mark real => (reg b.ptr).2 = mark ∧ real = mark - (reg b.ptr).1
  | .growCas b newSize mark oldFull newFull realNew before =>
      (reg b.ptr).2 = mark ∧ b.ptr + oldFull = mark ∧ oldFull = fullSize b.size ∧
        newFull = fullSize newSize ∧ b.size < newSize ∧
        realNew = b.ptr + newFull - (reg b.ptr).1 ∧ b.ptr + newFull ≤ area + earlyAllocSize ∧
        ∀ i < b.size, m (b.ptr + i) = before (b.ptr + i)
  | .shrinkCas b newSize mark newFull realNew before =>
      (reg b.ptr).2 = mark ∧ newFull = fullSize newSize ∧ newSize < b.size ∧
        realNew = b.ptr + newFull - (reg b.ptr).1 ∧
        ∀ i < newSize, m (b.ptr + i) = before (b.ptr + i)
  | .reallocated b oldSize before =>
      ∀ i < min oldSize b.size, m (b.ptr + i) = before (b.ptr + i)
  | _ => True

/-- The places where a block can be: in the pool, or with an agent. -/
inductive Slot
  | pool (b : Block)
  | agent (a : ℕ)

/-- A block is at a place. -/
def State.At (s : State) : Slot → Block → Prop
  | .pool b, b' => b' = b ∧ b ∈ s.pool
  | .agent a, b => (s.pc a).block = some b

/-- The block that an agent works on. -/
theorem State.At.of_pc {s : State} {a : ℕ} {pc : Pc} {b : Block} (hpc : s.pc a = pc)
    (hb : pc.block = some b) : s.At (.agent a) b := by
  rw [State.At, hpc, hb]

/-- A step of an agent leaves the blocks of the others where they are. -/
theorem State.At.of_put {s : State} {a : ℕ} {h : Heap} {pc : Pc} {x : Slot} {b : Block}
    (hat : (s.put a h s.pool pc).At x b) (hne : x ≠ .agent a) : s.At x b := by
  cases x with
  | pool b' => exact hat
  | agent c =>
      have hc : c ≠ a := fun hc => hne (by rw [hc])
      simp only [State.At, State.put, Function.update_of_ne hc] at hat
      exact hat

/-- The invariant of the early allocator: the blocks are in regions that do not overlap, and
every agent is right in what it knows. -/
structure Inv (area : ℕ) (s : State) (reg : ℕ → ℕ × ℕ) : Prop where
  area_le : area ≤ s.heap.mark
  le_end : s.heap.mark ≤ area + earlyAllocSize
  four : 4 ∣ s.heap.mark
  block : ∀ {x b}, s.At x b → BlockOk area s.heap (reg b.ptr) b
  apart : ∀ {x y b b'}, s.At x b → s.At y b' → x ≠ y → Apart (reg b.ptr) (reg b'.ptr)
  nodup : s.pool.Nodup
  pc : ∀ a, PcOk area s.heap.mem reg (s.pc a)

/-- What an agent knows depends on the region of its block and on the memory there. -/
theorem PcOk.frame {pc : Pc} {m m' : Bytes} (hpc : PcOk area m reg pc)
    (hb : ∀ b, pc.block = some b → BlockOk area h (reg b.ptr) b ∧ Agree m m' (reg b.ptr) ∧
      reg' b.ptr = reg b.ptr) : PcOk area m' reg' pc := by
  have hbytes : ∀ b, pc.block = some b → ∀ i < b.size, m' (b.ptr + i) = m (b.ptr + i) := by
    intro b hb' i hi
    obtain ⟨hok, hag, -⟩ := hb b hb'
    obtain ⟨h1, h2⟩ := hok.mem_region hi
    exact hag _ h1 h2
  cases pc with
  | freeCas b mark real =>
      rw [PcOk, (hb b rfl).2.2]
      exact hpc
  | growCas b newSize mark oldFull newFull realNew before =>
      rw [PcOk, (hb b rfl).2.2]
      obtain ⟨h1, h2, h3, h4, h5, h6, h7, h8⟩ := hpc
      exact ⟨h1, h2, h3, h4, h5, h6, h7, fun i hi => (hbytes b rfl i hi).trans (h8 i hi)⟩
  | shrinkCas b newSize mark newFull realNew before =>
      rw [PcOk, (hb b rfl).2.2]
      obtain ⟨h1, h2, h3, h4, h5⟩ := hpc
      exact ⟨h1, h2, h3, h4, fun i hi => (hbytes b rfl i (by omega)).trans (h5 i hi)⟩
  | reallocated b oldSize before =>
      exact fun i hi => (hbytes b rfl i (by omega)).trans (hpc i hi)
  | _ => exact hpc

/-- **The step rule.** A step of the agent `a` takes the block at the place `x₀`, if there is
one, to the place `x₀'`, and leaves the others alone. -/
theorem Inv.change (hi : Inv area s reg) {a : ℕ} {w z : Slot}
    (ha : ∀ c, c ≠ a → s'.pc c = s.pc c ∧ Slot.agent c ≠ w)
    (hmark : area ≤ s'.heap.mark ∧ s'.heap.mark ≤ area + earlyAllocSize ∧ 4 ∣ s'.heap.mark)
    (hnodup : s'.pool.Nodup) (hpc : PcOk area s'.heap.mem reg' (s'.pc a))
    (hrest : ∀ x b, s'.At x b → x ≠ z → s.At x b ∧ x ≠ w)
    (hkeep : ∀ x b, s.At x b → x ≠ w → reg' b.ptr = reg b.ptr ∧
      Agree s.heap.mem s'.heap.mem (reg b.ptr) ∧ (reg b.ptr).2 ≤ s'.heap.mark)
    (hnew : ∀ b, s'.At z b → BlockOk area s'.heap (reg' b.ptr) b ∧
      ∀ x b', s.At x b' → x ≠ w → Apart (reg' b.ptr) (reg b'.ptr)) :
    Inv area s' reg' := by
  refine ⟨hmark.1, hmark.2.1, hmark.2.2, fun {x b} hx => ?_, fun {x y b b'} hx hy hxy => ?_,
    hnodup, fun c => ?_⟩
  · rcases eq_or_ne x z with rfl | hne
    · exact (hnew b hx).1
    · obtain ⟨hat, hne'⟩ := hrest x b hx hne
      obtain ⟨hreg, hag, htop⟩ := hkeep x b hat hne'
      rw [hreg]
      exact (hi.block hat).frame hag htop
  · rcases eq_or_ne x z with rfl | hx'
    · obtain ⟨hat, hne⟩ := hrest y b' hy (Ne.symm hxy)
      rw [(hkeep y b' hat hne).1]
      exact (hnew b hx).2 y b' hat hne
    · obtain ⟨hat, hne⟩ := hrest x b hx hx'
      rw [(hkeep x b hat hne).1]
      rcases eq_or_ne y z with rfl | hy'
      · exact ((hnew b' hy).2 x b hat hne).symm
      · obtain ⟨hat', hne'⟩ := hrest y b' hy hy'
        rw [(hkeep y b' hat' hne').1]
        exact hi.apart hat hat' hxy
  · rcases eq_or_ne c a with rfl | hc
    · exact hpc
    · rw [(ha c hc).1]
      refine (hi.pc c).frame (h := s.heap) fun b hb => ?_
      have hat : s.At (.agent c) b := hb
      obtain ⟨hreg, hag, -⟩ := hkeep _ b hat (ha c hc).2
      exact ⟨hi.block hat, hag, hreg⟩

/-! ### What one step keeps -/

/-- A region overlaps itself. -/
theorem BlockOk.not_apart (hb : BlockOk area h r b) : ¬ Apart r r := by
  have h4 := hb.add_four_le
  rintro (h1 | h1) <;> omega

/-- A step of an agent that ends without a block, and writes nothing. -/
theorem Inv.leave (hi : Inv area s reg) {a : ℕ} {pc : Pc} (hb : pc.block = none)
    (hpc : PcOk area s.heap.mem reg pc) : Inv area (s.put a s.heap s.pool pc) reg := by
  refine hi.change (a := a) (w := .agent a) (z := .agent a) ?_
    ⟨hi.area_le, hi.le_end, hi.four⟩ hi.nodup ?_ ?_ ?_ ?_
  · exact fun c hc => ⟨Function.update_of_ne hc _ _, by simpa using hc⟩
  · simpa only [State.put, Function.update_self] using hpc
  · exact fun x b' hat hne => ⟨hat.of_put hne, hne⟩
  · exact fun x b hat _ => ⟨rfl, fun _ _ _ => rfl, (hi.block hat).top⟩
  · intro b hat
    simp only [State.At, State.put, Function.update_self, hb] at hat
    cases hat

/-- A step of an agent that takes a block from the pool, and writes at most to its region. -/
theorem Inv.take (hi : Inv area s reg) {a : ℕ} {pc : Pc} {m : Bytes} (hmem : b ∈ s.pool)
    (hag : ∀ r, Apart (reg b.ptr) r → Agree s.heap.mem m r)
    (hpc : PcOk area m reg pc)
    (hb : ∀ b', pc.block = some b' → b'.ptr = b.ptr ∧
      BlockOk area ⟨s.heap.mark, m⟩ (reg b.ptr) b') :
    Inv area (s.put a ⟨s.heap.mark, m⟩ (s.pool.erase b) pc) reg := by
  have hat₀ : s.At (.pool b) b := ⟨rfl, hmem⟩
  refine hi.change (a := a) (w := .pool b) (z := .agent a) ?_
    ⟨hi.area_le, hi.le_end, hi.four⟩ (hi.nodup.erase b) ?_ ?_ ?_ ?_
  · exact fun c hc => ⟨Function.update_of_ne hc _ _, by simp⟩
  · simpa only [State.put, Function.update_self] using hpc
  · rintro (b₁ | c) b' hat hne
    · obtain ⟨rfl, hat⟩ := hat
      simp only [State.put, hi.nodup.mem_erase_iff] at hat
      exact ⟨⟨rfl, hat.2⟩, by simpa using hat.1⟩
    · have hc : c ≠ a := fun hc => hne (by rw [hc])
      simp only [State.At, State.put, Function.update_of_ne hc] at hat
      exact ⟨hat, by simp⟩
  · intro x b' hat hne
    exact ⟨rfl, hag _ (hi.apart hat₀ hat (Ne.symm hne)), (hi.block hat).top⟩
  · intro b' hat
    simp only [State.At, State.put, Function.update_self] at hat
    obtain ⟨hptr, hok⟩ := hb b' hat
    rw [hptr]
    exact ⟨hok, fun x b₁ hat₁ hne => hi.apart hat₀ hat₁ (Ne.symm hne)⟩

/-- A step of an agent that puts its block into the pool. -/
theorem Inv.give (hi : Inv area s reg) {a : ℕ} (hb : (s.pc a).block = some b) :
    Inv area (s.put a s.heap (b :: s.pool) .idle) reg := by
  have hat₀ : s.At (.agent a) b := hb
  have hnot : b ∉ s.pool := by
    intro hmem
    have hat₁ : s.At (.pool b) b := ⟨rfl, hmem⟩
    exact (hi.block hat₀).not_apart (hi.apart hat₀ hat₁ (by simp))
  refine hi.change (a := a) (w := .agent a) (z := .pool b) ?_
    ⟨hi.area_le, hi.le_end, hi.four⟩ (List.nodup_cons.mpr ⟨hnot, hi.nodup⟩) ?_ ?_ ?_ ?_
  · exact fun c hc => ⟨Function.update_of_ne hc _ _, by simpa using hc⟩
  · simp only [State.put, Function.update_self]
    trivial
  · rintro (b₁ | c) b' hat hne
    · obtain ⟨rfl, hat⟩ := hat
      have hb₁ : b' ≠ b := fun hb₁ => hne (by rw [hb₁])
      exact ⟨⟨rfl, by simpa [State.put, hb₁] using hat⟩, by simp⟩
    · rcases eq_or_ne c a with rfl | hc
      · simp only [State.At, State.put, Function.update_self] at hat
        cases hat
      · simp only [State.At, State.put, Function.update_of_ne hc] at hat
        exact ⟨hat, by simpa using hc⟩
  · exact fun x b' hat _ => ⟨rfl, fun _ _ _ => rfl, (hi.block hat).top⟩
  · rintro b' ⟨rfl, -⟩
    exact ⟨hi.block hat₀, fun x b₁ hat₁ hne => hi.apart hat₀ hat₁ (Ne.symm hne)⟩

/-- The region of a block that ends at the mark is above every other region. -/
theorem Inv.le_start (hi : Inv area s reg) {x y : Slot} {b b' : Block} (hx : s.At x b)
    (hy : s.At y b') (hxy : y ≠ x) (htop : (reg b.ptr).2 = s.heap.mark) :
    (reg b'.ptr).2 ≤ (reg b.ptr).1 := by
  have h1 := (hi.block hy).top
  have h2 := (hi.block hy).add_four_le
  rcases hi.apart hx hy (Ne.symm hxy) with h | h <;> omega

/-- The step of `free` that moves the mark. -/
theorem Inv.freeCas (hi : Inv area s reg) {a mark real : ℕ} (hpc : s.pc a = .freeCas b mark real)
    (hmark : s.heap.mark = mark) :
    Inv area (s.put a ⟨mark - real, s.heap.mem⟩ s.pool .idle) reg := by
  have hat₀ : s.At (.agent a) b := State.At.of_pc hpc rfl
  have hok := hi.block hat₀
  have hknow := hi.pc a
  rw [hpc] at hknow
  obtain ⟨htop, hreal⟩ := hknow
  have hbase := hok.base
  have hword := hok.add_four_le
  have hfits := hok.fits
  refine hi.change (a := a) (w := .agent a) (z := .agent a) ?_ ⟨?_, ?_, ?_⟩ hi.nodup ?_ ?_ ?_ ?_
  · exact fun c hc => ⟨Function.update_of_ne hc _ _, by simpa using hc⟩
  · simp only [State.put]
    omega
  · have := hi.le_end
    simp only [State.put]
    omega
  · simp only [State.put]
    have hstart : mark - real = (reg b.ptr).1 := by omega
    rw [hstart]
    exact hok.start_four
  · simp only [State.put, Function.update_self]
    trivial
  · exact fun x b' hat hne => ⟨hat.of_put hne, hne⟩
  · intro x b' hat hne
    have hle := hi.le_start hat₀ hat hne (htop.trans hmark.symm)
    refine ⟨rfl, fun _ _ _ => rfl, ?_⟩
    simp only [State.put]
    omega
  · intro b' hat
    simp only [State.At, State.put, Function.update_self] at hat
    cases hat

/-- Blocks at two places have different addresses. -/
theorem Inv.ptr_ne (hi : Inv area s reg) {x y : Slot} {b b' : Block} (hx : s.At x b)
    (hy : s.At y b') (hxy : y ≠ x) : b'.ptr ≠ b.ptr := by
  intro heq
  have hap := hi.apart hx hy (Ne.symm hxy)
  rw [heq] at hap
  exact (hi.block hx).not_apart hap

/-- The step of `realloc` that changes the size of a block at the top: the region gets a new
end, and the word there the new size. -/
theorem Inv.resize (hi : Inv area s reg) {a newSize mark oldSize : ℕ} {m before : Bytes}
    (hb : (s.pc a).block = some b) (hmark : s.heap.mark = mark) (htop : (reg b.ptr).2 = mark)
    (hend : b.ptr + fullSize newSize ≤ area + earlyAllocSize)
    (hag : ∀ r, r.2 ≤ (reg b.ptr).1 → Agree s.heap.mem m r)
    (hword : m.readWord (b.ptr + (fullSize newSize - 4)) =
      b.ptr + fullSize newSize - (reg b.ptr).1)
    (hbytes : ∀ i < min oldSize newSize, m (b.ptr + i) = before (b.ptr + i)) :
    Inv area (s.put a ⟨b.ptr + fullSize newSize, m⟩ s.pool
        (.reallocated { b with size := newSize } oldSize before))
      (Function.update reg b.ptr ((reg b.ptr).1, b.ptr + fullSize newSize)) := by
  have hat₀ : s.At (.agent a) b := hb
  have hok := hi.block hat₀
  have hsize := size_add_le newSize
  have hbelow := fun {x} {b'} (hat : s.At x b') (hne : x ≠ .agent a) =>
    hi.le_start hat₀ hat hne (htop.trans hmark.symm)
  have hle := hok.le
  refine hi.change (a := a) (w := .agent a) (z := .agent a) ?_ ⟨?_, hend, ?_⟩ hi.nodup ?_ ?_ ?_ ?_
  · exact fun c hc => ⟨Function.update_of_ne hc _ _, by simpa using hc⟩
  · have := hok.base
    simp only [State.put]
    omega
  · simp only [State.put]
    exact Nat.dvd_add hok.four (four_dvd_fullSize newSize)
  · simp only [State.put, Function.update_self]
    exact hbytes
  · exact fun x b' hat hne => ⟨hat.of_put hne, hne⟩
  · intro x b' hat hne
    have h1 := hbelow hat hne
    refine ⟨Function.update_of_ne (hi.ptr_ne hat₀ hat hne) _ _, hag _ h1, ?_⟩
    simp only [State.put]
    omega
  · intro b' hat
    simp only [State.At, State.put, Function.update_self] at hat
    cases hat
    simp only [State.put, Function.update_self]
    refine ⟨⟨hok.base, hok.le, le_rfl, le_rfl, ?_, hok.aligned, hok.four, hok.start_four⟩, ?_⟩
    · have h4 : b.ptr + fullSize newSize - 4 = b.ptr + (fullSize newSize - 4) := by omega
      simp only
      rw [h4, hword]
    · exact fun x b₁ hat₁ hne => .inr (hbelow hat₁ hne)

/-- The size of the region of a block fits in its size word. -/
theorem BlockOk.size_lt (hok : BlockOk area h r b) {e : ℕ} (he : e ≤ area + earlyAllocSize) :
    e - r.1 < 2 ^ 32 := by
  have hbase := hok.base
  have hsz : earlyAllocSize < 2 ^ 32 := by decide
  omega

/-- The step of `realloc_grow` that moves the mark. -/
theorem Inv.growCas (hi : Inv area s reg) {a newSize mark oldFull newFull realNew : ℕ}
    {before : Bytes} (hpc : s.pc a = .growCas b newSize mark oldFull newFull realNew before)
    (hmark : s.heap.mark = mark) : Inv area (s.put a
      (growCommit s.heap b.ptr oldFull newFull realNew) s.pool
        (.reallocated { b with size := newSize } b.size before))
      (Function.update reg b.ptr ((reg b.ptr).1, b.ptr + fullSize newSize)) := by
  have hat₀ : s.At (.agent a) b := State.At.of_pc hpc rfl
  have hok := hi.block hat₀
  have hknow := hi.pc a
  rw [hpc] at hknow
  obtain ⟨htop, hold, rfl, rfl, hlt, rfl, hend, hbytes⟩ := hknow
  have h1 := size_add_le b.size
  have h2 := size_add_le newSize
  have h3 := fullSize_mono (le_of_lt hlt)
  have hle := hok.le
  have hfits := hok.fits
  refine hi.resize hat₀ hmark htop hend ?_ ?_ ?_
  · intro r hr
    exact (agree_fill (.inl (by omega))).trans (agree_writeWord (.inl (by omega)))
  · exact Bytes.readWord_writeWord (hok.size_lt hend)
  · intro i hi'
    rw [← hbytes i (by omega), Bytes.writeWord_of_notMem (by omega),
      Bytes.fill_of_notMem (by omega)]

/-- The step of `realloc_shrink` that moves the mark. -/
theorem Inv.shrinkCas (hi : Inv area s reg) {a newSize mark newFull realNew : ℕ} {before : Bytes}
    (hpc : s.pc a = .shrinkCas b newSize mark newFull realNew before)
    (hmark : s.heap.mark = mark) : Inv area (s.put a
      (shrinkCommit s.heap b.ptr newFull realNew) s.pool
        (.reallocated { b with size := newSize } b.size before))
      (Function.update reg b.ptr ((reg b.ptr).1, b.ptr + fullSize newSize)) := by
  have hat₀ : s.At (.agent a) b := State.At.of_pc hpc rfl
  have hok := hi.block hat₀
  have hknow := hi.pc a
  rw [hpc] at hknow
  obtain ⟨htop, rfl, hlt, rfl, hbytes⟩ := hknow
  have h2 := size_add_le newSize
  have h3 := fullSize_mono (le_of_lt hlt)
  have hle := hok.le
  have hfits := hok.fits
  have hmend := hi.le_end
  have hend : b.ptr + fullSize newSize ≤ area + earlyAllocSize := by omega
  refine hi.resize hat₀ hmark htop hend ?_ ?_ ?_
  · exact fun r hr => agree_writeWord (.inl (by omega))
  · exact Bytes.readWord_writeWord (hok.size_lt hend)
  · intro i hi'
    rw [← hbytes i (by omega), Bytes.writeWord_of_notMem (by omega)]

/-- The step of `alloc` that moves the mark. -/
theorem Inv.allocCas (hi : Inv area s reg) {a size align full mark offset : ℕ}
    (hpc : s.pc a = .allocCas size align full mark offset) (hmark : s.heap.mark = mark) :
    Inv area (s.put a (allocCommit s.heap mark full offset)
        (⟨mark + offset, size, align⟩ :: s.pool) .idle)
      (Function.update reg (mark + offset) (mark, mark + (full + offset))) := by
  have hknow := hi.pc a
  rw [hpc] at hknow
  obtain ⟨rfl, halign, hfour, hsmall, hend⟩ := hknow
  have hsize := size_add_le size
  have hbelow := fun {x} {b'} (hat : s.At x b') => (hi.block hat).top
  have hnone : ∀ b', ¬ s.At (.agent a) b' := by
    intro b' hat
    rw [State.At, hpc] at hat
    cases hat
  have hptr : ∀ {x b'}, s.At x b' → b'.ptr ≠ mark + offset := by
    intro x b' hat
    have h1 := hbelow hat
    have h2 := (hi.block hat).fits
    have h3 := size_add_le b'.size
    omega
  refine hi.change (a := a) (w := .agent a) (z := .pool ⟨mark + offset, size, align⟩) ?_
    ⟨?_, hend, ?_⟩ ?_ ?_ ?_ ?_ ?_
  · exact fun c hc => ⟨Function.update_of_ne hc _ _, by simpa using hc⟩
  · have := hi.area_le
    simp only [State.put, allocCommit]
    omega
  · simp only [State.put, allocCommit]
    have := Nat.dvd_add hfour (four_dvd_fullSize size)
    rwa [show mark + (fullSize size + offset) = mark + offset + fullSize size by omega]
  · refine List.nodup_cons.mpr ⟨fun hmem => ?_, hi.nodup⟩
    have hat : s.At (.pool _) _ := ⟨rfl, hmem⟩
    exact hptr hat rfl
  · simp only [State.put, Function.update_self]
    trivial
  · rintro (b₁ | c) b' hat hne
    · obtain ⟨rfl, hat⟩ := hat
      have hb' : b' ≠ ⟨mark + offset, size, align⟩ := fun hb' => hne (by rw [hb'])
      exact ⟨⟨rfl, by simpa [State.put, hb'] using hat⟩, by simp⟩
    · rcases eq_or_ne c a with rfl | hc
      · simp only [State.At, State.put, Function.update_self] at hat
        cases hat
      · simp only [State.At, State.put, Function.update_of_ne hc] at hat
        exact ⟨hat, by simpa using hc⟩
  · intro x b' hat _
    have h1 := hbelow hat
    refine ⟨Function.update_of_ne (hptr hat) _ _, ?_, ?_⟩
    · exact (agree_fill (.inl (by omega))).trans (agree_writeWord (.inl (by omega)))
    · simp only [State.put, allocCommit]
      omega
  · rintro b' ⟨rfl, -⟩
    simp only [State.put, Function.update_self]
    refine ⟨⟨hmark ▸ hi.area_le, Nat.le_add_right _ _, ?_, le_rfl, ?_, halign, hfour,
      hmark ▸ hi.four⟩, ?_⟩
    · simp only
      omega
    · simp only [allocCommit]
      rw [show mark + (fullSize size + offset) - 4 = mark + (offset + fullSize size - 4) by omega,
        Bytes.readWord_writeWord hsmall]
      omega
    · intro x b₁ hat₁ _
      have h1 := hbelow hat₁
      exact .inr (by simp only; omega)

/-- A region beside that of the block is not touched by what is written in the block. -/
theorem agree_fill_block {m : Bytes} {i n : ℕ} {v : UInt8} (hb : BlockOk area h (reg b.ptr) b)
    (hn : i + n ≤ b.size) (r : ℕ × ℕ) (hr : Apart (reg b.ptr) r) :
    Agree m (m.fill (b.ptr + i) n v) r := by
  have h1 := hb.le
  have h2 := hb.fits
  have h3 := size_add_le b.size
  rcases hr with hr | hr
  · exact agree_fill (.inr (by omega))
  · exact agree_fill (.inl (by omega))

/-- The block is still right after something is written in it, also with a smaller size. -/
theorem BlockOk.fill_block (hb : BlockOk area h r b) {i n newSize : ℕ} {v : UInt8}
    (hn : i + n ≤ b.size) (hs : newSize ≤ b.size) :
    BlockOk area ⟨h.mark, h.mem.fill (b.ptr + i) n v⟩ r { b with size := newSize } := by
  have h1 := hb.fits
  have h2 := size_add_le b.size
  have h3 := fullSize_mono hs
  refine ⟨hb.base, hb.le, ?_, hb.top, ?_, hb.aligned, hb.four, hb.start_four⟩
  · simp only
    omega
  · rw [← hb.word]
    exact Bytes.readWord_congr fun j hj => Bytes.fill_of_notMem (by omega)

/-- What `free` knows when it has loaded the mark: the block is at the top, and the word at
its end is the size of its region. -/
theorem BlockOk.real_eq (hb : BlockOk area h r b) (htop : h.mark = b.ptr + fullSize b.size) :
    r.2 = h.mark ∧ h.mem.readWord (b.ptr + (fullSize b.size - 4)) = h.mark - r.1 := by
  have h1 := hb.fits
  have h2 := hb.top
  have h3 := size_add_le b.size
  have hend : r.2 = h.mark := by omega
  refine ⟨hend, ?_⟩
  rw [show b.ptr + (fullSize b.size - 4) = r.2 - 4 by omega, hb.word, hend]

/-- The first step of `free`. -/
theorem Inv.beginFree (hi : Inv area s reg) {a : ℕ} (hmem : b ∈ s.pool) :
    Inv area (beginFree s a b) reg := by
  have hat₀ : s.At (.pool b) b := ⟨rfl, hmem⟩
  have hok := hi.block hat₀
  have hag := agree_fill_block (m := s.heap.mem) (i := 0) (n := b.size) (v := 0xEA) hok (by omega)
  have hok' := hok.fill_block (i := 0) (n := b.size) (v := 0xEA) (by omega) le_rfl
  rw [Nat.add_zero] at hag hok'
  rw [Early.beginFree, freeLoad]
  cases hf : getFullSize b.size with
  | error e => exact hi.leave rfl trivial
  | ok full =>
      obtain ⟨rfl, -⟩ := getFullSize_eq hf
      rw [ok_bind]
      rcases eq_or_ne s.heap.mark (b.ptr + fullSize b.size) with htop | htop
      · rw [if_pos htop]
        obtain ⟨h1, h2⟩ := hok'.real_eq htop
        refine hi.take hmem hag ⟨h1, h2⟩ ?_
        rintro b' hb'
        cases hb'
        exact ⟨rfl, hok'⟩
      · rw [if_neg htop]
        refine hi.take hmem hag trivial ?_
        rintro b' hb'
        cases hb'

/-- The first step of `realloc_grow`. -/
theorem Inv.beginGrow (hi : Inv area s reg) {a newSize : ℕ} (hmem : b ∈ s.pool)
    (hlt : b.size < newSize) : Inv area (beginGrow area s a b newSize) reg := by
  have hat₀ : s.At (.pool b) b := ⟨rfl, hmem⟩
  have hok := hi.block hat₀
  rw [Early.beginGrow]
  split
  · exact hi.leave rfl trivial
  · rename_i oldFull newFull realNew hload
    rw [growLoad] at hload
    cases hf : getFullSize b.size with
    | error e =>
        rw [hf, error_bind] at hload
        cases hload
    | ok old =>
        obtain ⟨rfl, -⟩ := getFullSize_eq hf
        rw [hf, ok_bind] at hload
        cases hf' : getFullSize newSize with
        | error e =>
            rw [hf', error_bind] at hload
            cases hload
        | ok new =>
            obtain ⟨rfl, -⟩ := getFullSize_eq hf'
            rw [hf', ok_bind] at hload
            split at hload
            · rename_i htop
              obtain ⟨hend, hload⟩ := ensure_bind_eq_ok.mp hload
              obtain ⟨-, hload⟩ := ensure_bind_eq_ok.mp hload
              cases hload
              obtain ⟨h1, h2⟩ := hok.real_eq htop
              have h3 := fullSize_mono (le_of_lt hlt)
              have h4 := hok.le
              have h5 := hi.le_end
              refine hi.take hmem (fun _ _ _ _ _ => rfl) ?_ ?_
              · refine ⟨h1, htop.symm, rfl, rfl, hlt, ?_, by omega, fun _ _ => rfl⟩
                rw [h2]
                omega
              · rintro b' hb'
                cases hb'
                exact ⟨rfl, hok⟩
            · cases hload
  · exact hi.leave rfl trivial

/-- The first step of `realloc_shrink`. -/
theorem Inv.beginShrink (hi : Inv area s reg) {a newSize : ℕ} (hmem : b ∈ s.pool)
    (hlt : newSize < b.size) : Inv area (beginShrink s a b newSize) reg := by
  have hat₀ : s.At (.pool b) b := ⟨rfl, hmem⟩
  have hok := hi.block hat₀
  have hag := agree_fill_block (m := s.heap.mem) (i := newSize) (n := b.size - newSize)
    (v := 0xEA) hok (by omega)
  have hkept : ∀ i < newSize, s.heap.mem.fill (b.ptr + newSize) (b.size - newSize) 0xEA
      (b.ptr + i) = s.heap.mem (b.ptr + i) :=
    fun i hi => Bytes.fill_of_notMem (by omega)
  rw [Early.beginShrink, shrinkLoad]
  cases hf : getFullSize b.size with
  | error e => exact hi.leave rfl trivial
  | ok old =>
      obtain ⟨rfl, -⟩ := getFullSize_eq hf
      rw [ok_bind]
      cases hf' : getFullSize newSize with
      | error e => exact hi.leave rfl trivial
      | ok new =>
          obtain ⟨rfl, -⟩ := getFullSize_eq hf'
          rw [ok_bind]
          rcases eq_or_ne s.heap.mark (b.ptr + fullSize b.size) with htop | htop
          · rw [if_pos htop]
            have hok' := hok.fill_block (i := newSize) (n := b.size - newSize) (v := 0xEA)
              (by omega) le_rfl
            obtain ⟨h1, h2⟩ := hok'.real_eq htop
            have h4 := hok.le
            refine hi.take hmem hag ?_ ?_
            · refine ⟨h1, rfl, hlt, ?_, hkept⟩
              rw [h2]
              simp only
              omega
            · rintro b' hb'
              cases hb'
              exact ⟨rfl, hok'⟩
          · rw [if_neg htop]
            refine hi.take hmem hag ?_ ?_
            · intro i hi'
              exact hkept i (by simp only at hi'; omega)
            · rintro b' hb'
              cases hb'
              exact ⟨rfl, hok.fill_block (by omega) (by omega)⟩

/-- The owner of a block writes to it. -/
theorem Inv.store (hi : Inv area s reg) {i : ℕ} {v : UInt8} (hmem : b ∈ s.pool)
    (hlt : i < b.size) :
    Inv area { s with heap := ⟨s.heap.mark, Function.update s.heap.mem (b.ptr + i) v⟩ } reg := by
  have hat₀ : s.At (.pool b) b := ⟨rfl, hmem⟩
  have hok := hi.block hat₀
  have hfill : Function.update s.heap.mem (b.ptr + i) v = s.heap.mem.fill (b.ptr + i) 1 v := by
    funext x
    rw [Function.update_apply, Bytes.fill]
    congr 1
    simp only [eq_iff_iff]
    omega
  have hag := agree_fill_block (m := s.heap.mem) (i := i) (n := 1) (v := v) hok (by omega)
  rw [hfill]
  have hrest : ∀ x b', s.At x b' → x ≠ .pool b →
      Agree s.heap.mem (s.heap.mem.fill (b.ptr + i) 1 v) (reg b'.ptr) :=
    fun x b' hat hne => hag _ (hi.apart hat₀ hat (Ne.symm hne))
  refine ⟨hi.area_le, hi.le_end, hi.four, fun {x b'} hat => ?_, hi.apart, hi.nodup, fun c => ?_⟩
  · rcases eq_or_ne x (.pool b) with rfl | hne
    · obtain ⟨rfl, -⟩ := hat
      exact hok.fill_block (by omega) le_rfl
    · have hat' : s.At x b' := hat
      exact (hi.block hat').frame (hrest x b' hat' hne) (hi.block hat').top
  · refine (hi.pc c).frame (h := s.heap) fun b' hb' => ?_
    have hat : s.At (.agent c) b' := hb'
    exact ⟨hi.block hat, hrest _ b' hat (by simp), rfl⟩

/-- A step after which a block that was not at the top has its new size. -/
theorem Inv.shrunk (hi : Inv area s reg) {a newSize mark newFull realNew : ℕ} {before : Bytes}
    (hpc : s.pc a = .shrinkCas b newSize mark newFull realNew before) :
    Inv area (s.put a s.heap s.pool (.reallocated { b with size := newSize } b.size before))
      reg := by
  have hat₀ : s.At (.agent a) b := State.At.of_pc hpc rfl
  have hok := hi.block hat₀
  have hknow := hi.pc a
  rw [hpc] at hknow
  obtain ⟨-, -, hlt, -, hbytes⟩ := hknow
  have hfull := fullSize_mono (le_of_lt hlt)
  have hfits := hok.fits
  refine hi.change (a := a) (w := .agent a) (z := .agent a) ?_
    ⟨hi.area_le, hi.le_end, hi.four⟩ hi.nodup ?_ ?_ ?_ ?_
  · exact fun c hc => ⟨Function.update_of_ne hc _ _, by simpa using hc⟩
  · simp only [State.put, Function.update_self]
    exact fun i hi' => hbytes i (by simp only at hi'; omega)
  · exact fun x b' hat hne => ⟨hat.of_put hne, hne⟩
  · exact fun x b' hat _ => ⟨rfl, fun _ _ _ => rfl, (hi.block hat).top⟩
  · intro b' hat
    simp only [State.At, State.put, Function.update_self] at hat
    cases hat
    refine ⟨⟨hok.base, hok.le, ?_, hok.top, hok.word, hok.aligned, hok.four, hok.start_four⟩, ?_⟩
    · simp only
      omega
    · intro x b₁ hat₁ hne
      have hap := hi.apart hat₀ hat₁ (Ne.symm hne)
      exact hap

/-- `alloc` panics with the mark that it has loaded. -/
theorem loadAlloc_error {a size align full : ℕ} {e : Panic}
    (h : allocLoad area s.heap.mark (max align 4) full = .error e) :
    loadAlloc area s a size align full = s.put a s.heap s.pool .panicked := by
  unfold loadAlloc
  rw [h]

/-- `alloc` goes on with the mark that it has loaded. -/
theorem loadAlloc_ok {a size align full offset : ℕ}
    (h : allocLoad area s.heap.mark (max align 4) full = .ok offset) :
    loadAlloc area s a size align full =
      s.put a s.heap s.pool (.allocCas size align full s.heap.mark offset) := by
  unfold loadAlloc
  rw [h]

/-- The step of `alloc` that loads the mark. -/
theorem Inv.loadAlloc (hi : Inv area s reg) {a size align full : ℕ}
    (hfull : full = fullSize size) : Inv area (loadAlloc area s a size align full) reg := by
  have hpos : 0 < full := by
    have := size_add_le size
    omega
  cases hload : allocLoad area s.heap.mark (max align 4) full with
  | error e =>
      rw [loadAlloc_error hload]
      exact hi.leave rfl trivial
  | ok offset =>
      have hfacts := allocLoad_eq hpos hload
      rw [loadAlloc_ok hload]
      exact hi.leave rfl ⟨hfull, hfacts⟩

/-- A later step of an operation keeps the invariant. -/
theorem Inv.continueOp (hi : Inv area s reg) {a : ℕ}
    (h : Early.continueOp area s a (s.pc a) = some s') : ∃ reg', Inv area s' reg' := by
  have hknow := hi.pc a
  cases hpc : s.pc a with
  | idle | panicked =>
      rw [hpc] at h
      cases h
  | alloc size align full =>
      rw [hpc] at h hknow
      obtain rfl := Option.some.inj h
      exact ⟨reg, hi.loadAlloc hknow⟩
  | allocCas size align full mark offset =>
      rw [hpc] at h hknow
      obtain rfl := Option.some.inj h
      rw [casAlloc]
      split
      · exact ⟨_, hi.allocCas hpc ‹_›⟩
      · exact ⟨reg, hi.leave rfl hknow.1⟩
  | freeCas b mark real =>
      rw [hpc] at h
      obtain rfl := Option.some.inj h
      rw [casFree]
      split
      · exact ⟨reg, hi.freeCas hpc ‹_›⟩
      · exact ⟨reg, hi.leave rfl trivial⟩
  | growCas b newSize mark oldFull newFull realNew before =>
      rw [hpc] at h
      obtain rfl := Option.some.inj h
      rw [casGrow]
      split
      · exact ⟨_, hi.growCas hpc ‹_›⟩
      · exact ⟨reg, hi.give (by rw [hpc]; rfl)⟩
  | shrinkCas b newSize mark newFull realNew before =>
      rw [hpc] at h
      obtain rfl := Option.some.inj h
      rw [casShrink]
      split
      · exact ⟨_, hi.shrinkCas hpc ‹_›⟩
      · exact ⟨reg, hi.shrunk hpc⟩
  | reallocated b oldSize before =>
      rw [hpc] at h
      obtain rfl := Option.some.inj h
      exact ⟨reg, hi.give (by rw [hpc]; rfl)⟩

/-- Every step keeps the invariant. -/
theorem Inv.step (hi : Inv area s reg) {op : ℕ × Act} (h : Step area s op s') :
    ∃ reg', Inv area s' reg' := by
  obtain ⟨a, act⟩ := op
  cases act with
  | alloc size align =>
      simp only [Step, exec] at h
      split at h
      · split at h <;> obtain rfl := Option.some.inj h
        · rename_i hstart
          refine ⟨reg, hi.leave rfl ?_⟩
          obtain ⟨-, hstart⟩ := ensure_bind_eq_ok.mp hstart
          cases hf : getFullSize size with
          | error e =>
              rw [hf, error_bind] at hstart
              cases hstart
          | ok full =>
              rw [hf, ok_bind] at hstart
              cases hstart
              exact (getFullSize_eq hf).1
        · exact ⟨reg, hi.leave rfl trivial⟩
      · cases h
  | free b =>
      simp only [Step, exec] at h
      split at h
      · split at h
        · obtain rfl := Option.some.inj h
          exact ⟨reg, hi.beginFree ‹_›⟩
        · cases h
      · cases h
  | realloc b newSize =>
      simp only [Step, exec] at h
      split at h
      · split at h
        · rename_i hmem
          obtain rfl := Option.some.inj h
          refine ⟨reg, ?_⟩
          rw [beginRealloc]
          split
          · exact hi.beginGrow hmem ‹_›
          · split
            · exact hi.beginShrink hmem ‹_›
            · have hat₀ : s.At (.pool b) b := ⟨rfl, hmem⟩
              refine hi.take hmem (fun _ _ _ _ _ => rfl) (fun _ _ => rfl) ?_
              rintro b' hb'
              cases hb'
              exact ⟨rfl, hi.block hat₀⟩
        · cases h
      · cases h
  | store b i v =>
      simp only [Step, exec] at h
      split at h
      · rename_i hb
        obtain rfl := Option.some.inj h
        exact ⟨reg, hi.store hb.1 hb.2⟩
      · cases h
  | go => exact hi.continueOp h

/-- The invariant holds after `init`. -/
theorem Init.inv (h : Init area s) : Inv area s (fun _ => (0, 0)) := by
  have hnone : ∀ x b, ¬ s.At x b := by
    rintro (b | a) b' hat
    · obtain ⟨-, hat⟩ := hat
      rw [h.pool] at hat
      cases hat
    · rw [State.At, h.idle] at hat
      cases hat
  refine ⟨h.mark.ge, ?_, ?_, fun hat => absurd hat (hnone _ _),
    fun hat => absurd hat (hnone _ _), by rw [h.pool]; exact List.nodup_nil, fun a => ?_⟩
  · rw [h.mark]
    exact Nat.le_add_right _ _
  · rw [h.mark]
    exact (by decide : 4 ∣ 4096).trans h.aligned
  · rw [h.idle]
    trivial

/-- Every reached state satisfies the invariant. -/
theorem exists_inv {s₀ : State} {ops : List (ℕ × Act)} (h₀ : Init area s₀)
    (h : Runs (Step area) s₀ ops s) : ∃ reg, Inv area s reg :=
  h.invariant (P := fun s => ∃ reg, Inv area s reg) ⟨_, h₀.inv⟩
    fun _ _ _ ⟨_, hi⟩ hstep => hi.step hstep

end HydroxKernel.Early
