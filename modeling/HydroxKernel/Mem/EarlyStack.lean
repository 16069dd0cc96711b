import HydroxKernel.Mem.EarlySafety

/-!
# Early Allocations on a Stack

What the early allocator guarantees as a whole: the blocks never overlap, whatever the
agents do, and an agent that runs alone and frees its blocks in the reverse order of their
allocation gets the mark back to where it was.

## Main results

* `early_sound_of_runs`: both, for every state that is reached.
-/

namespace HydroxKernel.Early

variable {area : ℕ} {s s' : State} {h : Heap} {b : Block} {reg : ℕ → ℕ × ℕ} {a : ℕ}

/-! ### Whole calls -/

/-- A call that is over. -/
theorem finishCall_idle {n : ℕ} (hpc : s.pc a = .idle) : finishCall area a n s = some s := by
  cases n with
  | zero => rfl
  | succ n =>
      rw [finishCall]
      rw [hpc]

/-- A call that goes on. -/
theorem finishCall_succ {n : ℕ} {pc : Pc} (hpc : s.pc a = pc) (hne : pc ≠ .idle) :
    finishCall area a (n + 1) s = (continueOp area s a pc).bind (finishCall area a n) := by
  conv => lhs; unfold finishCall
  rw [hpc]
  cases pc with
  | idle => exact absurd rfl hne
  | _ => rfl

/-- A call that has panicked does not return. -/
theorem finishCall_panicked {n : ℕ} (hpc : s.pc a = .panicked) :
    finishCall area a (n + 1) s = none := by
  rw [finishCall_succ hpc (by simp)]
  rfl

/-- The place where an agent was put. -/
@[simp] theorem put_pc (h : Heap) (pool : List Block) (pc : Pc) :
    (s.put a h pool pc).pc a = pc := Function.update_self _ _ _

/-- The heap that an agent leaves. -/
@[simp] theorem put_heap (h : Heap) (pool : List Block) (pc : Pc) :
    (s.put a h pool pc).heap = h := rfl

/-- `realloc_grow` up to the `compare_exchange`, on a block at the top. -/
theorem growLoad_top {ptr oldSize : ℕ} (area newSize : ℕ) (htop : h.mark = ptr + fullSize oldSize) :
    (∃ e, growLoad area h ptr oldSize newSize = .error e) ∨
      ∃ real, growLoad area h ptr oldSize newSize =
        .ok (some (fullSize oldSize, fullSize newSize, real)) := by
  rw [growLoad]
  cases hf : getFullSize oldSize with
  | error e => exact .inl ⟨e, rfl⟩
  | ok old =>
      obtain ⟨rfl, -⟩ := getFullSize_eq hf
      cases hf' : getFullSize newSize with
      | error e => exact .inl ⟨e, rfl⟩
      | ok new =>
          obtain ⟨rfl, -⟩ := getFullSize_eq hf'
          rw [ok_bind, ok_bind, if_pos htop]
          by_cases hend : fullSize newSize - fullSize oldSize ≤ area + earlyAllocSize - h.mark
          · rw [ensure_pos hend, ok_bind]
            dsimp only
            by_cases hreal : h.mem.readWord (ptr + (fullSize oldSize - 4)) - fullSize oldSize +
                fullSize newSize < 2 ^ 32
            · rw [ensure_pos hreal, ok_bind]
              exact .inr ⟨_, rfl⟩
            · rw [ensure_neg hreal, error_bind]
              exact .inl ⟨_, rfl⟩
          · rw [ensure_neg hend, error_bind]
            exact .inl ⟨_, rfl⟩

/-- `realloc_shrink` up to the `compare_exchange`, on a block at the top. -/
theorem shrinkLoad_top {ptr oldSize : ℕ} (newSize : ℕ) (htop : h.mark = ptr + fullSize oldSize) :
    (∃ e, shrinkLoad h ptr oldSize newSize = .error e) ∨
      ∃ mem real, shrinkLoad h ptr oldSize newSize = .ok (mem, some (fullSize newSize, real)) := by
  rw [shrinkLoad]
  cases hf : getFullSize oldSize with
  | error e => exact .inl ⟨e, rfl⟩
  | ok old =>
      obtain ⟨rfl, -⟩ := getFullSize_eq hf
      cases hf' : getFullSize newSize with
      | error e => exact .inl ⟨e, rfl⟩
      | ok new =>
          obtain ⟨rfl, -⟩ := getFullSize_eq hf'
          rw [ok_bind, ok_bind, if_pos htop]
          exact .inr ⟨_, _, rfl⟩

/-- `free` up to the `compare_exchange`, on a block at the top. -/
theorem freeLoad_top {ptr size : ℕ} (htop : h.mark = ptr + fullSize size) :
    (∃ e, freeLoad h ptr size = .error e) ∨
      ∃ mem real, freeLoad h ptr size = .ok (mem, some real) := by
  rw [freeLoad]
  cases hf : getFullSize size with
  | error e => exact .inl ⟨e, rfl⟩
  | ok full =>
      obtain ⟨rfl, -⟩ := getFullSize_eq hf
      rw [ok_bind, if_pos htop]
      exact .inr ⟨_, _, rfl⟩

/-- A call of `free` on the block at the top takes the mark to the start of its region. -/
theorem call_free (hi : Inv area s reg) (hidle : s.pc a = .idle) (hb : b ∈ s.pool)
    (htop : s.heap.mark = b.ptr + fullSize b.size) (hcall : call area s a (.free b) = some s') :
    Inv area s' reg ∧ s'.heap.mark = (reg b.ptr).1 ∧ s'.pool = s.pool.erase b := by
  have hinv := hi.beginFree (a := a) hb
  have hat₀ : s.At (.pool b) b := ⟨rfl, hb⟩
  have hword := (hi.block hat₀).add_four_le
  rw [call, exec, hidle] at hcall
  simp only [if_pos hb, Option.bind_some] at hcall
  rcases freeLoad_top htop with ⟨e, hload⟩ | ⟨mem, real, hload⟩
  · have hbegin : beginFree s a b = s.put a s.heap s.pool .panicked := by
      rw [beginFree]
      rw [hload]
    rw [hbegin, finishCall_panicked (put_pc _ _ _)] at hcall
    cases hcall
  · have hbegin : beginFree s a b =
        s.put a ⟨s.heap.mark, mem⟩ (s.pool.erase b) (.freeCas b s.heap.mark real) := by
      rw [beginFree]
      rw [hload]
    rw [hbegin] at hinv
    have hknow := hinv.pc a
    rw [put_pc] at hknow
    obtain ⟨h1, h2⟩ := hknow
    rw [hbegin, finishCall_succ (put_pc _ _ _) (by simp), continueOp, Option.bind_some,
      casFree, put_heap, if_pos rfl, finishCall_idle (put_pc _ _ _)] at hcall
    obtain rfl := Option.some.inj hcall
    refine ⟨hinv.freeCas (put_pc _ _ _) rfl, ?_, rfl⟩
    simp only [State.put]
    omega

/-- A call of `alloc` puts a block at the top, with the mark up to then as the start of its
region. -/
theorem call_alloc (hi : Inv area s reg) (hidle : s.pc a = .idle) {size align : ℕ}
    (hcall : call area s a (.alloc size align) = some s') :
    ∃ b reg', s'.pool = b :: s.pool ∧ b ∉ s.pool ∧ Inv area s' reg' ∧
      (reg' b.ptr).1 = s.heap.mark ∧ (reg' b.ptr).2 = s'.heap.mark ∧
      s'.heap.mark = b.ptr + fullSize b.size ∧ s'.pc a = .idle ∧
      ∀ x ∈ s.pool, reg' x.ptr = reg x.ptr ∧ x.ptr ≠ b.ptr := by
  rw [call, exec, hidle] at hcall
  cases hstart : allocStart size align with
  | error e =>
      rw [hstart] at hcall
      simp only [Option.bind_some, finishCall_panicked (put_pc _ _ _)] at hcall
      cases hcall
  | ok r =>
      obtain ⟨align', full⟩ := r
      rw [hstart] at hcall
      obtain ⟨-, hstart⟩ := ensure_bind_eq_ok.mp hstart
      cases hf : getFullSize size with
      | error e =>
          rw [hf, error_bind] at hstart
          cases hstart
      | ok full =>
          rw [hf, ok_bind] at hstart
          cases hstart
          obtain ⟨rfl, -⟩ := getFullSize_eq hf
          have hinv : Inv area (s.put a s.heap s.pool (.alloc size align (fullSize size))) reg :=
            hi.leave rfl rfl
          rw [Option.bind_some, finishCall_succ (put_pc _ _ _) (by simp), continueOp,
            Option.bind_some] at hcall
          set s₁ := s.put a s.heap s.pool (.alloc size align (fullSize size)) with hs₁
          cases hload : allocLoad area s₁.heap.mark (max align 4) (fullSize size) with
          | error e =>
              rw [loadAlloc_error hload, finishCall_panicked (put_pc _ _ _)] at hcall
              cases hcall
          | ok offset =>
              have hinv₂ : Inv area _ _ := @Inv.loadAlloc _ _ _ hinv a size align _ rfl
              rw [loadAlloc_ok hload] at hcall hinv₂
              rw [finishCall_succ (put_pc _ _ _) (by simp), continueOp, Option.bind_some,
                casAlloc, put_heap, if_pos rfl, finishCall_idle (put_pc _ _ _)] at hcall
              obtain rfl := Option.some.inj hcall
              have hinv₃ := hinv₂.allocCas (put_pc _ _ _) rfl
              have hptr : ∀ x ∈ s.pool, x.ptr ≠ s.heap.mark + offset := by
                intro x hx
                have hat : s.At (.pool x) x := ⟨rfl, hx⟩
                have h1 := (hi.block hat).fits
                have h2 := (hi.block hat).top
                have h3 := size_add_le x.size
                omega
              refine ⟨⟨s.heap.mark + offset, size, align⟩,
                Function.update reg (s.heap.mark + offset)
                  (s.heap.mark, s.heap.mark + (fullSize size + offset)), rfl,
                fun hmem => hptr _ hmem rfl, hinv₃, ?_, ?_, ?_, put_pc _ _ _,
                fun x hx => ⟨Function.update_of_ne (hptr x hx) _ _, hptr x hx⟩⟩
              · rw [Function.update_self]
              · rw [Function.update_self]
                rfl
              · rw [put_heap, allocCommit, hs₁, put_heap]
                simp only
                omega

/-- A call of `realloc` on the block at the top leaves it at the top, with the same start of
its region. -/
theorem call_realloc (hi : Inv area s reg) (hidle : s.pc a = .idle) {newSize : ℕ}
    (hb : b ∈ s.pool) (htop : s.heap.mark = b.ptr + fullSize b.size)
    (hcall : call area s a (.realloc b newSize) = some s') :
    Inv area s' (Function.update reg b.ptr ((reg b.ptr).1, b.ptr + fullSize newSize)) ∧
      s'.pool = { b with size := newSize } :: s.pool.erase b ∧
      s'.heap.mark = b.ptr + fullSize newSize := by
  have hat₀ : s.At (.pool b) b := ⟨rfl, hb⟩
  have hok := hi.block hat₀
  rw [call, exec, hidle] at hcall
  simp only [if_pos hb, Option.bind_some] at hcall
  rcases lt_trichotomy b.size newSize with hlt | heq | hgt
  · rw [beginRealloc, if_pos hlt] at hcall
    have hinv := hi.beginGrow (a := a) hb hlt
    rcases growLoad_top area newSize htop with ⟨e, hload⟩ | ⟨real, hload⟩
    · have hbegin : beginGrow area s a b newSize = s.put a s.heap s.pool .panicked := by
        rw [beginGrow]
        rw [hload]
      rw [hbegin, finishCall_panicked (put_pc _ _ _)] at hcall
      cases hcall
    · have hbegin : beginGrow area s a b newSize = s.put a s.heap (s.pool.erase b)
          (.growCas b newSize s.heap.mark (fullSize b.size) (fullSize newSize)
            real s.heap.mem) := by
        rw [beginGrow]
        rw [hload]
      rw [hbegin] at hinv
      rw [hbegin, finishCall_succ (put_pc _ _ _) (by simp), continueOp, Option.bind_some,
        casGrow, put_heap, if_pos rfl, finishCall_succ (put_pc _ _ _) (by simp), continueOp,
        Option.bind_some, finishCall_idle (put_pc _ _ _)] at hcall
      obtain rfl := Option.some.inj hcall
      have hinv₂ := hinv.growCas (put_pc _ _ _) rfl
      exact ⟨hinv₂.give (by rw [put_pc]; rfl), rfl, rfl⟩
  · subst heq
    rw [beginRealloc, if_neg (lt_irrefl _), if_neg (lt_irrefl _),
      finishCall_succ (put_pc _ _ _) (by simp), continueOp, Option.bind_some,
      finishCall_idle (put_pc _ _ _)] at hcall
    obtain rfl := Option.some.inj hcall
    have hreg : Function.update reg b.ptr ((reg b.ptr).1, b.ptr + fullSize b.size) = reg := by
      rw [Function.update_eq_self_iff, ← htop, ← (hok.real_eq htop).1]
    rw [hreg]
    have hinv : Inv area (s.put a s.heap (s.pool.erase b) (.reallocated b b.size s.heap.mem))
        reg := by
      refine hi.take hb (fun _ _ _ _ _ => rfl) (fun _ _ => rfl) ?_
      rintro b' hb'
      cases hb'
      exact ⟨rfl, hok⟩
    exact ⟨hinv.give (by rw [put_pc]; rfl), rfl, htop⟩
  · rw [beginRealloc, if_neg (by omega), if_pos hgt] at hcall
    have hinv := hi.beginShrink (a := a) hb hgt
    rcases shrinkLoad_top newSize htop with ⟨e, hload⟩ | ⟨mem, real, hload⟩
    · have hbegin : beginShrink s a b newSize = s.put a s.heap s.pool .panicked := by
        rw [beginShrink]
        rw [hload]
      rw [hbegin, finishCall_panicked (put_pc _ _ _)] at hcall
      cases hcall
    · have hbegin : beginShrink s a b newSize = s.put a ⟨s.heap.mark, mem⟩ (s.pool.erase b)
          (.shrinkCas b newSize s.heap.mark (fullSize newSize) real s.heap.mem) := by
        rw [beginShrink]
        rw [hload]
      rw [hbegin] at hinv
      rw [hbegin, finishCall_succ (put_pc _ _ _) (by simp), continueOp, Option.bind_some,
        casShrink, put_heap, if_pos rfl, finishCall_succ (put_pc _ _ _) (by simp), continueOp,
        Option.bind_some, finishCall_idle (put_pc _ _ _)] at hcall
      obtain rfl := Option.some.inj hcall
      have hinv₂ := hinv.shrinkCas (put_pc _ _ _) rfl
      exact ⟨hinv₂.give (by rw [put_pc]; rfl), rfl, rfl⟩

/-! ### The stack -/

/-- The regions of the blocks of a stack, listed from the top, follow one another from the
mark down to `base`, and the blocks reach to the ends of their regions. -/
def Tower (reg : ℕ → ℕ × ℕ) (base : ℕ) : ℕ → List Block → Prop
  | mark, [] => mark = base
  | mark, b :: rest => (reg b.ptr).2 = mark ∧ mark = b.ptr + fullSize b.size ∧
      Tower reg base (reg b.ptr).1 rest

/-- A tower depends on the regions of its blocks only. -/
theorem Tower.congr {reg' : ℕ → ℕ × ℕ} {base : ℕ} {stack : List Block} :
    ∀ {mark : ℕ}, Tower reg base mark stack →
      (∀ x ∈ stack, reg' x.ptr = reg x.ptr) → Tower reg' base mark stack := by
  induction stack with
  | nil => exact fun h _ => h
  | cons b rest ih =>
      rintro mark ⟨h1, h2, h3⟩ hreg
      have hb := hreg b List.mem_cons_self
      refine ⟨hb ▸ h1, h2, ?_⟩
      rw [hb]
      exact ih h3 fun x hx => hreg x (List.mem_cons_of_mem b hx)

/-- What holds between the calls of an agent that works on a stack of blocks. -/
structure OnStack (area a base : ℕ) (s : State) (stack : List Block) (reg : ℕ → ℕ × ℕ) :
    Prop where
  inv : Inv area s reg
  idle : s.pc a = .idle
  tower : Tower reg base s.heap.mark stack
  pool : ∀ b ∈ stack, b ∈ s.pool
  ptrs : (stack.map Block.ptr).Nodup

/-- One call of the agent. -/
theorem OnStack.step {base : ℕ} {stack stack' : List Block} {op : StackOp}
    (hx : OnStack area a base s stack reg)
    (hstep : StackStep area a (s, stack) op (s', stack')) :
    ∃ reg', OnStack area a base s' stack' reg' := by
  cases op with
  | alloc size align =>
      simp only [StackStep] at hstep
      obtain ⟨hcall, hidle, b, hpool, rfl⟩ := hstep
      obtain ⟨b', reg', hpool', -, hinv, h1, h2, h3, -, hother⟩ := call_alloc hx.inv hx.idle hcall
      obtain rfl : b = b' := by
        rw [hpool'] at hpool
        exact (List.cons.inj hpool).1.symm
      refine ⟨reg', hinv, hidle, ⟨h2, h3, ?_⟩, ?_, ?_⟩
      · rw [h1]
        exact hx.tower.congr fun x hmem => (hother x (hx.pool x hmem)).1
      · intro x hmem
        rw [hpool']
        rcases List.mem_cons.mp hmem with rfl | hmem
        · exact List.mem_cons_self
        · exact List.mem_cons_of_mem b (hx.pool x hmem)
      · refine List.nodup_cons.mpr ⟨fun hmem => ?_, hx.ptrs⟩
        obtain ⟨x, hmem, hptr⟩ := List.mem_map.mp hmem
        exact (hother x (hx.pool x hmem)).2 hptr
  | realloc newSize =>
      simp only [StackStep] at hstep
      obtain ⟨b, b', rest, rfl, hcall, hidle, hb', hmem, rfl⟩ := hstep
      obtain ⟨htop, hend, htower⟩ := hx.tower
      have hb := hx.pool b List.mem_cons_self
      obtain ⟨hinv, hpool, hmark⟩ := call_realloc hx.inv hx.idle hb hend hcall
      obtain ⟨hnot, hptrs⟩ := List.nodup_cons.mp hx.ptrs
      have hne : ∀ x ∈ rest, x.ptr ≠ b.ptr :=
        fun x hmem hptr => hnot (List.mem_map.mpr ⟨x, hmem, hptr⟩)
      obtain rfl : b' = { b with size := newSize } := by
        rcases hb' with rfl | rfl
        · rw [hpool, List.mem_cons, hx.inv.nodup.mem_erase_iff] at hmem
          rcases hmem with hmem | hmem
          · exact hmem
          · exact absurd rfl hmem.1
        · rfl
      refine ⟨_, hinv, hidle, ⟨?_, hmark, ?_⟩, ?_, List.nodup_cons.mpr ⟨hnot, hptrs⟩⟩
      · simp only [Function.update_self]
        exact hmark.symm
      · simp only [Function.update_self]
        exact htower.congr fun x hmem => Function.update_of_ne (hne x hmem) _ _
      · intro x hmem'
        rw [hpool]
        rcases List.mem_cons.mp hmem' with rfl | hrest
        · exact List.mem_cons_self
        · refine List.mem_cons_of_mem _ (hx.inv.nodup.mem_erase_iff.mpr ⟨?_, ?_⟩)
          · rintro rfl
            exact hne x hrest rfl
          · exact hx.pool x (List.mem_cons_of_mem b hrest)
  | free =>
      simp only [StackStep] at hstep
      obtain ⟨b, rfl, hcall, hidle⟩ := hstep
      obtain ⟨htop, hend, htower⟩ := hx.tower
      obtain ⟨hinv, hmark, hpool⟩ := call_free hx.inv hx.idle (hx.pool b List.mem_cons_self)
        hend hcall
      obtain ⟨hnot, hptrs⟩ := List.nodup_cons.mp hx.ptrs
      refine ⟨reg, hinv, hidle, by rw [hmark]; exact htower, fun x hmem => ?_, hptrs⟩
      rw [hpool]
      refine hx.inv.nodup.mem_erase_iff.mpr ⟨?_, hx.pool x (List.mem_cons_of_mem b hmem)⟩
      rintro rfl
      exact hnot (List.mem_map.mpr ⟨x, hmem, rfl⟩)
  | store b i v =>
      simp only [StackStep] at hstep
      obtain ⟨hexec, rfl⟩ := hstep
      simp only [exec] at hexec
      split at hexec
      · rename_i hb
        obtain rfl := Option.some.inj hexec
        exact ⟨reg, hx.inv.store hb.1 hb.2, hx.idle, hx.tower, hx.pool, hx.ptrs⟩
      · cases hexec

/-- An agent that has freed its blocks in the reverse order of their allocation has the mark
back where it was. -/
theorem mark_eq_of_stack (hi : Inv area s reg) (hidle : s.pc a = .idle) {ops : List StackOp}
    (h : Runs (StackStep area a) (s, []) ops (s', [])) : s'.heap.mark = s.heap.mark := by
  have hstart : OnStack area a s.heap.mark s [] reg :=
    ⟨hi, hidle, rfl, by simp, List.nodup_nil⟩
  obtain ⟨reg', hend⟩ := h.invariant
    (P := fun x => ∃ reg, OnStack area a s.heap.mark x.1 x.2 reg) ⟨reg, hstart⟩
    fun _ _ _ ⟨_, hx⟩ hstep => hx.step hstep
  exact hend.tower

/-- **The early allocator is sound.** In every reached state there are regions, one for each
block: they are in the area below the mark, they do not overlap, and each holds its block, at
an aligned address, and ends with its size. The mark is aligned, what has to survive a
`realloc` has survived it, and an agent that works alone on a stack of blocks gets the mark
back to where it was. -/
theorem early_sound_of_runs {s₀ : State} {ops : List (ℕ × Act)} (h₀ : Init area s₀)
    (h : Runs (Step area) s₀ ops s) :
    (∃ reg : ℕ → ℕ × ℕ,
      (∀ x b, s.At x b → area ≤ (reg b.ptr).1 ∧ (reg b.ptr).1 ≤ b.ptr ∧
        b.ptr + fullSize b.size ≤ (reg b.ptr).2 ∧ (reg b.ptr).2 ≤ s.heap.mark ∧
        s.heap.mem.readWord ((reg b.ptr).2 - 4) = (reg b.ptr).2 - (reg b.ptr).1 ∧
        max b.align 4 ∣ b.ptr) ∧
      ∀ x y b b', s.At x b → s.At y b' → x ≠ y →
        (reg b.ptr).2 ≤ (reg b'.ptr).1 ∨ (reg b'.ptr).2 ≤ (reg b.ptr).1) ∧
    area ≤ s.heap.mark ∧ s.heap.mark ≤ area + earlyAllocSize ∧ 4 ∣ s.heap.mark ∧
    (∀ a b oldSize before, s.pc a = .reallocated b oldSize before →
      ∀ i < min oldSize b.size, s.heap.mem (b.ptr + i) = before (b.ptr + i)) ∧
    ∀ a ops' s', s.pc a = .idle → Runs (StackStep area a) (s, []) ops' (s', []) →
      s'.heap.mark = s.heap.mark := by
  obtain ⟨reg, hi⟩ := exists_inv h₀ h
  refine ⟨⟨reg, fun x b hat => ?_, fun x y b b' hx hy hxy => hi.apart hx hy hxy⟩, hi.area_le,
    hi.le_end, hi.four, fun a b oldSize before hpc => ?_, fun a ops' s' hidle hruns => ?_⟩
  · have hok := hi.block hat
    exact ⟨hok.base, hok.le, hok.fits, hok.top, hok.word, hok.aligned⟩
  · have hknow := hi.pc a
    rw [hpc] at hknow
    exact hknow
  · exact mark_eq_of_stack hi hidle hruns

/-- The state after `init`, with the area at the address `4096`. -/
def exampleInit : State := ⟨⟨4096, fun _ => 0⟩, [], fun _ => .idle⟩

set_option maxRecDepth 4000 in
/-- Two agents that allocate at the same time: the agent `1` loses the race for the mark, and
gets the next block. -/
theorem early_sound_of_race : ∃ s : State, Runs (Step 4096) exampleInit
      [(0, .alloc 5 8), (1, .alloc 3 16), (0, .go), (1, .go), (0, .go), (1, .go), (1, .go),
        (1, .go)] s ∧ s.pool = [⟨4112, 3, 16⟩, ⟨4096, 5, 8⟩] ∧ 4 ∣ s.heap.mark := by
  have hrun : ∃ s : State, Runs (Step 4096) exampleInit
      [(0, .alloc 5 8), (1, .alloc 3 16), (0, .go), (1, .go), (0, .go), (1, .go), (1, .go),
        (1, .go)] s ∧ s.pool = [⟨4112, 3, 16⟩, ⟨4096, 5, 8⟩] := by
    exact ⟨_, .cons rfl (.cons rfl (.cons rfl (.cons rfl (.cons rfl (.cons rfl (.cons rfl (.cons rfl
      .refl))))))), rfl⟩
  obtain ⟨s, hrun, hpool⟩ := hrun
  have hinit : Init 4096 exampleInit := ⟨by decide, by decide, rfl, rfl, fun _ => rfl⟩
  exact ⟨s, hrun, hpool, (early_sound_of_runs hinit hrun).2.2.2.1⟩

end HydroxKernel.Early
