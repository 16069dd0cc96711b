import HydroxKernel.Mem.SlabSafety

/-!
# Which Bad Pointers `free` Detects

`free` looks for the slab that a pointer lies in, asserts that it is at a multiple of the
object size in there, and takes a bit that is already set in the bitmap for a double free. A
bit that is not set stands for an object that is handed out, but also for the first object of a
slab that holds the `SlabInfo` of the slab, and for what is left behind the last object when
the object size does not divide the size of the slab.

## Main results

* `freeObject_cases` and `free_cases`: all that `free` can do with a pointer.
* `free_detects_iff`: it detects exactly the bad pointers that are not of these two kinds.
-/

namespace HydroxKernel.Slab

open Links Util

variable {ι : Type} {allocs : ι → SlabAlloc} {s : State ι} {all avail : Option ι → List ℕ}
  {pending : List Block} {sys : System ι} {c : SlabAlloc} {a : Option ι} {x p idx fuel : ℕ}

/-! ### The bits of a slab -/

/-- A slab has at most 512 objects, also with what is left behind the last one. -/
theorem SlabAlloc.slabSize_le (c : SlabAlloc) : c.slabSize ≤ 512 * c.objectSize := by
  have hge := c.size_ge
  rw [slabSize, pagesPerSlab, pageSize]
  split_ifs <;> omega

/-- An object that begins inside a slab is one of its objects, or is cut off by its end. -/
theorem SlabAlloc.idx_of_lt (c : SlabAlloc) (h : idx * c.objectSize < c.slabSize) :
    idx < c.objectsPerSlab ∨
      idx = c.objectsPerSlab ∧ c.objectsPerSlab * c.objectSize ≠ c.slabSize := by
  rcases Nat.lt_trichotomy idx c.objectsPerSlab with hlt | heq | hgt
  · exact .inl hlt
  · rw [heq] at h
    exact .inr ⟨heq, h.ne⟩
  · have hpos : 0 < c.objectSize := Nat.lt_of_lt_of_le (by decide) c.size_ge
    have hle : c.slabSize < (c.objectsPerSlab + 1) * c.objectSize :=
      Nat.lt_mul_of_div_lt (Nat.lt_succ_self _) hpos
    have hmul := Nat.mul_le_mul_right c.objectSize hgt
    exact absurd (hle.trans_le hmul) (Nat.not_lt.mpr h.le)

/-- The pointers into a slab that `free` takes for objects that are handed out: the first
object, if it is the `SlabInfo`, and the one that the end of the slab cuts off. -/
def SlabAlloc.Blind (c : SlabAlloc) (start p : ℕ) : Prop :=
  (c.ownInfo = true ∧ p = start) ∨
    (c.objectsPerSlab * c.objectSize ≠ c.slabSize ∧ p = start + c.objectsPerSlab * c.objectSize)

/-- `free` is blind to a pointer of an allocator. -/
def Blind (allocs : ι → SlabAlloc) (s : State ι) (i : ι) (p : ℕ) : Prop :=
  ∃ slabs, Chain (fun x => (s.infos x).next) (s.lists (some i)).first slabs none ∧
    ∃ x ∈ slabs, (allocs i).Blind (s.infos x).ptr p

/-- A pointer that `free` is blind to lies in the slab, at a bit that is not set. -/
theorem GoodSlab.blind {info : SlabInfo} (h : GoodSlab c x info) (hblind : c.Blind info.ptr p) :
    ∃ idx, p = info.getObj idx c.objectSize ∧ idx * c.objectSize < c.slabSize ∧
      info.free.mem idx = false ∧ ¬ c.Used info.free idx := by
  rcases hblind with ⟨hown, rfl⟩ | ⟨htail, rfl⟩
  · refine ⟨0, ?_, ?_, (h.own hown).2, fun hused => hused.2.2 hown rfl⟩
    · rw [SlabInfo.getObj, Nat.zero_mul, Nat.add_zero]
    · rw [Nat.zero_mul]
      exact c.slabSize_pos
  · refine ⟨c.objectsPerSlab, rfl, Nat.lt_of_le_of_ne (Nat.div_mul_le_self ..) htail, ?_,
      fun hused => (Nat.lt_irrefl _ hused.1).elim⟩
    exact eq_false_of_ne_true fun hmem => Nat.lt_irrefl _ (h.bound _ hmem)

/-- A bit that is not set stands for an object that is handed out, or `free` is blind to it. -/
theorem used_or_blind {info : SlabInfo} (hlt : idx * c.objectSize < c.slabSize)
    (hmem : info.free.mem idx = false) :
    c.Used info.free idx ∨ c.Blind info.ptr (info.getObj idx c.objectSize) := by
  rcases c.idx_of_lt hlt with hobj | ⟨rfl, htail⟩
  · by_cases hown : c.ownInfo = true ∧ idx = 0
    · refine .inr (.inl ⟨hown.1, ?_⟩)
      rw [hown.2, SlabInfo.getObj, Nat.zero_mul, Nat.add_zero]
    · exact .inl ⟨hobj, hmem, fun ho h0 => hown ⟨ho, h0⟩⟩
  · exact .inr (.inr ⟨htail, rfl⟩)

/-- A pointer lies in one slab at most. -/
theorem Inv.slab_unique {i : ι} {y : ℕ} (h : Inv allocs s all avail pending)
    (hx : x ∈ all (some i)) (hy : y ∈ all (some i))
    (hinx : (s.infos x).ptr ≤ p ∧ p < (s.infos x).ptr + (allocs i).slabSize)
    (hiny : (s.infos y).ptr ≤ p ∧ p < (s.infos y).ptr + (allocs i).slabSize) : y = x := by
  by_contra hne
  have hap := h.apart_slabs hy hx hne
  simp only [Block.Apart, slabBlock, config] at hap
  omega

/-- Objects of a slab are told apart by their addresses. -/
theorem getObj_inj (info : SlabInfo) (c : SlabAlloc) {i j : ℕ}
    (heq : info.getObj i c.objectSize = info.getObj j c.objectSize) : i = j := by
  have hpos : 0 < c.objectSize := Nat.lt_of_lt_of_le (by decide) c.size_ge
  rw [SlabInfo.getObj, SlabInfo.getObj, Nat.add_left_cancel_iff] at heq
  exact Nat.eq_of_mul_eq_mul_right hpos heq

/-- An object that begins inside a slab lies between its bounds. -/
theorem getObj_in (info : SlabInfo) (hlt : idx * c.objectSize < c.slabSize) :
    info.ptr ≤ info.getObj idx c.objectSize ∧
      info.getObj idx c.objectSize < info.ptr + c.slabSize :=
  ⟨Nat.le_add_right _ _, Nat.add_lt_add_left hlt _⟩

/-- A pointer that `free` is blind to is no object that is handed out. -/
theorem Inv.not_taken_of_blind {i : ι} (h : Inv allocs s all avail pending)
    (hx : x ∈ all (some i)) (hblind : (allocs i).Blind (s.infos x).ptr p) :
    ¬ Taken (allocs i) s.infos (all (some i)) p := by
  rintro ⟨y, hy, j, hused, hp⟩
  have hgood : GoodSlab (allocs i) x (s.infos x) := (h.slabs (some i)).good x hx
  obtain ⟨idx, hidx, hlt, -, hnot⟩ := hgood.blind hblind
  have hpos : 0 < (allocs i).objectSize := Nat.lt_of_lt_of_le (by decide) (allocs i).size_ge
  have hobj := getObj_mem (s.infos y) hused.1
  have hinx := getObj_in (s.infos x) hlt
  rw [← hidx] at hinx
  obtain rfl := h.slab_unique hx hy hinx (by omega)
  rw [hidx] at hp
  exact hnot (getObj_inj _ _ hp ▸ hused)

section Free

variable [DecidableEq ι]

/-- **What `free` does with a pointer into a slab.** It returns if the bit of the pointer is not
set. -/
theorem freeObject_cases (hgood : GoodSlab c x (s.infos x))
    (hin : (s.infos x).ptr ≤ p ∧ p < (s.infos x).ptr + c.slabSize) :
    (∃ idx, p = (s.infos x).getObj idx c.objectSize ∧ idx * c.objectSize < c.slabSize ∧
        (s.infos x).free.mem idx = false ∧ ∃ s', freeObject c a s x p = .ok s') ∨
      (∃ idx, p = (s.infos x).getObj idx c.objectSize ∧ (s.infos x).free.mem idx = true ∧
        freeObject c a s x p = .error .doubleFree) ∨
      ((∀ idx, p ≠ (s.infos x).getObj idx c.objectSize) ∧
        freeObject c a s x p = .error .misaligned) := by
  have hpos : 0 < c.objectSize := Nat.lt_of_lt_of_le (by decide) c.size_ge
  obtain ⟨off, rfl⟩ : ∃ off, p = (s.infos x).ptr + off := ⟨p - (s.infos x).ptr, by omega⟩
  have hlt : off < c.slabSize := by omega
  rw [freeObject]
  dsimp only
  rw [Nat.add_sub_cancel_left]
  by_cases haligned : off = off / c.objectSize * c.objectSize
  · rw [ensure_pos haligned, ok_bind]
    obtain ⟨idx, hidx⟩ : ∃ idx, off / c.objectSize = idx := ⟨_, rfl⟩
    rw [hidx] at haligned ⊢
    rw [haligned] at hlt ⊢
    have h512 : idx < 512 :=
      Nat.lt_of_mul_lt_mul_right (Nat.lt_of_lt_of_le hlt c.slabSize_le)
    obtain ⟨free, hset, -⟩ := (s.infos x).free.set_spec h512 true
    rw [hset]
    cases hmem : (s.infos x).free.mem idx with
    | true =>
        refine .inr (.inl ⟨idx, rfl, hmem, ?_⟩)
        rw [Except.mapError, ok_bind]
        dsimp only
        rw [ensure_neg Bool.noConfusion, error_bind]
    | false =>
        have hcard : (s.infos x).numFree + 1 < 2 ^ 16 := by
          have hle : (s.infos x).free.members.card ≤ (Finset.range c.objectsPerSlab).card :=
            Finset.card_le_card fun k hk =>
              Finset.mem_range.mpr (hgood.bound k (FixedBitVector.mem_members.mp hk))
          rw [Finset.card_range, ← hgood.numFree_eq] at hle
          have h512 := c.objectsPerSlab_le
          omega
        refine .inl ⟨idx, rfl, hlt, hmem, ?_⟩
        rw [Except.mapError, ok_bind]
        dsimp only
        rw [ensure_pos rfl, ok_bind, ensure_pos hcard, ok_bind]
        split
        · exact ⟨_, rfl⟩
        · exact ⟨_, rfl⟩
  · refine .inr (.inr ⟨fun idx heq => haligned ?_, by rw [ensure_neg haligned, error_bind]⟩)
    rw [SlabInfo.getObj, Nat.add_left_cancel_iff] at heq
    rw [heq, Nat.mul_div_cancel _ hpos]

/-- The loop of `free` passes all slabs that the pointer does not lie in. -/
theorem freeLoop_outside {first : Option ℕ} {slabs : List ℕ}
    (hchain : Chain (fun x => (s.infos x).next) first slabs none)
    (hout : ∀ y ∈ slabs, ¬ ((s.infos y).ptr ≤ p ∧ p < (s.infos y).ptr + c.slabSize))
    (hfuel : slabs.length < fuel) : freeLoop c a s p fuel first = .error .wrongAllocator := by
  induction slabs generalizing first fuel with
  | nil =>
      obtain ⟨fuel, rfl⟩ := Nat.exists_eq_succ_of_ne_zero (Nat.ne_zero_of_lt hfuel)
      rw [chain_nil] at hchain
      rw [hchain, freeLoop]
  | cons y slabs ih =>
      obtain ⟨fuel, rfl⟩ := Nat.exists_eq_succ_of_ne_zero (Nat.ne_zero_of_lt hfuel)
      obtain ⟨rfl, hchain⟩ := hchain
      rw [freeLoop, if_neg (hout y List.mem_cons_self)]
      exact ih hchain (fun z hz => hout z (List.mem_cons_of_mem _ hz))
        (Nat.lt_of_succ_lt_succ hfuel)

/-- `free` gives a pointer to the slab that it lies in. -/
theorem Inv.free_eq {i : ι} (h : Inv allocs s all avail pending) (hx : x ∈ all (some i))
    (hin : (s.infos x).ptr ≤ p ∧ p < (s.infos x).ptr + (allocs i).slabSize) :
    free allocs s i p = freeObject (allocs i) (some i) s x p :=
  freeLoop_eq (h.slabs (some i)).chain hx hin
    (fun _ hy hyx hiny => hyx (h.slab_unique hx hy hin hiny))
    (Nat.lt_succ_of_le (h.length_le (some i)))

/-- **What `free` does with a pointer.** It returns for the objects that are handed out and for
the pointers that it is blind to, and panics for all others. -/
theorem Inv.free_cases {i : ι} (h : Inv allocs s all avail []) (p : ℕ) :
    (Taken (allocs i) s.infos (all (some i)) p ∧ ∃ s', free allocs s i p = .ok s') ∨
      (Blind allocs s i p ∧ ∃ s', free allocs s i p = .ok s') ∨
      ¬ Blind allocs s i p ∧ ∃ e, free allocs s i p = .error e ∧ e ≠ .diverged := by
  have hchain := (h.slabs (some i)).chain
  have hgood : ∀ x ∈ all (some i), GoodSlab (allocs i) x (s.infos x) := (h.slabs (some i)).good
  have hblind : Blind allocs s i p →
      ∃ x ∈ all (some i), (allocs i).Blind (s.infos x).ptr p := by
    rintro ⟨slabs, hslabs, hx⟩
    rwa [hslabs.unique hchain] at hx
  by_cases hin : ∃ x ∈ all (some i),
      (s.infos x).ptr ≤ p ∧ p < (s.infos x).ptr + (allocs i).slabSize
  · obtain ⟨x, hx, hin⟩ := hin
    rw [h.free_eq hx hin]
    rcases freeObject_cases (a := some i) (hgood x hx) hin with
      ⟨idx, rfl, hlt, hmem, hok⟩ | ⟨idx, rfl, hmem, herr⟩ | ⟨hno, herr⟩
    · rcases used_or_blind hlt hmem with hused | hbl
      · exact .inl ⟨⟨x, hx, idx, hused, rfl⟩, hok⟩
      · exact .inr (.inl ⟨⟨_, hchain, x, hx, hbl⟩, hok⟩)
    · refine .inr (.inr ⟨fun hbl => ?_, _, herr, by decide⟩)
      obtain ⟨y, hy, hbl⟩ := hblind hbl
      obtain ⟨j, hj, hlt, hfree, -⟩ := (hgood y hy).blind hbl
      have hiny := getObj_in (s.infos y) hlt
      rw [← hj] at hiny
      obtain rfl := h.slab_unique hx hy hin hiny
      rw [getObj_inj _ _ hj, hfree] at hmem
      exact Bool.noConfusion hmem
    · refine .inr (.inr ⟨fun hbl => ?_, _, herr, by decide⟩)
      obtain ⟨y, hy, hbl⟩ := hblind hbl
      obtain ⟨j, hj, hlt, -, -⟩ := (hgood y hy).blind hbl
      have hiny := getObj_in (s.infos y) hlt
      rw [← hj] at hiny
      obtain rfl := h.slab_unique hx hy hin hiny
      exact hno j hj
  · have herr : free allocs s i p = .error .wrongAllocator :=
      freeLoop_outside hchain (fun y hy hpy => hin ⟨y, hy, hpy⟩)
        (Nat.lt_succ_of_le (h.length_le (some i)))
    refine .inr (.inr ⟨fun hbl => ?_, _, herr, by decide⟩)
    obtain ⟨y, hy, hbl⟩ := hblind hbl
    obtain ⟨j, rfl, hlt, -, -⟩ := (hgood y hy).blind hbl
    exact hin ⟨y, hy, getObj_in (s.infos y) hlt⟩

/-! ### Runs -/

/-- `free` accepts a live object, and panics for any other pointer. -/
def Detects (allocs : ι → SlabAlloc) (sys : System ι) (i : ι) (p : ℕ) : Prop :=
  ((i, p) ∈ sys.live ∧ ∃ s', free allocs sys.mem i p = .ok s') ∨
    (i, p) ∉ sys.live ∧ ∃ e, free allocs sys.mem i p = .error e ∧ e ≠ .diverged

/-- **Which pointers `free` judges rightly.** In every state that a run reaches, for every
allocator and every pointer: `free` returns if the pointer is the address of a live object and
panics if it is not, exactly if the pointer is neither the first object of a slab that keeps
its `SlabInfo` there, nor the end of the last object of a slab, where something is left. -/
theorem free_detects_iff {infos : ℕ → SlabInfo} {ops : List (Op ι)}
    (h : Runs (Step allocs) (System.init infos) ops sys) (i : ι) (p : ℕ) :
    Detects allocs sys i p ↔ ¬ Blind allocs sys.mem i p := by
  obtain ⟨all, avail, hinv, hlive⟩ := sysInv_of_runs h
  have hchain := (hinv.slabs (some i)).chain
  constructor
  · rintro (⟨hp, -⟩ | ⟨-, e, herr, -⟩) ⟨slabs, hslabs, x, hx, hbl⟩
    · rw [hslabs.unique hchain] at hx
      exact hinv.not_taken_of_blind hx hbl ((hlive.mem_iff i p).mp hp)
    · rcases hinv.free_cases (i := i) p with ⟨-, s', hok⟩ | ⟨-, s', hok⟩ | ⟨hno, -⟩
      · cases herr.symm.trans hok
      · cases herr.symm.trans hok
      · exact hno ⟨slabs, hslabs, x, hx, hbl⟩
  · intro hbl
    rcases hinv.free_cases (i := i) p with ⟨htaken, hok⟩ | ⟨hyes, -⟩ | ⟨-, herr⟩
    · exact .inl ⟨(hlive.mem_iff i p).mpr htaken, hok⟩
    · exact absurd hyes hbl
    · refine .inr ⟨fun hp => ?_, herr⟩
      obtain ⟨s', avail', hok, -⟩ := free_spec hinv ((hlive.mem_iff i p).mp hp)
      obtain ⟨e, herr, -⟩ := herr
      cases herr.symm.trans hok

end Free

/-- An allocator whose objects leave a rest in their slabs, and one that keeps its `SlabInfo`s
in its slabs. -/
def looseAllocs : Bool → SlabAlloc
  | false => ⟨24, false, by decide, by decide, by decide, by decide⟩
  | true => ⟨96, true, by decide, by decide, by decide, by decide⟩

/-- The state after a call. -/
def loosely (sys : System Bool) (op : Op Bool) : System Bool :=
  (exec looseAllocs sys op).toOption.getD sys

/-- One object of each allocator. -/
def looseObjects : System Bool :=
  loosely (loosely (System.init blank) (.alloc false bumpPages)) (.alloc true bumpPages)

/-- The objects are handed out by a run. -/
theorem runs_looseObjects : Runs (Step looseAllocs) (System.init blank)
    [.alloc false bumpPages, .alloc true bumpPages] looseObjects := by
  have hstep : ∀ {sys : System Bool} (op : Op Bool), op.Valid sys →
      (exec looseAllocs sys op).isOk = true → Step looseAllocs sys op (loosely sys op) :=
    fun op hv hok => ⟨hv, eq_ok_of_isOk hok _⟩
  exact Runs.cons (hstep _ trivial (by decide +kernel))
    (Runs.cons (hstep _ trivial (by decide +kernel)) Runs.refl)

/-- The theorem for a live object. -/
theorem free_detects_iff_live :
    ∃ sys, Runs (Step looseAllocs) (System.init blank)
        [.alloc false bumpPages, .alloc true bumpPages] sys ∧
      Detects looseAllocs sys false 4096 ∧ ¬ Blind looseAllocs sys.mem false 4096 := by
  have hlive : (false, 4096) ∈ looseObjects.live := by decide +kernel
  have hok : (free looseAllocs looseObjects.mem false 4096).isOk = true := by decide +kernel
  have hdetects : Detects looseAllocs looseObjects false 4096 :=
    .inl ⟨hlive, _, eq_ok_of_isOk hok looseObjects.mem⟩
  exact ⟨_, runs_looseObjects, hdetects,
    (free_detects_iff runs_looseObjects false 4096).mp hdetects⟩

/-- **`free` accepts pointers that are no objects.** The first allocator has handed out the object
at `4096` only, and `free` accepts `8176`, where the last sixteen bytes of its slab begin. The
second one keeps the `SlabInfo` of its slab at `28672`, and `free` accepts this address. -/
theorem free_accepts_bad :
    ∃ sys, Runs (Step looseAllocs) (System.init blank)
        [.alloc false bumpPages, .alloc true bumpPages] sys ∧
      sys.live = [(true, 28768), (false, 4096)] ∧
      (∃ s', free looseAllocs sys.mem false 8176 = .ok s') ∧
      (∃ s', free looseAllocs sys.mem true 28672 = .ok s') ∧
      ¬ Detects looseAllocs sys false 8176 ∧ ¬ Detects looseAllocs sys true 28672 := by
  have hlive : looseObjects.live = [(true, 28768), (false, 4096)] := by decide +kernel
  have hbad : ∀ {i p}, (free looseAllocs looseObjects.mem i p).isOk = true →
      (i, p) ∉ looseObjects.live → ¬ Detects looseAllocs looseObjects i p := by
    rintro i p hok hnot (⟨hmem, -⟩ | ⟨-, e, herr, -⟩)
    · exact hnot hmem
    · cases herr.symm.trans (eq_ok_of_isOk hok looseObjects.mem)
  have htail : (free looseAllocs looseObjects.mem false 8176).isOk = true := by decide +kernel
  have hinfo : (free looseAllocs looseObjects.mem true 28672).isOk = true := by decide +kernel
  refine ⟨_, runs_looseObjects, hlive, ⟨_, eq_ok_of_isOk htail looseObjects.mem⟩,
    ⟨_, eq_ok_of_isOk hinfo looseObjects.mem⟩, hbad htail ?_, hbad hinfo ?_⟩
  · rw [hlive]
    decide
  · rw [hlive]
    decide

end HydroxKernel.Slab
