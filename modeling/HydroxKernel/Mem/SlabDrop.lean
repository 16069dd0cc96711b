import HydroxKernel.Mem.SlabSafety

/-!
# Dropping a Slab Allocator

When a slab allocator is dropped it goes through its slabs, asserts that all of their objects
are free, gives their pages back to the page allocator, and their `SlabInfo`s back to
`SLAB_INFO` if they are from there. A `SlabInfo` can only be read as long as it lies in a live
block of the page allocator, and only live blocks can be given back.

The assertion compares the counter of a slab with the number of all its objects. Where the
`SlabInfo` is an object of the slab itself, this object is never free, and no slab passes.

## Main results

* `dropLoop_spec`: how the slabs are given back one after the other.
* `drop_clean_iff`: dropping an idle allocator is clean exactly if its `SlabInfo`s are
  elsewhere, or it has no slabs.
-/

namespace HydroxKernel.Slab

open Links Util

variable {ι : Type} {allocs : ι → SlabAlloc} {s s' : State ι} {all avail : Option ι → List ℕ}
  {pending : List Block} {sys : System ι} {c : SlabAlloc} {i : ι} {x y p fuel : ℕ}
  {infoSlabs slabs : List ℕ}

/-! ### `drop` -/

/-- The ways in which `drop` can fail. -/
inductive DropPanic
  /-- "inconsistent # of free slots in slab". -/
  | inconsistent
  /-- "slab freed while objects still allocated". -/
  | stillAllocated
  /-- The `SlabInfo` that is read is not in a live block of the page allocator. -/
  | headerGone
  /-- The block that is given to the page allocator is not live. -/
  | notLive
  /-- A panic of `free` of `SLAB_INFO`. -/
  | free (e : Panic)
  /-- The loop does not end. -/
  | diverged
  deriving DecidableEq

/-- An address lies in a live block, with the `SlabInfo` that is there. -/
def State.InBlock (s : State ι) (addr : ℕ) : Prop :=
  ∃ b ∈ s.blocks, b.start ≤ addr ∧ addr + slabInfoSize ≤ b.start + b.size

instance (s : State ι) (addr : ℕ) : Decidable (s.InBlock addr) :=
  inferInstanceAs (Decidable (∃ b ∈ s.blocks, _))

/-- The slabs of `SLAB_INFO` are on its list, lie apart, and are live blocks. -/
structure InfoSlabs (s : State ι) (infoSlabs : List ℕ) : Prop where
  slabs : ∃ free, Slabs slabInfoAlloc s.infos (s.lists none) infoSlabs free
  apart : ∀ x ∈ infoSlabs, ∀ y ∈ infoSlabs, x ≠ y →
    Block.Apart ⟨(s.infos x).ptr, slabInfoAlloc.slabSize⟩ ⟨(s.infos y).ptr, slabInfoAlloc.slabSize⟩
  live : ∀ x ∈ infoSlabs, ⟨(s.infos x).ptr, slabInfoAlloc.slabSize⟩ ∈ s.blocks

/-- There are not more slabs of `SLAB_INFO` than live blocks. -/
theorem InfoSlabs.length_le (h : InfoSlabs s infoSlabs) : infoSlabs.length ≤ s.blocks.length := by
  obtain ⟨free, hslabs⟩ := h.slabs
  have hpos := slabInfoAlloc.slabSize_pos
  have hinj : ∀ x ∈ infoSlabs, ∀ y ∈ infoSlabs,
      (⟨(s.infos x).ptr, slabInfoAlloc.slabSize⟩ : Block) =
        ⟨(s.infos y).ptr, slabInfoAlloc.slabSize⟩ → x = y := by
    intro x hx y hy heq
    by_contra hne
    rcases h.apart x hx y hy hne with hle | hle
    · have hptr := congrArg Block.start heq
      dsimp only at hle hptr
      omega
    · have hptr := congrArg Block.start heq
      dsimp only at hle hptr
      omega
  have hnodup := hslabs.chain.nodup.map_on hinj
  have hsub : infoSlabs.map (fun x => (⟨(s.infos x).ptr, slabInfoAlloc.slabSize⟩ : Block)) ⊆
      s.blocks := by
    intro b hb
    obtain ⟨x, hx, rfl⟩ := List.mem_map.mp hb
    exact h.live x hx
  have hle := (hnodup.subperm hsub).length_le
  rwa [List.length_map] at hle

/-- A `SlabInfo` that is handed out can be read. -/
theorem InfoSlabs.inBlock (h : InfoSlabs s infoSlabs)
    (hx : Taken slabInfoAlloc s.infos infoSlabs x) : s.InBlock x := by
  obtain ⟨y, hy, idx, hused, rfl⟩ := hx
  obtain ⟨hle, hge⟩ := getObj_mem (s.infos y) hused.1
  exact ⟨_, h.live y hy, hle, hge⟩

/-- The pages of another slab are given back. -/
theorem InfoSlabs.pageDeallocate (h : InfoSlabs s infoSlabs) {b : Block}
    (hb : ∀ y ∈ infoSlabs, b ≠ ⟨(s.infos y).ptr, slabInfoAlloc.slabSize⟩) :
    InfoSlabs (pageDeallocate s b) infoSlabs :=
  ⟨h.slabs, h.apart, fun x hx => (List.mem_erase_of_ne (hb x hx).symm).mpr (h.live x hx)⟩

/-- The block of a slab of `SLAB_INFO`. -/
theorem slabBlock_none (allocs : ι → SlabAlloc) (s : State ι) (x : ℕ) :
    slabBlock allocs s none x = ⟨(s.infos x).ptr, slabInfoAlloc.slabSize⟩ := by
  rw [slabBlock, config]

/-- The slabs of `SLAB_INFO` in a reached state. -/
theorem Inv.slabInfo (h : Inv allocs s all avail pending) : InfoSlabs s (all none) := by
  refine ⟨⟨avail none, h.slabs none⟩, fun x hx y hy hne => ?_, fun x hx => ?_⟩
  · have hap := h.apart_slabs (a := none) (b := none) hx hy hne
    rwa [slabBlock_none, slabBlock_none] at hap
  · have hmem := h.mem_blocks (a := none) hx
    rwa [slabBlock_none] at hmem

/-! ### Allocators that can be dropped -/

/-- An allocator whose `SlabInfo`s are elsewhere can be dropped: all objects of its slabs are
free, their `SlabInfo`s are handed out by `SLAB_INFO`, and their pages are live blocks of their
own. -/
structure Droppable (c : SlabAlloc) (s : State ι) (infoSlabs slabs : List ℕ) : Prop where
  info : InfoSlabs s infoSlabs
  taken : ∀ x ∈ slabs, Taken slabInfoAlloc s.infos infoSlabs x
  notInfo : ∀ x ∈ slabs, x ∉ infoSlabs
  consistent : ∀ x ∈ slabs, (s.infos x).numFree = (s.infos x).free.count
  free : ∀ x ∈ slabs, (s.infos x).numFree = c.objectsPerSlab
  live : ∀ x ∈ slabs, ⟨(s.infos x).ptr, c.slabSize⟩ ∈ s.blocks
  inj : ∀ x ∈ slabs, ∀ y ∈ slabs,
    (⟨(s.infos x).ptr, c.slabSize⟩ : Block) = ⟨(s.infos y).ptr, c.slabSize⟩ → x = y
  off : ∀ x ∈ slabs, ∀ y ∈ infoSlabs,
    (⟨(s.infos x).ptr, c.slabSize⟩ : Block) ≠ ⟨(s.infos y).ptr, slabInfoAlloc.slabSize⟩

/-- The slabs of an allocator that has no live objects are free. -/
theorem numFree_of_idle (hown : c.ownInfo = false) {info : SlabInfo} (hgood : GoodSlab c x info)
    (hidle : ∀ idx, ¬ c.Used info.free idx) : info.numFree = c.objectsPerSlab := by
  have hmembers : info.free.members = Finset.range c.objectsPerSlab := by
    refine Finset.Subset.antisymm (fun k hk => ?_) fun k hk => ?_
    · exact Finset.mem_range.mpr (hgood.bound k (FixedBitVector.mem_members.mp hk))
    · rw [FixedBitVector.mem_members]
      by_contra hmem
      refine hidle k ⟨Finset.mem_range.mp hk, eq_false_of_ne_true hmem, fun ho => ?_⟩
      rw [hown] at ho
      exact absurd ho Bool.false_ne_true
  rw [hgood.numFree_eq, hmembers, Finset.card_range]

/-- An idle allocator whose `SlabInfo`s are elsewhere can be dropped. -/
theorem Inv.droppable (h : Inv allocs s all avail pending) (hown : (allocs i).ownInfo = false)
    (hidle : ∀ p, ¬ Taken (allocs i) s.infos (all (some i)) p) :
    Droppable (allocs i) s (all none) (all (some i)) := by
  have hgood : ∀ x ∈ all (some i), GoodSlab (allocs i) x (s.infos x) := (h.slabs (some i)).good
  have howner : ∀ x ∈ all (some i), x ∉ all none := fun x hx hx' =>
    Option.some_ne_none i (h.owner hx hx')
  have hblock : ∀ x, slabBlock allocs s (some i) x = ⟨(s.infos x).ptr, (allocs i).slabSize⟩ := by
    intro x
    rw [slabBlock, config]
  have htaken : ∀ x ∈ all (some i), Taken slabInfoAlloc s.infos (all none) x := fun x hx =>
    h.infos (a := some i) hown hx
  refine ⟨h.slabInfo, htaken, howner, fun x hx => ?_, fun x hx => ?_, fun x hx => ?_,
    fun x hx y hy heq => ?_, fun x hx y hy heq => ?_⟩
  · rw [FixedBitVector.count_eq_card]
    exact (hgood x hx).numFree_eq
  · exact numFree_of_idle hown (hgood x hx) fun idx hused => hidle _ ⟨x, hx, idx, hused, rfl⟩
  · rw [← hblock]
    exact h.mem_blocks hx
  · rw [← hblock, ← hblock] at heq
    exact h.inj hx hy heq
  · rw [← hblock, ← slabBlock_none allocs s y] at heq
    exact howner x hx (h.inj hx hy heq ▸ hy)

section Drop

variable [DecidableEq ι]

/-- `free` of `SLAB_INFO`. -/
def freeInfo (s : State ι) (ptr : ℕ) : Except Panic (State ι) :=
  freeLoop slabInfoAlloc none s ptr (s.blocks.length + 1) (s.lists none).first

/-- The loop of `drop` over the slabs. The fields of a `SlabInfo` are read before its slab is
given back. -/
def dropLoop (c : SlabAlloc) : ℕ → Option ℕ → State ι → Except DropPanic (State ι)
  | 0, _, _ => .error .diverged
  | _ + 1, none, s => .ok s
  | fuel + 1, some slab, s => do
      ensure (s.InBlock slab) .headerGone
      let info := s.infos slab
      ensure (info.numFree = info.free.count) .inconsistent
      ensure (info.numFree = c.objectsPerSlab) .stillAllocated
      ensure (⟨info.ptr, c.slabSize⟩ ∈ s.blocks) .notLive
      let s := pageDeallocate s ⟨info.ptr, c.slabSize⟩
      let s ← if c.ownInfo then .ok s else (freeInfo s slab).mapError .free
      dropLoop c fuel info.next s

/-- `SlabAlloc::drop`. -/
def drop (allocs : ι → SlabAlloc) (s : State ι) (i : ι) : Except DropPanic (State ι) :=
  dropLoop (allocs i) (s.blocks.length + 1) (s.lists (some i)).first s

/-! ### Giving back a `SlabInfo` -/

/-- `SLAB_INFO` has got back a `SlabInfo`. Nothing but its own slabs has changed. -/
structure GivesBack (s s' : State ι) (infoSlabs : List ℕ) (p : ℕ) : Prop where
  taken : ∀ q, Taken slabInfoAlloc s'.infos infoSlabs q ↔
    Taken slabInfoAlloc s.infos infoSlabs q ∧ q ≠ p
  held : ∀ n, Held slabInfoAlloc s.infos infoSlabs (n + 1) →
    Held slabInfoAlloc s'.infos infoSlabs n
  blocks : s'.blocks = s.blocks
  others : ∀ y, y ∉ infoSlabs → s'.infos y = s.infos y
  ptr : ∀ y, (s'.infos y).ptr = (s.infos y).ptr

/-- **`free` of `SLAB_INFO`** takes back a `SlabInfo` that is handed out. -/
theorem InfoSlabs.freeInfo (h : InfoSlabs s infoSlabs)
    (hp : Taken slabInfoAlloc s.infos infoSlabs p) :
    ∃ s', Slab.freeInfo s p = .ok s' ∧ InfoSlabs s' infoSlabs ∧ GivesBack s s' infoSlabs p := by
  obtain ⟨x, hx, idx, hused, rfl⟩ := hp
  obtain ⟨free, hslabs⟩ := h.slabs
  have hobj := getObj_mem (s.infos x) hused.1
  have hsize := slabInfoAlloc.size_ge
  have hloop : Slab.freeInfo s ((s.infos x).getObj idx slabInfoAlloc.objectSize) =
      freeObject slabInfoAlloc none s x ((s.infos x).getObj idx slabInfoAlloc.objectSize) := by
    refine freeLoop_eq hslabs.chain hx (by omega) (fun y hy hyx => ?_)
      (Nat.lt_succ_of_le h.length_le)
    have hap := h.apart y hy x hx hyx
    simp only [Block.Apart] at hap
    omega
  obtain ⟨info, list, free', hok, hslabs', hptr, -, hnum, hbits⟩ := hslabs.freeObject hx hused
  have hptrs : ∀ y, (Function.update s.infos x info y).ptr = (s.infos y).ptr := by
    intro y
    rcases eq_or_ne y x with rfl | hne
    · rw [Function.update_self, hptr]
    · rw [Function.update_of_ne hne]
  refine ⟨_, hloop.trans hok, ⟨⟨free', ?_⟩, fun y hy z hz hyz => ?_, fun y hy => ?_⟩,
    fun q => ?_, fun n hn => ?_, rfl, fun y hy => ?_, hptrs⟩
  · dsimp only
    rw [Function.update_self]
    exact hslabs'
  · dsimp only
    rw [hptrs, hptrs]
    exact h.apart y hy z hz hyz
  · dsimp only
    rw [hptrs]
    exact h.live y hy
  · refine taken_update_put hx hptr hbits fun y hy j hj heq => ?_
    have hobj' := getObj_mem (s.infos y) hj.1
    have hyx : y = x := by
      by_contra hne
      have hap := h.apart y hy x hx hne
      simp only [Block.Apart] at hap
      omega
    subst hyx
    rw [SlabInfo.getObj, SlabInfo.getObj, Nat.add_left_cancel_iff] at heq
    exact ⟨rfl, Nat.eq_of_mul_eq_mul_right (by omega) heq⟩
  · have hsum : freeSum (Function.update s.infos x info) infoSlabs + (s.infos x).numFree =
        freeSum s.infos infoSlabs + info.numFree := freeSum_update hslabs.chain.nodup hx
    rw [Held] at hn ⊢
    dsimp only
    omega
  · exact Function.update_of_ne (ne_of_mem_of_not_mem hx hy).symm _ _

/-! ### Giving back all slabs -/

/-- The first slab is given back, with its `SlabInfo`. -/
theorem Droppable.step (h : Droppable c s infoSlabs (x :: slabs)) (hnodup : (x :: slabs).Nodup) :
    ∃ s', Slab.freeInfo (Slab.pageDeallocate s ⟨(s.infos x).ptr, c.slabSize⟩) x = .ok s' ∧
      GivesBack (Slab.pageDeallocate s ⟨(s.infos x).ptr, c.slabSize⟩) s' infoSlabs x ∧
      Droppable c s' infoSlabs slabs := by
  have hx := List.mem_cons_self (a := x) (l := slabs)
  have hrest : ∀ y ∈ slabs, y ∈ x :: slabs := fun y hy => List.mem_cons_of_mem _ hy
  have hne : ∀ y ∈ slabs, y ≠ x := fun y hy heq => (List.nodup_cons.mp hnodup).1 (heq ▸ hy)
  obtain ⟨s', hfree, hinfo, hgives⟩ :=
    (h.info.pageDeallocate (h.off x hx)).freeInfo (h.taken x hx)
  have hsame : ∀ y ∈ slabs, s'.infos y = s.infos y := fun y hy =>
    hgives.others y (h.notInfo y (hrest y hy))
  have hptr : ∀ y, (s'.infos y).ptr = (s.infos y).ptr := hgives.ptr
  refine ⟨s', hfree, hgives, hinfo, fun y hy => ?_, fun y hy => h.notInfo y (hrest y hy),
    fun y hy => ?_, fun y hy => ?_, fun y hy => ?_, fun y hy z hz => ?_, fun y hy z hz => ?_⟩
  · exact (hgives.taken y).mpr ⟨h.taken y (hrest y hy), hne y hy⟩
  · rw [hsame y hy]
    exact h.consistent y (hrest y hy)
  · rw [hsame y hy]
    exact h.free y (hrest y hy)
  · rw [hsame y hy, hgives.blocks]
    refine (List.mem_erase_of_ne fun heq => hne y hy ?_).mpr (h.live y (hrest y hy))
    exact h.inj y (hrest y hy) x hx heq
  · rw [hptr, hptr]
    exact h.inj y (hrest y hy) z (hrest z hz)
  · rw [hptr, hptr]
    exact h.off y (hrest y hy) z hz

/-- **The loop of `drop`** gives back the pages of every slab once, and every `SlabInfo` once. -/
theorem dropLoop_spec {first : Option ℕ} (hown : c.ownInfo = false)
    (h : Droppable c s infoSlabs slabs)
    (hchain : Chain (fun x => (s.infos x).next) first slabs none) (hfuel : slabs.length < fuel) :
    ∃ s', dropLoop c fuel first s = .ok s' ∧
      s.blocks.Perm (slabs.map (fun x => ⟨(s.infos x).ptr, c.slabSize⟩) ++ s'.blocks) ∧
      InfoSlabs s' infoSlabs ∧
      (∀ q, Taken slabInfoAlloc s'.infos infoSlabs q ↔
        Taken slabInfoAlloc s.infos infoSlabs q ∧ q ∉ slabs) ∧
      ∀ n, Held slabInfoAlloc s.infos infoSlabs (n + slabs.length) →
        Held slabInfoAlloc s'.infos infoSlabs n := by
  induction slabs generalizing s first fuel with
  | nil =>
      obtain ⟨fuel, rfl⟩ := Nat.exists_eq_succ_of_ne_zero (Nat.ne_zero_of_lt hfuel)
      rw [chain_nil] at hchain
      subst hchain
      exact ⟨s, rfl, .refl _, h.info, fun q => by simp, fun n hn => hn⟩
  | cons x slabs ih =>
      obtain ⟨fuel, rfl⟩ := Nat.exists_eq_succ_of_ne_zero (Nat.ne_zero_of_lt hfuel)
      have hnodup := hchain.nodup
      obtain ⟨rfl, hchain⟩ := hchain
      have hx := List.mem_cons_self (a := x) (l := slabs)
      obtain ⟨s₁, hfree, hgives, hdrop⟩ := h.step hnodup
      have hsame : ∀ y ∈ slabs, s₁.infos y = s.infos y := fun y hy =>
        hgives.others y (h.notInfo y (List.mem_cons_of_mem _ hy))
      have hchain₁ : Chain (fun y => (s₁.infos y).next) (s.infos x).next slabs none :=
        (chain_congr fun y hy => congrArg SlabInfo.next (hsame y hy)).mpr hchain
      obtain ⟨s', hloop, hperm, hinfo, htaken, hheld⟩ := ih hdrop hchain₁
        (Nat.lt_of_succ_lt_succ hfuel)
      refine ⟨s', ?_, ?_, hinfo, fun q => ?_, fun n hn => ?_⟩
      · rw [dropLoop, ensure_pos (h.info.inBlock (h.taken x hx)), ok_bind]
        dsimp only
        rw [ensure_pos (h.consistent x hx), ok_bind, ensure_pos (h.free x hx), ok_bind,
          ensure_pos (h.live x hx), ok_bind, hown, if_neg Bool.false_ne_true, hfree,
          Except.mapError, ok_bind]
        exact hloop
      · have hmap : slabs.map (fun y => (⟨(s₁.infos y).ptr, c.slabSize⟩ : Block)) =
            slabs.map fun y => ⟨(s.infos y).ptr, c.slabSize⟩ :=
          List.map_congr_left fun y hy => by rw [hsame y hy]
        rw [hmap, hgives.blocks] at hperm
        exact (List.perm_cons_erase (h.live x hx)).trans (hperm.cons _)
      · rw [htaken, hgives.taken, List.mem_cons, not_or, and_assoc]
        exact Iff.rfl
      · exact hheld n (hgives.held (n + slabs.length) hn)

/-- A slab that holds its own `SlabInfo` never passes the assertions of `drop`. -/
theorem dropLoop_own (hown : c.ownInfo = true) (hgood : GoodSlab c x (s.infos x)) (fuel : ℕ) :
    ∃ e, dropLoop c fuel (some x) s = .error e := by
  cases fuel with
  | zero => exact ⟨_, rfl⟩
  | succ fuel =>
      have hpos := c.four_le_objectsPerSlab
      have hne : (s.infos x).numFree ≠ c.objectsPerSlab := by
        have hsub : (s.infos x).free.members ⊆ (Finset.range c.objectsPerSlab).erase 0 := by
          intro k hk
          have hmem := FixedBitVector.mem_members.mp hk
          refine Finset.mem_erase.mpr ⟨fun h0 => ?_, Finset.mem_range.mpr (hgood.bound k hmem)⟩
          rw [h0, (hgood.own hown).2] at hmem
          exact Bool.noConfusion hmem
        have hle := Finset.card_le_card hsub
        rw [Finset.card_erase_of_mem (Finset.mem_range.mpr (by omega)), Finset.card_range,
          ← hgood.numFree_eq] at hle
        omega
      rw [dropLoop]
      dsimp only
      by_cases hin : s.InBlock x
      · rw [ensure_pos hin, ok_bind]
        by_cases heq : (s.infos x).numFree = (s.infos x).free.count
        · rw [ensure_pos heq, ok_bind, ensure_neg hne]
          exact ⟨_, rfl⟩
        · rw [ensure_neg heq]
          exact ⟨_, rfl⟩
      · rw [ensure_neg hin]
        exact ⟨_, rfl⟩

/-! ### Runs -/

/-- What a clean `drop` does: the pages of every slab are given back once, and every `SlabInfo`
that is elsewhere goes back to `SLAB_INFO` once, whose slabs stay as they are. -/
structure Clean (allocs : ι → SlabAlloc) (s s' : State ι) (i : ι) (slabs infoSlabs : List ℕ) :
    Prop where
  chain : Chain (fun x => (s.infos x).next) (s.lists (some i)).first slabs none
  infoChain : Chain (fun x => (s.infos x).next) (s.lists none).first infoSlabs none
  pages : s.blocks.Perm (slabs.map (slabBlock allocs s (some i)) ++ s'.blocks)
  infos : (allocs i).ownInfo = false → InfoSlabs s' infoSlabs ∧
    (∀ x ∈ slabs, Taken slabInfoAlloc s.infos infoSlabs x) ∧
    (∀ q, Taken slabInfoAlloc s'.infos infoSlabs q ↔
      Taken slabInfoAlloc s.infos infoSlabs q ∧ q ∉ slabs) ∧
    ∀ n, Held slabInfoAlloc s.infos infoSlabs (n + slabs.length) →
      Held slabInfoAlloc s'.infos infoSlabs n

/-- **When dropping an idle allocator is clean.** In every state that a run reaches, for every
allocator without live objects: `drop` returns, without reading a `SlabInfo` whose pages are
gone, and gives back every slab and every `SlabInfo` once, exactly if the `SlabInfo`s are not
kept in the slabs or there is no slab. -/
theorem drop_clean_iff {infos : ℕ → SlabInfo} {ops : List (Op ι)}
    (h : Runs (Step allocs) (System.init infos) ops sys) (i : ι)
    (hidle : ∀ p, (i, p) ∉ sys.live) :
    (∃ s' slabs infoSlabs, drop allocs sys.mem i = .ok s' ∧
        Clean allocs sys.mem s' i slabs infoSlabs) ↔
      (allocs i).ownInfo = false ∨ (sys.mem.lists (some i)).first = none := by
  obtain ⟨all, avail, hinv, hlive⟩ := sysInv_of_runs h
  have hslabs : Slabs (allocs i) sys.mem.infos (sys.mem.lists (some i)) (all (some i))
    (avail (some i)) := hinv.slabs (some i)
  have hfree : ∀ p, ¬ Taken (allocs i) sys.mem.infos (all (some i)) p := fun p hp =>
    hidle p ((hlive.mem_iff i p).mpr hp)
  constructor
  · rintro ⟨s', slabs, infoSlabs, hdrop, -⟩
    by_contra hboth
    obtain ⟨hown, hfirst⟩ := not_or.mp hboth
    obtain ⟨x, hx⟩ := Option.ne_none_iff_exists'.mp hfirst
    have hmem : x ∈ all (some i) := by
      have hchain := hslabs.chain
      rw [hx] at hchain
      cases hall : all (some i) with
      | nil =>
          rw [hall, chain_nil] at hchain
          cases hchain
      | cons y rest =>
          rw [hall] at hchain
          obtain rfl := Option.some.inj hchain.1
          exact List.mem_cons_self
    obtain ⟨e, herr⟩ := dropLoop_own (eq_true_of_ne_false hown) (hslabs.good x hmem)
      (sys.mem.blocks.length + 1)
    rw [drop, hx, herr] at hdrop
    cases hdrop
  · intro hcase
    by_cases hown : (allocs i).ownInfo = false
    · have hdroppable := hinv.droppable hown hfree
      obtain ⟨s', hok, hperm, hinfo, htaken, hheld⟩ := dropLoop_spec hown hdroppable hslabs.chain
        (Nat.lt_succ_of_le (hinv.length_le (some i)))
      exact ⟨s', all (some i), all none, hok, hslabs.chain, (hinv.slabs none).chain, hperm,
        fun _ => ⟨hinfo, hdroppable.taken, htaken, hheld⟩⟩
    · have hfirst := hcase.resolve_left hown
      refine ⟨sys.mem, [], all none, ?_, hfirst, (hinv.slabs none).chain, .refl _,
        fun ho => absurd ho hown⟩
      rw [drop, hfirst, dropLoop]

end Drop

/-- The calls after which an allocator is idle again. -/
def idleAfter (i : Bool) : System Bool :=
  after (after (System.init blank) (.alloc i bumpPages))
    (.free i (if i then 4224 else 4096))

/-- An object is handed out and given back. -/
theorem runs_idleAfter (i : Bool) : ∃ p, Runs (Step twoAllocs) (System.init blank)
    [.alloc i bumpPages, .free i p] (idleAfter i) := by
  cases i with
  | false =>
      exact ⟨4096, Runs.cons (step_after (.alloc false bumpPages) trivial (by decide +kernel))
        (Runs.cons (step_after (.free false 4096) (by decide +kernel) (by decide +kernel))
          Runs.refl)⟩
  | true =>
      exact ⟨4224, Runs.cons (step_after (.alloc true bumpPages) trivial (by decide +kernel))
        (Runs.cons (step_after (.free true 4224) (by decide +kernel) (by decide +kernel))
          Runs.refl)⟩

/-- No object is live afterwards. -/
theorem live_idleAfter (i : Bool) : (idleAfter i).live = [] := by
  cases i with
  | false => decide +kernel
  | true => decide +kernel

/-- The theorem for an allocator whose `SlabInfo`s are elsewhere. -/
theorem drop_clean_iff_elsewhere : ∃ s' slabs infoSlabs,
    drop twoAllocs (idleAfter false).mem false = .ok s' ∧
      Clean twoAllocs (idleAfter false).mem s' false slabs infoSlabs := by
  obtain ⟨p, hruns⟩ := runs_idleAfter false
  refine (drop_clean_iff hruns false fun p hp => ?_).mpr (.inl rfl)
  rw [live_idleAfter] at hp
  cases hp

/-- **`drop` panics** for an idle allocator that keeps its `SlabInfo`s in its slabs: one object
was handed out and given back, and its slab has not as many free objects as it has objects. -/
theorem drop_panics : ∃ p, Runs (Step twoAllocs) (System.init blank)
      [.alloc true bumpPages, .free true p] (idleAfter true) ∧
    (∀ p, (true, p) ∉ (idleAfter true).live) ∧
    drop twoAllocs (idleAfter true).mem true = .error .stillAllocated := by
  obtain ⟨p, hruns⟩ := runs_idleAfter true
  have hpanics : panicOf (drop twoAllocs (idleAfter true).mem true) = some .stillAllocated := by
    decide +kernel
  refine ⟨p, hruns, fun p hp => ?_, eq_error_of_panicOf hpanics⟩
  rw [live_idleAfter] at hp
  cases hp

end HydroxKernel.Slab
