import Mathlib.Algebra.BigOperators.Group.List.Basic
import HydroxKernel.Lib.Links
import HydroxKernel.Mem.Slab

/-!
# The Slabs of One Allocator

The bitmap and the counter of a slab have to agree, and the two lists through the slabs of an
allocator have to hold all slabs and the slabs with free objects. `GoodSlab` and `Slabs` say
so, and this module shows that they are kept when an object is taken or given back and when a
slab is added.

## Main results

* `GoodSlab.take`, `GoodSlab.put`: the bitmap and the counter stay in step.
* `Slabs.update`, `Slabs.leave`, `Slabs.enter`, `Slabs.link`: what happens to the lists.
* `Held`: how many objects an allocator has handed out.
-/

namespace HydroxKernel.Slab

open Util Links

variable {c : SlabAlloc} {infos infos' : ℕ → SlabInfo} {list : SlabList} {all avail : List ℕ}
variable {info : SlabInfo} {x p idx : ℕ}

/-! ### Sizes -/

/-- A slab is not empty. -/
theorem SlabAlloc.slabSize_pos (c : SlabAlloc) : 0 < c.slabSize := by
  rw [slabSize, pagesPerSlab, pageSize]
  split_ifs <;> decide

/-- A slab has at least four objects. -/
theorem SlabAlloc.four_le_objectsPerSlab (c : SlabAlloc) : 4 ≤ c.objectsPerSlab := by
  have hlt := c.size_lt
  have hge := c.size_ge
  rw [pageSize] at hlt
  rw [objectsPerSlab, Nat.le_div_iff_mul_le (by omega), slabSize, pagesPerSlab, pageSize]
  split_ifs <;> omega

/-- The objects of a slab fit into the bitmap. -/
theorem SlabAlloc.objectsPerSlab_le (c : SlabAlloc) : c.objectsPerSlab ≤ 512 := by
  have hge := c.size_ge
  refine Nat.le_of_lt_succ ((Nat.div_lt_iff_lt_mul (by omega)).mpr ?_)
  rw [slabSize, pagesPerSlab, pageSize]
  split_ifs <;> omega

/-- The objects of a slab fit into it. -/
theorem SlabAlloc.object_le (c : SlabAlloc) (h : idx < c.objectsPerSlab) :
    idx * c.objectSize + c.objectSize ≤ c.slabSize := by
  calc idx * c.objectSize + c.objectSize = (idx + 1) * c.objectSize := (Nat.succ_mul ..).symm
    _ ≤ c.objectsPerSlab * c.objectSize := Nat.mul_le_mul_right _ h
    _ ≤ c.slabSize := Nat.div_mul_le_self ..

/-! ### One slab -/

/-- An object of a slab is handed out. -/
def SlabAlloc.Used (c : SlabAlloc) (free : FixedBitVector 512) (idx : ℕ) : Prop :=
  idx < c.objectsPerSlab ∧ free.mem idx = false ∧ (c.ownInfo = true → idx ≠ 0)

/-- The counter of a slab is the number of its free objects, there are no free objects past
the last one, and the first object is not free if it is the `SlabInfo` of the slab. -/
structure GoodSlab (c : SlabAlloc) (addr : ℕ) (info : SlabInfo) : Prop where
  numFree_eq : info.numFree = info.free.members.card
  bound : ∀ k, info.free.mem k = true → k < c.objectsPerSlab
  aligned : info.ptr % pageSize = 0
  own : c.ownInfo = true → addr = info.ptr ∧ info.free.mem 0 = false

/-- The links do not matter. -/
theorem GoodSlab.relink (h : GoodSlab c x info) (next nextFree : Option ℕ) :
    GoodSlab c x { info with next := next, nextFree := nextFree } :=
  ⟨h.numFree_eq, h.bound, h.aligned, h.own⟩

/-- Taking a free object. -/
theorem GoodSlab.take (h : GoodSlab c x info) (hidx : info.free.mem idx = true)
    {free : FixedBitVector 512}
    (hfree : ∀ j, free.mem j = if j = idx then false else info.free.mem j) :
    info.numFree ≠ 0 ∧
      GoodSlab c x { info with free := free, numFree := info.numFree - 1 } := by
  have hmem : idx ∈ info.free.members := FixedBitVector.mem_members.mpr hidx
  have hsub : ∀ {k}, free.mem k = true → info.free.mem k = true := by
    intro k hk
    rw [hfree] at hk
    split_ifs at hk
    exact hk
  have herase : free.members = info.free.members.erase idx := by
    ext k
    rw [Finset.mem_erase, FixedBitVector.mem_members, FixedBitVector.mem_members, hfree]
    by_cases hk : k = idx
    · simp [hk]
    · simp [hk]
  refine ⟨?_, ?_, fun k hk => h.bound k (hsub hk), h.aligned, fun ho => ⟨(h.own ho).1, ?_⟩⟩
  · rw [h.numFree_eq]
    exact Finset.card_ne_zero_of_mem hmem
  · simp only [herase, Finset.card_erase_of_mem hmem, h.numFree_eq]
  · rw [← Bool.not_eq_true]
    exact fun h0 => absurd (hsub h0) (by simp [(h.own ho).2])

/-- Giving back an object. The counter does not overflow. -/
theorem GoodSlab.put (h : GoodSlab c x info) (hused : c.Used info.free idx)
    {free : FixedBitVector 512}
    (hfree : ∀ j, free.mem j = if j = idx then true else info.free.mem j) :
    info.numFree + 1 < 2 ^ 16 ∧
      GoodSlab c x { info with free := free, numFree := info.numFree + 1 } := by
  obtain ⟨hlt, hnot, hown⟩ := hused
  have hmem : idx ∉ info.free.members := by
    rw [FixedBitVector.mem_members, hnot]
    exact Bool.false_ne_true
  have hinsert : free.members = insert idx info.free.members := by
    ext k
    rw [Finset.mem_insert, FixedBitVector.mem_members, FixedBitVector.mem_members, hfree]
    by_cases hk : k = idx
    · simp [hk]
    · simp [hk]
  have hcard : free.members.card = info.numFree + 1 := by
    rw [hinsert, Finset.card_insert_of_notMem hmem, h.numFree_eq]
  have hbound : ∀ k, free.mem k = true → k < c.objectsPerSlab := by
    intro k hk
    rw [hfree] at hk
    by_cases hki : k = idx
    · rw [hki]
      exact hlt
    · rw [if_neg hki] at hk
      exact h.bound k hk
  have hle : free.members.card ≤ (Finset.range c.objectsPerSlab).card :=
    Finset.card_le_card fun k hk =>
      Finset.mem_range.mpr (hbound k (FixedBitVector.mem_members.mp hk))
  rw [Finset.card_range] at hle
  have h512 := c.objectsPerSlab_le
  refine ⟨by omega, hcard.symm, hbound, h.aligned, fun ho => ⟨(h.own ho).1, ?_⟩⟩
  rw [hfree, if_neg (Ne.symm (hown ho))]
  exact (h.own ho).2

/-- `SlabInfo::new` sets the bits of all objects. -/
theorem SlabInfo.new_spec (c : SlabAlloc) (ptr : ℕ) :
    ∃ free, SlabInfo.new ptr (c.objectsPerSlab % 2 ^ 16) =
        .ok ⟨ptr, none, none, c.objectsPerSlab, free⟩ ∧
      (∀ k, free.mem k = true ↔ k < c.objectsPerSlab) ∧
      free.members.card = c.objectsPerSlab := by
  have h4 := c.four_le_objectsPerSlab
  have h512 := c.objectsPerSlab_le
  have hmod : c.objectsPerSlab % 2 ^ 16 = c.objectsPerSlab := Nat.mod_eq_of_lt (by omega)
  obtain ⟨free, hset, hmem⟩ := (FixedBitVector.new 512 false).setRange_to
    (by omega : 2 ≤ c.objectsPerSlab) h512 true
  have hiff : ∀ k, free.mem k = true ↔ k < c.objectsPerSlab := by
    intro k
    rw [hmem, FixedBitVector.mem_new_false]
    by_cases hk : k < c.objectsPerSlab
    · simp [hk]
    · simp [hk]
  refine ⟨free, ?_, hiff, ?_⟩
  · rw [SlabInfo.new, hmod, hset]
    rfl
  · have hrange : free.members = Finset.range c.objectsPerSlab := by
      ext k
      rw [FixedBitVector.mem_members, hiff, Finset.mem_range]
    rw [hrange, Finset.card_range]

/-- A slab that has not handed out any object. -/
structure Fresh (c : SlabAlloc) (addr : ℕ) (info : SlabInfo) : Prop where
  good : GoodSlab c addr info
  numFree_ne : info.numFree ≠ 0
  unused : ∀ idx, ¬ c.Used info.free idx
  count : info.numFree + (if c.ownInfo then 1 else 0) = c.objectsPerSlab

/-- A new slab whose `SlabInfo` lies elsewhere. -/
theorem fresh_new (hown : c.ownInfo = false) {ptr : ℕ} (hptr : ptr % pageSize = 0) :
    ∃ info, SlabInfo.new ptr (c.objectsPerSlab % 2 ^ 16) = .ok info ∧ info.ptr = ptr ∧
      Fresh c x info := by
  obtain ⟨free, hnew, hiff, hcard⟩ := SlabInfo.new_spec c ptr
  have h4 := c.four_le_objectsPerSlab
  refine ⟨_, hnew, rfl, ⟨hcard.symm, fun k hk => (hiff k).mp hk, hptr, ?_⟩, by simp only; omega,
    ?_, ?_⟩
  · intro ho
    rw [hown] at ho
    exact Bool.noConfusion ho
  · rintro k ⟨hlt, hmem, -⟩
    rw [(hiff k).mpr hlt] at hmem
    exact Bool.noConfusion hmem
  · simp [hown]

/-- A new slab whose `SlabInfo` is its first object. -/
theorem fresh_newOwn (hown : c.ownInfo = true) {ptr : ℕ} (hptr : ptr % pageSize = 0) :
    ∃ info old free, SlabInfo.new ptr (c.objectsPerSlab % 2 ^ 16) = .ok info ∧
      info.free.set 0 false = .ok (old, free) ∧ info.numFree ≠ 0 ∧ info.ptr = ptr ∧
      Fresh c ptr { info with free := free, numFree := info.numFree - 1 } := by
  obtain ⟨free, hnew, hiff, hcard⟩ := SlabInfo.new_spec c ptr
  have h4 := c.four_le_objectsPerSlab
  obtain ⟨free', hset, hfree⟩ := free.set_spec (by decide : 0 < 512) false
  have h0 : 0 ∈ free.members := FixedBitVector.mem_members.mpr ((hiff 0).mpr (by omega))
  have herase : free'.members = free.members.erase 0 := by
    ext k
    rw [Finset.mem_erase, FixedBitVector.mem_members, FixedBitVector.mem_members, hfree]
    by_cases hk : k = 0
    · simp [hk]
    · simp [hk]
  refine ⟨_, _, free', hnew, hset, by simp only; omega, rfl,
    ⟨?_, fun k hk => ?_, hptr, fun _ => ⟨rfl, ?_⟩⟩, by simp only; omega, ?_, ?_⟩
  · simp only [herase, Finset.card_erase_of_mem h0, hcard]
  · rw [hfree] at hk
    split_ifs at hk
    exact (hiff k).mp hk
  · rw [hfree, if_pos rfl]
  · rintro k ⟨hlt, hmem, hk0⟩
    rw [hfree, if_neg (hk0 hown), (hiff k).mpr hlt] at hmem
    exact Bool.noConfusion hmem
  · simp only [hown, if_true]
    omega

/-! ### The lists -/

/-- Following `next` from the first slab visits all slabs, and following `nextFree` visits
exactly those with free objects. -/
structure Slabs (c : SlabAlloc) (infos : ℕ → SlabInfo) (list : SlabList) (all avail : List ℕ) :
    Prop where
  chain : Chain (fun x => (infos x).next) list.first all none
  chainFree : Chain (fun x => (infos x).nextFree) list.firstFree avail none
  avail_iff : ∀ x, x ∈ avail ↔ x ∈ all ∧ (infos x).numFree ≠ 0
  good : ∀ x ∈ all, GoodSlab c x (infos x)

/-- Only the slabs on the lists matter. -/
theorem Slabs.congr (h : Slabs c infos list all avail)
    (hinfos : ∀ y ∈ all, infos' y = infos y) : Slabs c infos' list all avail where
  chain := (chain_congr fun y hy => by rw [hinfos y hy]).mpr h.chain
  chainFree := (chain_congr fun y hy => by rw [hinfos y ((h.avail_iff y).mp hy).1]).mpr h.chainFree
  avail_iff y := by
    rw [h.avail_iff]
    exact and_congr_right fun hy => by rw [hinfos y hy]
  good y hy := by
    rw [hinfos y hy]
    exact h.good y hy

/-- The list of all slabs after a slab changed. -/
theorem Slabs.chain_update (h : Slabs c infos list all avail) (hnext : info.next = (infos x).next) :
    Chain (fun y => (Function.update infos x info y).next) list.first all none := by
  refine (chain_congr fun y _ => ?_).mpr h.chain
  by_cases hy : y = x
  · rw [hy, Function.update_self, hnext]
  · rw [Function.update_of_ne hy]

/-- The slabs are good after one of them changed. -/
theorem Slabs.good_update (h : Slabs c infos list all avail) (hgood : GoodSlab c x info) :
    ∀ y ∈ all, GoodSlab c y (Function.update infos x info y) := by
  intro y hy
  by_cases hyx : y = x
  · rw [hyx, Function.update_self]
    exact hgood
  · rw [Function.update_of_ne hyx]
    exact h.good y hy

/-- A slab changes that has free objects before and after. -/
theorem Slabs.update (h : Slabs c infos list all avail) (hx : x ∈ avail)
    (hnext : info.next = (infos x).next) (hnextFree : info.nextFree = (infos x).nextFree)
    (hfree : info.numFree ≠ 0) (hgood : GoodSlab c x info) :
    Slabs c (Function.update infos x info) list all avail := by
  refine ⟨h.chain_update hnext, ?_, fun y => ?_, h.good_update hgood⟩
  · refine (chain_congr fun y _ => ?_).mpr h.chainFree
    by_cases hy : y = x
    · rw [hy, Function.update_self, hnextFree]
    · rw [Function.update_of_ne hy]
  · by_cases hy : y = x
    · rw [hy, Function.update_self]
      exact ⟨fun _ => ⟨((h.avail_iff x).mp hx).1, hfree⟩, fun _ => hx⟩
    · rw [Function.update_of_ne hy]
      exact h.avail_iff y

/-- The last free object of the first slab with free objects is taken. -/
theorem Slabs.leave (h : Slabs c infos list all (x :: avail)) (hnext : info.next = (infos x).next)
    (hfree : info.numFree = 0) (hgood : GoodSlab c x info) :
    Slabs c (Function.update infos x info) { list with firstFree := (infos x).nextFree } all
      avail := by
  have hnotin : x ∉ avail := (List.nodup_cons.mp h.chainFree.nodup).1
  refine ⟨h.chain_update hnext, ?_, fun y => ?_, h.good_update hgood⟩
  · refine (chain_congr fun y hy => ?_).mpr h.chainFree.2
    rw [Function.update_of_ne (ne_of_mem_of_not_mem hy hnotin)]
  · by_cases hy : y = x
    · rw [hy, Function.update_self]
      exact ⟨fun hc => absurd hc hnotin, fun hc => absurd hfree hc.2⟩
    · rw [Function.update_of_ne hy, ← h.avail_iff, List.mem_cons, or_iff_right hy]

/-- The first object is given back to a slab without free objects. -/
theorem Slabs.enter (h : Slabs c infos list all avail) (hx : x ∈ all)
    (hold : (infos x).numFree = 0) (hnext : info.next = (infos x).next)
    (hnextFree : info.nextFree = list.firstFree) (hfree : info.numFree ≠ 0)
    (hgood : GoodSlab c x info) :
    Slabs c (Function.update infos x info) { list with firstFree := some x } all
      (x :: avail) := by
  have hnotin : x ∉ avail := fun hc => ((h.avail_iff x).mp hc).2 hold
  refine ⟨h.chain_update hnext, ⟨rfl, ?_⟩, fun y => ?_, h.good_update hgood⟩
  · simp only [Function.update_self, hnextFree]
    refine (chain_congr fun y hy => ?_).mpr h.chainFree
    rw [Function.update_of_ne (ne_of_mem_of_not_mem hy hnotin)]
  · by_cases hy : y = x
    · rw [hy, Function.update_self]
      exact ⟨fun _ => ⟨hx, hfree⟩, fun _ => List.mem_cons_self ..⟩
    · rw [Function.update_of_ne hy, ← h.avail_iff, List.mem_cons, or_iff_right hy]

/-- A new slab is put at the front of both lists. -/
theorem Slabs.link (h : Slabs c infos list all avail) (hx : x ∉ all)
    (hnext : info.next = list.first) (hnextFree : info.nextFree = list.firstFree)
    (hfree : info.numFree ≠ 0) (hgood : GoodSlab c x info) :
    Slabs c (Function.update infos x info) ⟨some x, some x⟩ (x :: all) (x :: avail) := by
  have hnotin : x ∉ avail := fun hc => hx ((h.avail_iff x).mp hc).1
  refine ⟨⟨rfl, ?_⟩, ⟨rfl, ?_⟩, fun y => ?_, fun y hy => ?_⟩
  · simp only [Function.update_self, hnext]
    refine (chain_congr fun y hy => ?_).mpr h.chain
    rw [Function.update_of_ne (ne_of_mem_of_not_mem hy hx)]
  · simp only [Function.update_self, hnextFree]
    refine (chain_congr fun y hy => ?_).mpr h.chainFree
    rw [Function.update_of_ne (ne_of_mem_of_not_mem hy hnotin)]
  · by_cases hyx : y = x
    · rw [hyx, Function.update_self]
      exact ⟨fun _ => ⟨List.mem_cons_self .., hfree⟩, fun _ => List.mem_cons_self ..⟩
    · rw [Function.update_of_ne hyx, List.mem_cons, List.mem_cons, or_iff_right hyx,
        or_iff_right hyx, h.avail_iff]
  · by_cases hyx : y = x
    · rw [hyx, Function.update_self]
      exact hgood
    · rw [Function.update_of_ne hyx]
      exact h.good y ((List.mem_cons.mp hy).resolve_left hyx)

/-! ### Objects that are handed out -/

/-- An object of an allocator is handed out. -/
def Taken (c : SlabAlloc) (infos : ℕ → SlabInfo) (all : List ℕ) (p : ℕ) : Prop :=
  ∃ x ∈ all, ∃ idx, c.Used (infos x).free idx ∧ p = (infos x).getObj idx c.objectSize

/-- The number of free objects. -/
def freeSum (infos : ℕ → SlabInfo) (all : List ℕ) : ℕ := (all.map fun x => (infos x).numFree).sum

/-- An allocator has handed out `n` objects. -/
def Held (c : SlabAlloc) (infos : ℕ → SlabInfo) (all : List ℕ) (n : ℕ) : Prop :=
  n + freeSum infos all + (if c.ownInfo then all.length else 0) = all.length * c.objectsPerSlab

/-- Only the slabs of the allocator matter. -/
theorem taken_congr (hinfos : ∀ y ∈ all, infos' y = infos y) :
    Taken c infos' all p ↔ Taken c infos all p := by
  constructor
  · rintro ⟨y, hy, h⟩
    exact ⟨y, hy, hinfos y hy ▸ h⟩
  · rintro ⟨y, hy, h⟩
    exact ⟨y, hy, (hinfos y hy).symm ▸ h⟩

/-- The free objects of slabs that did not change. -/
theorem freeSum_congr (hinfos : ∀ y ∈ all, infos' y = infos y) :
    freeSum infos' all = freeSum infos all := by
  rw [freeSum, freeSum, List.map_congr_left fun y hy => by rw [hinfos y hy]]

/-- The number of free objects after a slab changed. -/
theorem freeSum_update (hall : all.Nodup) (hx : x ∈ all) :
    freeSum (Function.update infos x info) all + (infos x).numFree =
      freeSum infos all + info.numFree := by
  have hsum : ∀ f : ℕ → SlabInfo,
      freeSum f all = (f x).numFree + freeSum f (all.erase x) := fun f => by
    rw [freeSum, ((List.perm_cons_erase hx).map _).sum_eq]
    rfl
  have hrest : freeSum (Function.update infos x info) (all.erase x) =
      freeSum infos (all.erase x) :=
    freeSum_congr fun y hy => Function.update_of_ne (hall.mem_erase_iff.mp hy).1 ..
  rw [hsum, hsum infos, hrest, Function.update_self]
  omega

/-- The objects that are handed out after a slab changed. -/
theorem taken_update (hx : x ∈ all) (hptr : info.ptr = (infos x).ptr) :
    Taken c (Function.update infos x info) all p ↔
      (∃ y ∈ all, y ≠ x ∧ ∃ idx, c.Used (infos y).free idx ∧
        p = (infos y).getObj idx c.objectSize) ∨
      ∃ idx, c.Used info.free idx ∧ p = (infos x).getObj idx c.objectSize := by
  have hobj : ∀ idx, info.getObj idx c.objectSize = (infos x).getObj idx c.objectSize :=
    fun idx => by rw [SlabInfo.getObj, SlabInfo.getObj, hptr]
  constructor
  · rintro ⟨y, hy, idx, hused, hp⟩
    by_cases hyx : y = x
    · rw [hyx, Function.update_self] at hused hp
      exact Or.inr ⟨idx, hused, hp.trans (hobj idx)⟩
    · rw [Function.update_of_ne hyx] at hused hp
      exact Or.inl ⟨y, hy, hyx, idx, hused, hp⟩
  · rintro (⟨y, hy, hyx, idx, hused, hp⟩ | ⟨idx, hused, hp⟩)
    · refine ⟨y, hy, idx, ?_⟩
      rw [Function.update_of_ne hyx]
      exact ⟨hused, hp⟩
    · refine ⟨x, hx, idx, ?_⟩
      rw [Function.update_self]
      exact ⟨hused, hp.trans (hobj idx).symm⟩

/-- One more object is handed out. -/
theorem taken_update_take (hx : x ∈ all) (hptr : info.ptr = (infos x).ptr)
    (hidx : idx < c.objectsPerSlab) (hown : c.ownInfo = true → idx ≠ 0)
    (hfree : ∀ j, info.free.mem j = if j = idx then false else (infos x).free.mem j) :
    Taken c (Function.update infos x info) all p ↔
      Taken c infos all p ∨ p = (infos x).getObj idx c.objectSize := by
  rw [taken_update hx hptr]
  constructor
  · rintro (⟨y, hy, -, h⟩ | ⟨j, ⟨hlt, hmem, hj0⟩, hp⟩)
    · exact Or.inl ⟨y, hy, h⟩
    · by_cases hj : j = idx
      · exact Or.inr (hj ▸ hp)
      · rw [hfree, if_neg hj] at hmem
        exact Or.inl ⟨x, hx, j, ⟨hlt, hmem, hj0⟩, hp⟩
  · rintro (⟨y, hy, j, ⟨hlt, hmem, hj0⟩, hp⟩ | hp)
    · by_cases hyx : y = x
      · subst hyx
        refine Or.inr ⟨j, ⟨hlt, ?_, hj0⟩, hp⟩
        rw [hfree, hmem, ite_self]
      · exact Or.inl ⟨y, hy, hyx, j, ⟨hlt, hmem, hj0⟩, hp⟩
    · exact Or.inr ⟨idx, ⟨hidx, by rw [hfree, if_pos rfl], hown⟩, hp⟩

/-- One object less is handed out. -/
theorem taken_update_put (hx : x ∈ all) (hptr : info.ptr = (infos x).ptr)
    (hfree : ∀ j, info.free.mem j = if j = idx then true else (infos x).free.mem j)
    (huniq : ∀ y ∈ all, ∀ j, c.Used (infos y).free j →
      (infos y).getObj j c.objectSize = (infos x).getObj idx c.objectSize → y = x ∧ j = idx) :
    Taken c (Function.update infos x info) all p ↔
      Taken c infos all p ∧ p ≠ (infos x).getObj idx c.objectSize := by
  rw [taken_update hx hptr]
  constructor
  · rintro (⟨y, hy, hyx, j, hused, hp⟩ | ⟨j, ⟨hlt, hmem, hj0⟩, hp⟩)
    · exact ⟨⟨y, hy, j, hused, hp⟩, fun hc => hyx (huniq y hy j hused (hp.symm.trans hc)).1⟩
    · rw [hfree] at hmem
      split_ifs at hmem with hj
      have hused : c.Used (infos x).free j := ⟨hlt, hmem, hj0⟩
      exact ⟨⟨x, hx, j, hused, hp⟩, fun hc => hj (huniq x hx j hused (hp.symm.trans hc)).2⟩
  · rintro ⟨⟨y, hy, j, hused, hp⟩, hne⟩
    by_cases hyx : y = x
    · subst hyx
      have hj : j ≠ idx := fun hj => hne (hj ▸ hp)
      refine Or.inr ⟨j, ⟨hused.1, ?_, hused.2.2⟩, hp⟩
      rw [hfree, if_neg hj]
      exact hused.2.1
    · exact Or.inl ⟨y, hy, hyx, j, hused, hp⟩

/-- The objects that are handed out after a slab was added that has handed out none. -/
theorem taken_link (hx : x ∉ all) (hunused : ∀ idx, ¬ c.Used info.free idx) :
    Taken c (Function.update infos x info) (x :: all) p ↔ Taken c infos all p := by
  have hne : ∀ y ∈ all, Function.update infos x info y = infos y := fun y hy =>
    Function.update_of_ne (ne_of_mem_of_not_mem hy hx) ..
  rw [← taken_congr hne]
  constructor
  · rintro ⟨y, hy, idx, hused, hp⟩
    rcases List.mem_cons.mp hy with rfl | hy
    · rw [Function.update_self] at hused
      exact absurd hused (hunused idx)
    · exact ⟨y, hy, idx, hused, hp⟩
  · rintro ⟨y, hy, h⟩
    exact ⟨y, List.mem_cons_of_mem _ hy, h⟩

/-- The number of objects after a slab was added that has handed out none. -/
theorem Held.link {n : ℕ} (h : Held c infos all n) (hx : x ∉ all)
    (hnum : info.numFree + (if c.ownInfo then 1 else 0) = c.objectsPerSlab) :
    Held c (Function.update infos x info) (x :: all) n := by
  have hsum : freeSum (Function.update infos x info) (x :: all) =
      info.numFree + freeSum infos all := by
    rw [← freeSum_congr fun y hy => Function.update_of_ne (ne_of_mem_of_not_mem hy hx) info infos]
    simp [freeSum]
  rw [Held] at h ⊢
  rw [hsum, List.length_cons, Nat.succ_mul]
  split_ifs at h hnum ⊢ <;> omega

end HydroxKernel.Slab
