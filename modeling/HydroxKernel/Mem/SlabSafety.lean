import Mathlib.Algebra.Order.BigOperators.Group.List
import Mathlib.Algebra.Order.Ring.Nat
import HydroxKernel.Lib.Runs
import HydroxKernel.Mem.SlabLists

/-!
# Safety of the Slab Allocators

The slabs of all allocators lie in different blocks of the page allocator, and every `SlabInfo`
outside of its slab is an object that `SLAB_INFO` has handed out. Therefore no two objects
overlap, whichever allocators they are from, and no object overlaps a `SlabInfo`.

Between two calls every block of the page allocator is the slab of an allocator. Inside a call
there may be `pending` blocks, which are not yet.

## Main results

* `takeObject_spec`, `link_spec`: the two halves of `alloc`.
* `alloc_spec`, `free_spec`: what the operations do.
* `sound_of_runs`: the lists, the bitmaps and the objects are sound in every run, and no call
  panics.
-/

namespace HydroxKernel.Slab

open Util Links

variable {ι : Type} {allocs : ι → SlabAlloc} {s s' : State ι}
variable {all avail all' avail' : Option ι → List ℕ} {pending : List Block} {a b : Option ι}
variable {x y p idx : ℕ}

/-! ### Slabs and blocks -/

/-- The block of a slab. -/
def slabBlock (allocs : ι → SlabAlloc) (s : State ι) (a : Option ι) (x : ℕ) : Block :=
  ⟨(s.infos x).ptr, (config allocs a).slabSize⟩

/-- The slabs of the allocators: `all a` are those of the allocator `a`, and `avail a` those of
them that have free objects. -/
structure Inv (allocs : ι → SlabAlloc) (s : State ι) (all avail : Option ι → List ℕ)
    (pending : List Block) : Prop where
  slabs : ∀ a, Slabs (config allocs a) s.infos (s.lists a) (all a) (avail a)
  owner : ∀ {a b x}, x ∈ all a → x ∈ all b → a = b
  infos : ∀ {a x}, (config allocs a).ownInfo = false → x ∈ all a →
    Taken (config allocs none) s.infos (all none) x
  apart : ∀ b ∈ s.blocks, ∀ b' ∈ s.blocks, b ≠ b' → b.Apart b'
  mem_blocks : ∀ {a x}, x ∈ all a → slabBlock allocs s a x ∈ s.blocks
  not_pending : ∀ {a x}, x ∈ all a → slabBlock allocs s a x ∉ pending
  inj : ∀ {a b x y}, x ∈ all a → y ∈ all b → slabBlock allocs s a x = slabBlock allocs s b y →
    x = y
  pending_mem : ∀ b ∈ pending, b ∈ s.blocks
  cover : ∀ b ∈ s.blocks, b ∈ pending ∨ ∃ a, ∃ x ∈ all a, slabBlock allocs s a x = b

/-- Different slabs lie in different blocks. -/
theorem Inv.apart_slabs (h : Inv allocs s all avail pending) (hx : x ∈ all a) (hy : y ∈ all b)
    (hne : x ≠ y) : (slabBlock allocs s a x).Apart (slabBlock allocs s b y) :=
  h.apart _ (h.mem_blocks hx) _ (h.mem_blocks hy) fun heq => hne (h.inj hx hy heq)

/-- An object lies inside its slab. -/
theorem getObj_mem (info : SlabInfo) {c : SlabAlloc} (hidx : idx < c.objectsPerSlab) :
    info.ptr ≤ info.getObj idx c.objectSize ∧
      info.getObj idx c.objectSize + c.objectSize ≤ info.ptr + c.slabSize := by
  have hle := c.object_le hidx
  rw [SlabInfo.getObj]
  omega

/-- Different objects of a slab do not overlap. -/
theorem getObj_apart (info : SlabInfo) (c : SlabAlloc) {i j : ℕ} (hij : i ≠ j) :
    info.getObj i c.objectSize + c.objectSize ≤ info.getObj j c.objectSize ∨
      info.getObj j c.objectSize + c.objectSize ≤ info.getObj i c.objectSize := by
  have hmul : ∀ {k l : ℕ}, k < l → k * c.objectSize + c.objectSize ≤ l * c.objectSize := by
    intro k l hkl
    calc k * c.objectSize + c.objectSize = (k + 1) * c.objectSize := (Nat.succ_mul ..).symm
      _ ≤ l * c.objectSize := Nat.mul_le_mul_right _ hkl
  simp only [SlabInfo.getObj]
  rcases Nat.lt_or_gt_of_ne hij with hlt | hgt
  · have := hmul hlt
    omega
  · have := hmul hgt
    omega

/-- **Different objects do not overlap**, whichever allocators they are from. -/
theorem Inv.objects_apart (h : Inv allocs s all avail pending) (hx : x ∈ all a) (hy : y ∈ all b)
    {i j : ℕ} (hi : i < (config allocs a).objectsPerSlab)
    (hj : j < (config allocs b).objectsPerSlab) (hne : ¬ (x = y ∧ i = j)) :
    (s.infos x).getObj i (config allocs a).objectSize + (config allocs a).objectSize ≤
        (s.infos y).getObj j (config allocs b).objectSize ∨
      (s.infos y).getObj j (config allocs b).objectSize + (config allocs b).objectSize ≤
        (s.infos x).getObj i (config allocs a).objectSize := by
  by_cases hxy : x = y
  · subst hxy
    obtain rfl := h.owner hx hy
    exact getObj_apart _ _ fun hij => hne ⟨rfl, hij⟩
  · have hap := h.apart_slabs hx hy hxy
    have hox := getObj_mem (s.infos x) hi
    have hoy := getObj_mem (s.infos y) hj
    simp only [Block.Apart, slabBlock] at hap
    omega

/-- An address is that of one object only. -/
theorem Inv.object_unique (h : Inv allocs s all avail pending) (hx : x ∈ all a) (hy : y ∈ all b)
    {i j : ℕ} (hi : i < (config allocs a).objectsPerSlab)
    (hj : j < (config allocs b).objectsPerSlab)
    (heq : (s.infos x).getObj i (config allocs a).objectSize =
      (s.infos y).getObj j (config allocs b).objectSize) : x = y ∧ i = j := by
  by_contra hne
  have hap := h.objects_apart hx hy hi hj hne
  have hsa := (config allocs a).size_ge
  have hsb := (config allocs b).size_ge
  omega

/-- An object that is free is not handed out. -/
theorem Inv.not_taken (h : Inv allocs s all avail pending) (hx : x ∈ all a)
    (hmem : (s.infos x).free.mem idx = true) :
    ¬ Taken (config allocs a) s.infos (all a)
      ((s.infos x).getObj idx (config allocs a).objectSize) := by
  rintro ⟨y, hy, j, ⟨hj, hfree, -⟩, heq⟩
  obtain ⟨rfl, rfl⟩ :=
    h.object_unique hx hy (((h.slabs a).good x hx).bound idx hmem) hj heq
  rw [hmem] at hfree
  exact Bool.noConfusion hfree

/-- The start of a pending block is not the address of a `SlabInfo`. -/
theorem Inv.pending_fresh (h : Inv allocs s all avail pending) {blk : Block}
    (hpen : blk ∈ pending) (hpos : 0 < blk.size) : blk.start ∉ all a := by
  intro hx
  have hblk := h.pending_mem blk hpen
  have hne : ∀ {b y}, y ∈ all b → slabBlock allocs s b y ≠ blk := fun hy heq =>
    h.not_pending hy (heq ▸ hpen)
  cases hown : (config allocs a).ownInfo with
  | true =>
      have hap := h.apart _ (h.mem_blocks hx) _ hblk (hne hx)
      have hptr := (((h.slabs a).good _ hx).own hown).1
      have hsize := (config allocs a).slabSize_pos
      simp only [Block.Apart, slabBlock] at hap
      omega
  | false =>
      obtain ⟨y, hy, j, ⟨hj, -, -⟩, heq⟩ := h.infos hown hx
      have hap := h.apart _ (h.mem_blocks hy) _ hblk (hne hy)
      have hobj := getObj_mem (s.infos y) hj
      have hge := (config allocs none).size_ge
      simp only [Block.Apart, slabBlock] at hap
      omega

/-- The address of an object is not that of a `SlabInfo` inside a slab. -/
theorem Inv.taken_not_own (h : Inv allocs s all avail pending)
    (ht : Taken (config allocs a) s.infos (all a) p)
    (hown : (config allocs b).ownInfo = true) : p ∉ all b := by
  intro hp
  obtain ⟨y, hy, idx, ⟨hidx, -, hne⟩, heq⟩ := ht
  have hptr := (((h.slabs b).good p hp).own hown).1
  have hobj := getObj_mem (s.infos y) hidx
  have hsize := (config allocs a).size_ge
  by_cases hyp : y = p
  · subst hyp
    obtain rfl := h.owner hp hy
    have hmul : 0 < idx * (config allocs b).objectSize :=
      Nat.mul_pos (Nat.pos_of_ne_zero (hne hown)) (by omega)
    rw [SlabInfo.getObj] at heq
    omega
  · have hap := h.apart_slabs hy hp hyp
    have hpos := (config allocs b).slabSize_pos
    simp only [Block.Apart, slabBlock] at hap
    omega

/-- No live object overlaps a `SlabInfo`. -/
theorem Inv.off_info {i : ι} (h : Inv allocs s all avail pending)
    (hp : Taken (allocs i) s.infos (all (some i)) p) (hx : x ∈ all a) :
    p + (allocs i).objectSize ≤ x ∨ x + slabInfoSize ≤ p := by
  obtain ⟨y, hy, j, ⟨hj, -, hj0⟩, rfl⟩ := hp
  cases hown : (config allocs a).ownInfo with
  | true =>
      -- the `SlabInfo` is the first object of its slab
      have hptr := (((h.slabs a).good x hx).own hown).1
      have hsize := (config allocs a).own_size hown
      have hpos : 0 < (config allocs a).objectsPerSlab :=
        (by decide : 0 < 4).trans_le (config allocs a).four_le_objectsPerSlab
      have hap := h.objects_apart hy hx hj hpos (by
        rintro ⟨rfl, rfl⟩
        obtain rfl := h.owner hx hy
        exact hj0 hown rfl)
      simp only [config, SlabInfo.getObj, Nat.zero_mul] at hap hsize ⊢
      omega
  | false =>
      -- the `SlabInfo` is an object of `SLAB_INFO`
      obtain ⟨z, hz, k, ⟨hk, -, -⟩, hxz⟩ := h.infos hown hx
      have hap := h.objects_apart hy hz hj hk (by
        rintro ⟨rfl, -⟩
        exact Option.some_ne_none i (h.owner hy hz))
      rw [← hxz] at hap
      exact hap

/-- The first slab with free objects. -/
theorem Inv.avail_eq (h : Inv allocs s all avail pending)
    (hfirst : (s.lists a).firstFree = some x) : ∃ rest, avail a = x :: rest := by
  have hchain := (h.slabs a).chainFree
  rw [hfirst] at hchain
  cases hav : avail a with
  | nil =>
      rw [hav, chain_nil] at hchain
      exact absurd hchain (Option.some_ne_none x)
  | cons y rest =>
      rw [hav, chain_cons] at hchain
      exact ⟨rest, by rw [Option.some.inj hchain.1]⟩

/-- There are not more slabs than blocks. -/
theorem Inv.length_le (h : Inv allocs s all avail pending) (a : Option ι) :
    (all a).length ≤ s.blocks.length := by
  have hnodup : ((all a).map (slabBlock allocs s a)).Nodup :=
    (h.slabs a).chain.nodup.map_on fun x hx y hy => h.inj hx hy
  have hsub : (all a).map (slabBlock allocs s a) ⊆ s.blocks := by
    intro blk hblk
    obtain ⟨x, hx, rfl⟩ := List.mem_map.mp hblk
    exact h.mem_blocks hx
  have hle := (List.subperm_of_subset hnodup hsub).length_le
  rwa [List.length_map] at hle

/-! ### Changing a slab -/

/-- A block that has just been handed out is not yet pending. -/
theorem Inv.not_mem_pending (h : Inv allocs s all avail pending) {blk : Block}
    (hapart : ∀ b ∈ s.blocks, Block.Apart blk b) (hpos : 0 < blk.size) : blk ∉ pending := by
  intro hmem
  have hself := hapart blk (h.pending_mem blk hmem)
  rw [Block.Apart] at hself
  omega

/-- The page allocator hands out a block. -/
theorem Inv.page {blk : Block} (h : Inv allocs s all avail pending)
    (hapart : ∀ b ∈ s.blocks, Block.Apart blk b) (hpos : 0 < blk.size) :
    Inv allocs { s with blocks := blk :: s.blocks } all avail (blk :: pending) := by
  have hself : ¬ blk.Apart blk := by
    rw [Block.Apart]
    omega
  refine ⟨h.slabs, h.owner, h.infos, ?_, fun hy => List.mem_cons_of_mem _ (h.mem_blocks hy),
    fun {b y} hy hc => ?_, h.inj, ?_, ?_⟩
  · intro b hb b' hb' hne
    simp only [List.mem_cons] at hb hb'
    rcases hb with rfl | hb
    · exact hapart b' (hb'.resolve_left (Ne.symm hne))
    · rcases hb' with rfl | hb'
      · exact (hapart b hb).symm
      · exact h.apart b hb b' hb' hne
  · rcases List.mem_cons.mp hc with heq | hc
    · have hmem := hapart _ (h.mem_blocks hy)
      rw [show slabBlock allocs s b y = blk from heq] at hmem
      exact hself hmem
    · exact h.not_pending hy hc
  · intro b hb
    rcases List.mem_cons.mp hb with rfl | hb
    · exact List.mem_cons_self ..
    · exact List.mem_cons_of_mem _ (h.pending_mem b hb)
  · intro b hb
    rcases List.mem_cons.mp hb with rfl | hb
    · exact Or.inl (List.mem_cons_self ..)
    · exact (h.cover b hb).imp_left (List.mem_cons_of_mem _)

section Steps

variable [DecidableEq ι] {info : SlabInfo} {list : SlabList} {slabs : List ℕ} {blk : Block}

/-- A slab changes, and with it the lists of its allocator. -/
theorem Inv.update (h : Inv allocs s all avail pending) (hx : x ∈ all a)
    (hslabs : Slabs (config allocs a) (Function.update s.infos x info) list (all a) slabs)
    (hptr : info.ptr = (s.infos x).ptr)
    (htaken : a = none → ∀ q, Taken (config allocs none) s.infos (all none) q →
      Taken (config allocs none) (Function.update s.infos x info) (all none) q) :
    Inv allocs ⟨Function.update s.lists a list, Function.update s.infos x info, s.blocks⟩ all
      (Function.update avail a slabs) pending := by
  have hsame : ∀ b, b ≠ a → ∀ y ∈ all b, Function.update s.infos x info y = s.infos y := by
    intro b hb y hy
    refine Function.update_of_ne (fun hyx => hb (h.owner hy ?_)) ..
    rw [hyx]
    exact hx
  have hblock : ∀ b y, slabBlock allocs
      ⟨Function.update s.lists a list, Function.update s.infos x info, s.blocks⟩ b y =
        slabBlock allocs s b y := by
    intro b y
    by_cases hy : y = x
    · simp only [slabBlock, hy, Function.update_self, hptr]
    · simp only [slabBlock, Function.update_of_ne hy]
  refine ⟨fun b => ?_, h.owner, fun {b y} hown hy => ?_, h.apart, ?_, ?_, ?_, h.pending_mem, ?_⟩
  · by_cases hb : b = a
    · subst hb
      simp only [Function.update_self]
      exact hslabs
    · simp only [Function.update_of_ne hb]
      exact (h.slabs b).congr (hsame b hb)
  · have hold := h.infos hown hy
    by_cases ha : a = none
    · exact htaken ha y hold
    · exact (taken_congr (hsame none (Ne.symm ha))).mpr hold
  · intro b y hy
    rw [hblock]
    exact h.mem_blocks hy
  · intro b y hy
    rw [hblock]
    exact h.not_pending hy
  · intro b b' y y' hy hy'
    rw [hblock, hblock]
    exact h.inj hy hy'
  · simp only [hblock]
    exact h.cover

/-- The slab that is linked has the first of the others after it. -/
theorem linkSlab_infos : (linkSlab a s x info).infos = Function.update s.infos x
    { info with next := (s.lists a).first, nextFree := (s.lists a).firstFree } := rfl

/-- No other slab changes. -/
theorem linkSlab_infos_of_mem (hx : x ∉ all b) (hy : y ∈ all b) :
    (linkSlab a s x info).infos y = s.infos y :=
  Function.update_of_ne (ne_of_mem_of_not_mem hy hx) ..

/-- The block of the slab that is linked. -/
theorem slabBlock_linkSlab_self :
    slabBlock allocs (linkSlab a s x info) a x = ⟨info.ptr, (config allocs a).slabSize⟩ := by
  rw [slabBlock, linkSlab_infos, Function.update_self]

/-- The blocks of other slabs. -/
theorem slabBlock_linkSlab_of_mem (hx : x ∉ all b) (hy : y ∈ all b) :
    slabBlock allocs (linkSlab a s x info) b y = slabBlock allocs s b y := by
  rw [slabBlock, slabBlock, linkSlab_infos_of_mem hx hy]

/-- The slabs after a slab was added. -/
theorem mem_update_cons :
    y ∈ Function.update all a (x :: all a) b ↔ (b = a ∧ y = x) ∨ y ∈ all b := by
  by_cases hb : b = a
  · subst hb
    simp
  · simp [hb]

/-- `SLAB_INFO` has handed out the same objects after a slab was added, whoever got it. -/
theorem taken_none_linkSlab (hx : x ∉ all none) (hfresh : Fresh (config allocs a) x info)
    (hp : Taken (config allocs none) s.infos (all none) p) :
    Taken (config allocs none) (linkSlab a s x info).infos
      (Function.update all a (x :: all a) none) p := by
  by_cases ha : a = none
  · subst ha
    rw [Function.update_self, linkSlab_infos]
    refine (taken_link hx ?_).mpr hp
    exact hfresh.unused
  · rw [Function.update_of_ne (Ne.symm ha)]
    exact (taken_congr fun y hy => linkSlab_infos_of_mem hx hy).mpr hp

/-- A pending block becomes a slab. -/
theorem Inv.link (h : Inv allocs s all avail (blk :: pending))
    (hblk : blk = ⟨info.ptr, (config allocs a).slabSize⟩) (hnot : blk ∉ pending)
    (hx : ∀ b, x ∉ all b) (hfresh : Fresh (config allocs a) x info)
    (hinfo : (config allocs a).ownInfo = false → Taken (config allocs none) s.infos (all none) x) :
    Inv allocs (linkSlab a s x info) (Function.update all a (x :: all a))
      (Function.update avail a (x :: avail a)) pending := by
  have hblock : ∀ {b y}, y ∈ all b →
      slabBlock allocs (linkSlab a s x info) b y = slabBlock allocs s b y := fun {b _} hy =>
    slabBlock_linkSlab_of_mem (hx b) hy
  have hnew : slabBlock allocs (linkSlab a s x info) a x = blk :=
    slabBlock_linkSlab_self.trans hblk.symm
  have hne : ∀ {b y}, y ∈ all b → slabBlock allocs s b y ≠ blk := fun hy heq =>
    h.not_pending hy (heq ▸ List.mem_cons_self ..)
  refine ⟨fun b => ?_, ?_, ?_, h.apart, ?_, ?_, ?_,
    fun b hb => h.pending_mem b (List.mem_cons_of_mem _ hb), ?_⟩
  · by_cases hb : b = a
    · subst hb
      simp only [linkSlab, State.setList, State.write, Function.update_self]
      exact (h.slabs b).link (hx b) rfl rfl hfresh.numFree_ne (hfresh.good.relink _ _)
    · simp only [linkSlab, State.setList, Function.update_of_ne hb]
      exact (h.slabs b).congr fun y hy => linkSlab_infos_of_mem (hx b) hy
  · intro b b' y hy hy'
    rw [mem_update_cons] at hy hy'
    rcases hy with ⟨rfl, rfl⟩ | hy <;> rcases hy' with ⟨rfl, hyx⟩ | hy'
    · rfl
    · exact absurd hy' (hx b')
    · exact absurd (hyx ▸ hy) (hx b)
    · exact h.owner hy hy'
  · intro b y hown hy
    rcases mem_update_cons.mp hy with ⟨rfl, rfl⟩ | hy
    · exact taken_none_linkSlab (hx none) hfresh (hinfo hown)
    · exact taken_none_linkSlab (hx none) hfresh (h.infos hown hy)
  · intro b y hy
    rcases mem_update_cons.mp hy with ⟨rfl, rfl⟩ | hy
    · rw [hnew]
      exact h.pending_mem blk (List.mem_cons_self ..)
    · rw [hblock hy]
      exact h.mem_blocks hy
  · intro b y hy
    rcases mem_update_cons.mp hy with ⟨rfl, rfl⟩ | hy
    · rw [hnew]
      exact hnot
    · rw [hblock hy]
      exact fun hc => h.not_pending hy (List.mem_cons_of_mem _ hc)
  · intro b b' y y' hy hy' heq
    rw [mem_update_cons] at hy hy'
    rcases hy with ⟨rfl, rfl⟩ | hy <;> rcases hy' with ⟨rfl, hyx⟩ | hy'
    · exact hyx.symm
    · rw [hnew, hblock hy'] at heq
      exact absurd heq.symm (hne hy')
    · rw [hyx, hnew, hblock hy] at heq
      exact absurd heq (hne hy)
    · rw [hblock hy, hblock hy'] at heq
      exact h.inj hy hy' heq
  · intro blk' hblk'
    rcases h.cover blk' hblk' with hc | ⟨b, y, hy, heq⟩
    · rcases List.mem_cons.mp hc with rfl | hc
      · exact Or.inr ⟨a, x, mem_update_cons.mpr (Or.inl ⟨rfl, rfl⟩), hnew⟩
      · exact Or.inl hc
    · exact Or.inr ⟨b, y, mem_update_cons.mpr (Or.inr hy), (hblock hy).trans heq⟩

end Steps

/-! ### Handing out objects -/

/-- The allocator `a` has handed out the objects `ps`. The other allocators of the family are
as before. -/
structure Gains (allocs : ι → SlabAlloc) (s s' : State ι) (all all' : Option ι → List ℕ)
    (a : Option ι) (ps : List ℕ) : Prop where
  taken : ∀ q, Taken (config allocs a) s'.infos (all' a) q ↔
    Taken (config allocs a) s.infos (all a) q ∨ q ∈ ps
  held : ∀ n, Held (config allocs a) s.infos (all a) n →
    Held (config allocs a) s'.infos (all' a) (n + ps.length)
  others : ∀ b, b ≠ a → b ≠ none → all' b = all b ∧ ∀ y ∈ all b, s'.infos y = s.infos y

/-- Nothing happened to an allocator. -/
theorem Gains.of_same (hall : all' a = all a) (hinfos : ∀ y ∈ all a, s'.infos y = s.infos y)
    (hothers : ∀ b, b ≠ a → b ≠ none → all' b = all b ∧ ∀ y ∈ all b, s'.infos y = s.infos y) :
    Gains allocs s s' all all' a [] := by
  refine ⟨fun q => ?_, fun n hn => ?_, hothers⟩
  · rw [hall, taken_congr hinfos]
    simp
  · rw [Held, hall, freeSum_congr hinfos]
    exact hn

/-- What `SLAB_INFO` hands out does not concern an allocator of the family. -/
theorem Gains.of_none {ps : List ℕ} (h : Gains allocs s s' all all' none ps) (i : ι) :
    Gains allocs s s' all all' (some i) [] := by
  obtain ⟨hall, hinfos⟩ := h.others (some i) (by simp) (by simp)
  exact Gains.of_same hall hinfos fun b _ hb => h.others b hb hb

/-- The blocks of the page allocator do not matter. -/
theorem Gains.of_page {blocks : List Block} {ps : List ℕ}
    (h : Gains allocs { s with blocks := blocks } s' all all' a ps) :
    Gains allocs s s' all all' a ps :=
  ⟨h.taken, h.held, h.others⟩

/-- One step after another. -/
theorem Gains.trans {s₁ s₂ s₃ : State ι} {all₁ all₂ all₃ : Option ι → List ℕ} {ps ps' : List ℕ}
    (h : Gains allocs s₁ s₂ all₁ all₂ a ps) (h' : Gains allocs s₂ s₃ all₂ all₃ a ps') :
    Gains allocs s₁ s₃ all₁ all₃ a (ps ++ ps') := by
  refine ⟨fun q => ?_, fun n hn => ?_, fun b hba hb => ?_⟩
  · rw [h'.taken, h.taken, List.mem_append, or_assoc]
  · rw [List.length_append, ← Nat.add_assoc]
    exact h'.held _ (h.held n hn)
  · obtain ⟨hall, hinfos⟩ := h.others b hba hb
    obtain ⟨hall', hinfos'⟩ := h'.others b hba hb
    refine ⟨hall'.trans hall, fun y hy => ?_⟩
    rw [hinfos' y (hall ▸ hy), hinfos y hy]

/-- An object is taken from a slab. -/
theorem Inv.gains_take {info : SlabInfo} (h : Inv allocs s all avail pending) (hx : x ∈ all a)
    (hlists : s'.infos = Function.update s.infos x info) (hptr : info.ptr = (s.infos x).ptr)
    (hnum : info.numFree + 1 = (s.infos x).numFree) (hidx : (s.infos x).free.mem idx = true)
    (hfree : ∀ j, info.free.mem j = if j = idx then false else (s.infos x).free.mem j) :
    Gains allocs s s' all all a [(s.infos x).getObj idx (config allocs a).objectSize] := by
  have hgood := (h.slabs a).good x hx
  have hown : (config allocs a).ownInfo = true → idx ≠ 0 := by
    rintro ho rfl
    rw [(hgood.own ho).2] at hidx
    exact Bool.noConfusion hidx
  refine ⟨fun q => ?_, fun n hn => ?_, fun b hba _ => ⟨rfl, fun y hy => ?_⟩⟩
  · rw [hlists, taken_update_take hx hptr (hgood.bound idx hidx) hown hfree, List.mem_singleton]
  · have hsum : freeSum (Function.update s.infos x info) (all a) + (s.infos x).numFree =
        freeSum s.infos (all a) + info.numFree := freeSum_update (h.slabs a).chain.nodup hx
    rw [Held] at hn ⊢
    rw [hlists, List.length_singleton]
    omega
  · rw [hlists]
    refine Function.update_of_ne (fun hyx => hba (h.owner hy ?_)) ..
    rw [hyx]
    exact hx

/-- The address that `SLAB_INFO` has just handed out is not that of a `SlabInfo`. -/
theorem Inv.info_fresh {pending' : List Block} (h : Inv allocs s all avail pending)
    (h' : Inv allocs s' all' avail' pending') (hg : Gains allocs s s' all all' none [x])
    (hnew : ¬ Taken (config allocs none) s.infos (all none) x) : x ∉ all' b := by
  intro hb
  cases hown : (config allocs b).ownInfo with
  | true =>
      have hx := (hg.taken x).mpr (Or.inr (List.mem_singleton_self x))
      exact h'.taken_not_own hx hown hb
  | false =>
      have hbn : b ≠ none := by
        rintro rfl
        exact Bool.noConfusion hown
      rw [(hg.others b hbn hbn).1] at hb
      exact hnew (h.infos hown hb)

section Alloc

variable [DecidableEq ι] {info : SlabInfo}

/-- **The end of `alloc` hands out a free object.** -/
theorem takeObject_spec (h : Inv allocs s all avail pending) {rest : List ℕ}
    (havail : avail a = x :: rest) :
    ∃ p s' avail', takeObject (config allocs a) a s x = .ok (some p, s') ∧
      Inv allocs s' all avail' pending ∧ Gains allocs s s' all all a [p] ∧
      ¬ Taken (config allocs a) s.infos (all a) p := by
  have hslabs := h.slabs a
  have hxav : x ∈ avail a := by simp [havail]
  obtain ⟨hx, hnum⟩ := (hslabs.avail_iff x).mp hxav
  have hgood := hslabs.good x hx
  -- the slab has a free object because its counter is not zero
  obtain ⟨idx, hfind, hidx⟩ : ∃ idx, (s.infos x).free.findNext 0 = some idx ∧
      (s.infos x).free.mem idx = true := by
    rcases (s.infos x).free.findNext_spec (by decide : 0 < 512) with
      ⟨idx, hfind, -, hmem, -⟩ | ⟨-, hnone⟩
    · exact ⟨idx, hfind, hmem⟩
    · obtain ⟨k, hk⟩ := Finset.card_ne_zero.mp (hgood.numFree_eq ▸ hnum)
      rw [FixedBitVector.mem_members, hnone k (Nat.zero_le k)] at hk
      exact absurd hk Bool.false_ne_true
  have hlt : idx < 512 := (hgood.bound idx hidx).trans_le (config allocs a).objectsPerSlab_le
  obtain ⟨free, hset, hfree⟩ := (s.infos x).free.set_spec hlt false
  obtain ⟨-, hgood'⟩ := hgood.take hidx hfree
  have hmono : ∀ {i : SlabInfo}, i.ptr = (s.infos x).ptr → i.free = free → a = none →
      ∀ q, Taken (config allocs none) s.infos (all none) q →
        Taken (config allocs none) (Function.update s.infos x i) (all none) q := by
    rintro i hi hifree rfl q hq
    refine (taken_update_take hx hi (hgood.bound idx hidx) ?_ (hifree ▸ hfree)).mpr (Or.inl hq)
    rintro ho rfl
    rw [(hgood.own ho).2] at hidx
    exact Bool.noConfusion hidx
  refine ⟨(s.infos x).getObj idx (config allocs a).objectSize, ?_⟩
  rw [takeObject]
  simp only [hfind, hset, Except.mapError, ok_bind, ensure_pos hnum]
  by_cases hlast : (s.infos x).numFree - 1 = 0
  · rw [if_pos hlast]
    refine ⟨_, _, rfl, h.update hx ((havail ▸ hslabs).leave rfl hlast (hgood'.relink _ _)) rfl
      (hmono rfl rfl), h.gains_take hx rfl rfl ?_ hidx hfree, h.not_taken hx hidx⟩
    exact Nat.succ_pred hnum
  · rw [if_neg hlast]
    have hupdate : Slabs (config allocs a) (Function.update s.infos x { s.infos x with
        free := free, numFree := (s.infos x).numFree - 1 }) (s.lists a) (all a) (avail a) :=
      hslabs.update hxav rfl rfl hlast hgood'
    have hinv := h.update hx hupdate rfl (hmono rfl rfl)
    rw [Function.update_eq_self] at hinv
    refine ⟨_, _, rfl, hinv, h.gains_take hx rfl rfl ?_ hidx hfree, h.not_taken hx hidx⟩
    exact Nat.succ_pred hnum

/-- A new slab has handed out nothing. -/
theorem gains_link (hx : ∀ b, x ∉ all b) (hfresh : Fresh (config allocs a) x info) :
    Gains allocs s (linkSlab a s x info) all (Function.update all a (x :: all a)) a [] := by
  refine ⟨fun q => ?_, fun n hn => ?_,
    fun b hba _ => ⟨Function.update_of_ne hba .., fun y hy => ?_⟩⟩
  · rw [Function.update_self, linkSlab_infos, taken_link (hx a)]
    · simp
    · exact hfresh.unused
  · rw [Function.update_self, linkSlab_infos]
    refine hn.link (hx a) ?_
    exact hfresh.count
  · exact Function.update_of_ne (ne_of_mem_of_not_mem hy (hx b)) ..

/-- **A pending block becomes a slab, and `alloc` hands out its first object.** -/
theorem link_spec {blk : Block} (h : Inv allocs s all avail (blk :: pending))
    (hblk : blk = ⟨info.ptr, (config allocs a).slabSize⟩) (hnot : blk ∉ pending)
    (hx : ∀ b, x ∉ all b) (hfresh : Fresh (config allocs a) x info)
    (hinfo : (config allocs a).ownInfo = false →
      Taken (config allocs none) s.infos (all none) x) :
    ∃ p s' all' avail',
      takeObject (config allocs a) a (linkSlab a s x info) x = .ok (some p, s') ∧
      Inv allocs s' all' avail' pending ∧ Gains allocs s s' all all' a [p] ∧
      ¬ Taken (config allocs a) s.infos (all a) p := by
  have hlink := h.link hblk hnot hx hfresh hinfo
  have hgains : Gains allocs s (linkSlab a s x info) all _ a [] := gains_link hx hfresh
  obtain ⟨p, s', avail', htake, hinv, hgains', hfree⟩ :=
    takeObject_spec hlink (Function.update_self ..)
  refine ⟨p, s', _, avail', htake, hinv, hgains.trans hgains', fun hc => hfree ?_⟩
  exact (hgains.taken p).mpr (Or.inl hc)

/-- `alloc` of an allocator with `OWN_INFO`. -/
theorem allocOwn_spec (h : Inv allocs s all avail pending) (pol : PagePolicy)
    (f : State ι → Except Panic (Option ℕ × State ι))
    (hown : (config allocs a).ownInfo = true) :
    allocWith f pol (config allocs a) a s = .ok (none, s) ∨
      ∃ p s' all' avail', allocWith f pol (config allocs a) a s = .ok (some p, s') ∧
        Inv allocs s' all' avail' pending ∧ Gains allocs s s' all all' a [p] ∧
        ¬ Taken (config allocs a) s.infos (all a) p := by
  rw [allocWith]
  cases hfirst : (s.lists a).firstFree with
  | some x =>
      obtain ⟨rest, hav⟩ := h.avail_eq hfirst
      obtain ⟨p, s', avail', hspec⟩ := takeObject_spec h hav
      exact Or.inr ⟨p, s', all, avail', hspec⟩
  | none =>
      cases hpage : pol.choose s.blocks (config allocs a).slabSize with
      | none =>
          refine Or.inl ?_
          simp only [pageAllocate, hpage]
      | some ptr =>
          have hpos := (config allocs a).slabSize_pos
          have hapart := pol.apart hpage
          have hinv := h.page hapart hpos
          obtain ⟨info, old, free, hnew, hset, hnum, hptr, hfresh⟩ :=
            fresh_newOwn hown (pol.aligned hpage)
          have hinfo : (config allocs a).ownInfo = false →
              Taken (config allocs none) s.infos (all none) ptr := by
            rw [hown]
            exact fun hc => Bool.noConfusion hc
          obtain ⟨p, s', all', avail', htake, hinv', hgains, hfree⟩ :=
            link_spec hinv (by rw [← hptr]) (h.not_mem_pending hapart hpos)
              (fun b => hinv.pending_fresh (List.mem_cons_self ..) hpos) hfresh hinfo
          refine Or.inr ⟨p, s', all', avail', ?_, hinv', hgains.of_page, hfree⟩
          simp only [pageAllocate, hpage, hown, if_true, hnew, hset, Except.mapError, ok_bind,
            ensure_pos hnum]
          exact htake

/-- **`alloc` hands out a new object, or fails and changes nothing.** -/
theorem alloc_spec (h : Inv allocs s all avail []) (pol : PagePolicy) (i : ι) :
    alloc allocs pol s i = .ok (none, s) ∨
      ∃ p s' all' avail', alloc allocs pol s i = .ok (some p, s') ∧
        Inv allocs s' all' avail' [] ∧ Gains allocs s s' all all' (some i) [p] ∧
        ¬ Taken (allocs i) s.infos (all (some i)) p := by
  cases hown : (allocs i).ownInfo with
  | true => exact allocOwn_spec h pol (allocInfo pol) hown
  | false =>
      rw [alloc, allocWith]
      cases hfirst : (s.lists (some i)).firstFree with
      | some x =>
          obtain ⟨rest, hav⟩ := h.avail_eq hfirst
          obtain ⟨p, s', avail', hspec⟩ := takeObject_spec h hav
          exact Or.inr ⟨p, s', all, avail', hspec⟩
      | none =>
          cases hpage : pol.choose s.blocks (allocs i).slabSize with
          | none =>
              refine Or.inl ?_
              simp only [pageAllocate, hpage]
          | some ptr =>
              have hinv := h.page (pol.apart hpage) (allocs i).slabSize_pos
              simp only [pageAllocate, hpage, hown, Bool.false_eq_true, if_false]
              rcases allocOwn_spec hinv pol (fun s => .ok (none, s))
                (rfl : (config allocs none).ownInfo = true) with
                hnone | ⟨x, s₂, all₂, avail₂, hsome, hinv₂, hgains₂, hnew⟩
              · refine Or.inl ?_
                have hinfo : allocInfo pol
                    { s with blocks := ⟨ptr, (allocs i).slabSize⟩ :: s.blocks } = _ := hnone
                simp only [hinfo, ok_bind, pageDeallocate, List.erase_cons_head]
              · refine Or.inr ?_
                have hinfo : allocInfo pol
                    { s with blocks := ⟨ptr, (allocs i).slabSize⟩ :: s.blocks } = _ := hsome
                have hx : Taken (config allocs none) s₂.infos (all₂ none) x :=
                  (hgains₂.taken x).mpr (Or.inr (List.mem_singleton_self x))
                obtain ⟨info, hinew, hptr, hfresh⟩ := fresh_new hown (pol.aligned hpage)
                have hgains := hgains₂.of_none i
                obtain ⟨p, s', all', avail', htake, hinv', hgains', hfree⟩ :=
                  link_spec (a := some i) hinv₂ (by rw [hptr]; rfl) (List.not_mem_nil)
                    (fun b => hinv.info_fresh hinv₂ hgains₂ hnew) hfresh fun _ => hx
                refine ⟨p, s', all', avail', ?_, hinv', ?_, fun hc => hfree ?_⟩
                · simp only [hinfo, ok_bind, hinew]
                  exact htake
                · exact (hgains.trans hgains').of_page
                · exact (hgains.taken p).mpr (Or.inl hc)

end Alloc

/-! ### Giving back objects -/

/-- The allocator `i` has got back the object `p`. The other allocators are as before. -/
structure Loses (allocs : ι → SlabAlloc) (s s' : State ι) (all : Option ι → List ℕ) (i : ι)
    (p : ℕ) : Prop where
  taken : ∀ q, Taken (allocs i) s'.infos (all (some i)) q ↔
    Taken (allocs i) s.infos (all (some i)) q ∧ q ≠ p
  held : ∀ n, Held (allocs i) s.infos (all (some i)) (n + 1) →
    Held (allocs i) s'.infos (all (some i)) n
  others : ∀ b, b ≠ some i → ∀ y ∈ all b, s'.infos y = s.infos y

/-- An object is given back to a slab. -/
theorem Inv.loses {i : ι} {info : SlabInfo} (h : Inv allocs s all avail pending)
    (hx : x ∈ all (some i))
    (hinfos : s'.infos = Function.update s.infos x info) (hptr : info.ptr = (s.infos x).ptr)
    (hnum : info.numFree = (s.infos x).numFree + 1)
    (hused : (allocs i).Used (s.infos x).free idx)
    (hfree : ∀ j, info.free.mem j = if j = idx then true else (s.infos x).free.mem j) :
    Loses allocs s s' all i ((s.infos x).getObj idx (allocs i).objectSize) := by
  refine ⟨fun q => ?_, fun n hn => ?_, fun b hb y hy => ?_⟩
  · rw [hinfos, taken_update_put hx hptr hfree]
    intro y hy j hj heq
    exact h.object_unique hy hx hj.1 hused.1 heq
  · have hsum : freeSum (Function.update s.infos x info) (all (some i)) + (s.infos x).numFree =
        freeSum s.infos (all (some i)) + info.numFree :=
      freeSum_update (h.slabs (some i)).chain.nodup hx
    rw [Held] at hn ⊢
    rw [hinfos]
    omega
  · rw [hinfos]
    refine Function.update_of_ne (fun hyx => hb (h.owner hy ?_)) ..
    rw [hyx]
    exact hx

section Free

variable [DecidableEq ι] {info : SlabInfo} {i : ι}

/-- The loop of `free` finds the slab that the pointer lies in. -/
theorem freeLoop_eq {c : SlabAlloc} {first : Option ℕ} {slabs : List ℕ} {fuel : ℕ}
    (hchain : Chain (fun x => (s.infos x).next) first slabs none) (hx : x ∈ slabs)
    (hin : (s.infos x).ptr ≤ p ∧ p < (s.infos x).ptr + c.slabSize)
    (hout : ∀ y ∈ slabs, y ≠ x → ¬ ((s.infos y).ptr ≤ p ∧ p < (s.infos y).ptr + c.slabSize))
    (hfuel : slabs.length < fuel) :
    freeLoop c a s p fuel first = freeObject c a s x p := by
  induction slabs generalizing first fuel with
  | nil => exact absurd hx (List.not_mem_nil)
  | cons y slabs ih =>
      obtain ⟨fuel, rfl⟩ : ∃ k, fuel = k + 1 := ⟨fuel - 1, by simp at hfuel; omega⟩
      obtain ⟨rfl, hchain⟩ := hchain
      rw [freeLoop]
      by_cases hyx : y = x
      · rw [hyx, if_pos hin]
      · rw [if_neg (hout y (List.mem_cons_self ..) hyx)]
        refine ih hchain ((List.mem_cons.mp hx).resolve_left (Ne.symm hyx))
          (fun z hz => hout z (List.mem_cons_of_mem _ hz)) ?_
        simpa using hfuel

/-- An object is given back to its slab: the slab is written, and the list of the slabs with
free objects. -/
theorem Slabs.freeObject {c : SlabAlloc} {a : Option ι} {slabs free : List ℕ}
    (h : Slabs c s.infos (s.lists a) slabs free) (hx : x ∈ slabs)
    (hused : c.Used (s.infos x).free idx) :
    ∃ info list free', Slab.freeObject c a s x ((s.infos x).getObj idx c.objectSize) =
        .ok ⟨Function.update s.lists a list, Function.update s.infos x info, s.blocks⟩ ∧
      Slabs c (Function.update s.infos x info) list slabs free' ∧
      info.ptr = (s.infos x).ptr ∧ info.next = (s.infos x).next ∧
      info.numFree = (s.infos x).numFree + 1 ∧
      ∀ j, info.free.mem j = if j = idx then true else (s.infos x).free.mem j := by
  have hsize := c.size_ge
  have hoff : (s.infos x).getObj idx c.objectSize - (s.infos x).ptr = idx * c.objectSize := by
    rw [SlabInfo.getObj, Nat.add_sub_cancel_left]
  have hdiv : idx * c.objectSize / c.objectSize = idx := Nat.mul_div_cancel _ (by omega)
  obtain ⟨bits, hset, hbits⟩ := (s.infos x).free.set_spec
    (hused.1.trans_le c.objectsPerSlab_le) true
  obtain ⟨hover, hgood⟩ := (h.good x hx).put hused hbits
  rw [Slab.freeObject]
  simp only [hoff, hdiv, ensure_pos, hset, Except.mapError, ok_bind, hused.2.1, ensure_pos hover]
  by_cases hfirst : (s.infos x).numFree = 0
  · rw [if_pos (by rw [hfirst])]
    refine ⟨_, _, _, rfl, h.enter hx hfirst rfl rfl ?_ (hgood.relink _ _), rfl, rfl, rfl, hbits⟩
    exact Nat.succ_ne_zero _
  · rw [if_neg (by omega)]
    have hxav : x ∈ free := (h.avail_iff x).mpr ⟨hx, hfirst⟩
    refine ⟨{ s.infos x with free := bits, numFree := (s.infos x).numFree + 1 },
      s.lists a, free, ?_, h.update hxav rfl rfl (Nat.succ_ne_zero _) hgood, rfl, rfl, rfl, hbits⟩
    rw [Function.update_eq_self]
    rfl

/-- `free` gives an object back to its slab. -/
theorem freeObject_spec (h : Inv allocs s all avail pending) (hx : x ∈ all (some i))
    (hused : (allocs i).Used (s.infos x).free idx) :
    ∃ s' avail', freeObject (allocs i) (some i) s x
          ((s.infos x).getObj idx (allocs i).objectSize) = .ok s' ∧
      Inv allocs s' all avail' pending ∧
      Loses allocs s s' all i ((s.infos x).getObj idx (allocs i).objectSize) := by
  have hslabs : Slabs (allocs i) s.infos (s.lists (some i)) (all (some i)) (avail (some i)) :=
    h.slabs (some i)
  obtain ⟨info, list, free', hok, hslabs', hptr, -, hnum, hbits⟩ := hslabs.freeObject hx hused
  exact ⟨_, _, hok, h.update hx hslabs' hptr (fun hc => by simp at hc),
    h.loses hx rfl hptr hnum hused hbits⟩

/-- **`free` takes back an object that is handed out.** -/
theorem free_spec (h : Inv allocs s all avail [])
    (hp : Taken (allocs i) s.infos (all (some i)) p) :
    ∃ s' avail', free allocs s i p = .ok s' ∧ Inv allocs s' all avail' [] ∧
      Loses allocs s s' all i p := by
  obtain ⟨x, hx, idx, hused, rfl⟩ := hp
  have hobj := getObj_mem (s.infos x) hused.1
  have hsize := (allocs i).size_ge
  have hloop : free allocs s i ((s.infos x).getObj idx (allocs i).objectSize) =
      freeObject (allocs i) (some i) s x ((s.infos x).getObj idx (allocs i).objectSize) := by
    refine freeLoop_eq (h.slabs (some i)).chain hx (by omega) (fun y hy hyx => ?_)
      (Nat.lt_succ_of_le (h.length_le (some i)))
    have hap := h.apart_slabs hy hx hyx
    simp only [Block.Apart, slabBlock, config] at hap
    omega
  rw [hloop]
  exact freeObject_spec h hx hused

end Free

/-! ### Counting -/

/-- The loop of `count` adds up the counters. -/
theorem countLoop_eq {c : SlabAlloc} {first : Option ℕ} {slabs : List ℕ} {fuel total free : ℕ}
    (hchain : Chain (fun x => (s.infos x).next) first slabs none) (hfuel : slabs.length < fuel)
    (hle : free + freeSum s.infos slabs ≤ total + slabs.length * c.objectsPerSlab) :
    countLoop c s fuel first total free =
      .ok (total + slabs.length * c.objectsPerSlab - (free + freeSum s.infos slabs),
        total + slabs.length * c.objectsPerSlab) := by
  induction slabs generalizing first fuel total free with
  | nil =>
      obtain ⟨fuel, rfl⟩ : ∃ k, fuel = k + 1 := ⟨fuel - 1, by simp at hfuel; omega⟩
      rw [chain_nil] at hchain
      simp only [freeSum, List.map_nil, List.sum_nil, List.length_nil, Nat.zero_mul,
        Nat.add_zero] at hle ⊢
      rw [hchain, countLoop, ensure_pos hle, ok_bind]
  | cons y slabs ih =>
      obtain ⟨fuel, rfl⟩ : ∃ k, fuel = k + 1 := ⟨fuel - 1, by simp at hfuel; omega⟩
      obtain ⟨rfl, hchain⟩ := hchain
      have hsum : freeSum s.infos (y :: slabs) = (s.infos y).numFree + freeSum s.infos slabs := by
        simp [freeSum]
      have hlen : (y :: slabs).length * c.objectsPerSlab =
          c.objectsPerSlab + slabs.length * c.objectsPerSlab := by
        rw [List.length_cons, Nat.succ_mul, Nat.add_comm]
      rw [hsum, hlen] at hle
      rw [countLoop, ih hchain (by simpa using hfuel) (by omega), hsum, hlen, Nat.add_assoc,
        Nat.add_assoc]

/-- **`count` returns the number of objects that are handed out**, with the `SlabInfo` in each
slab if there is one. -/
theorem count_spec {i : ι} (h : Inv allocs s all avail pending) {n : ℕ}
    (hn : Held (allocs i) s.infos (all (some i)) n) :
    count allocs s i = .ok
      (n + (if (allocs i).ownInfo then (all (some i)).length else 0),
        (all (some i)).length * (allocs i).objectsPerSlab) := by
  rw [Held] at hn
  rw [count, countLoop_eq (h.slabs (some i)).chain
    (Nat.lt_succ_of_le (h.length_le (some i))) (by omega)]
  simp only [Nat.zero_add]
  rw [← hn, Nat.add_right_comm, Nat.add_sub_cancel]

/-! ### Calls -/

section Calls

variable [DecidableEq ι] {sys sys' : System ι} {live : List (ι × ℕ)} {i : ι}

/-- The live objects are those that the allocators have handed out. -/
structure Live (allocs : ι → SlabAlloc) (s : State ι) (all : Option ι → List ℕ)
    (live : List (ι × ℕ)) : Prop where
  nodup : live.Nodup
  mem_iff : ∀ i p, (i, p) ∈ live ↔ Taken (allocs i) s.infos (all (some i)) p
  held : ∀ i, Held (allocs i) s.infos (all (some i)) (live.countP fun o => o.1 = i)

/-- One more object is live. -/
theorem Live.gains (h : Live allocs s all live) (hg : Gains allocs s s' all all' (some i) [p])
    (hnew : ¬ Taken (allocs i) s.infos (all (some i)) p) :
    Live allocs s' all' ((i, p) :: live) := by
  have hothers : ∀ j, j ≠ i → all' (some j) = all (some j) ∧
      ∀ y ∈ all (some j), s'.infos y = s.infos y := fun j hj =>
    hg.others (some j) (fun hc => hj (Option.some.inj hc)) (Option.some_ne_none j)
  refine ⟨List.nodup_cons.mpr ⟨fun hc => hnew ((h.mem_iff i p).mp hc), h.nodup⟩, fun j q => ?_,
    fun j => ?_⟩
  · by_cases hj : j = i
    · subst hj
      have htaken : Taken (allocs j) s'.infos (all' (some j)) q ↔
          Taken (allocs j) s.infos (all (some j)) q ∨ q ∈ [p] := hg.taken q
      rw [htaken, ← h.mem_iff, List.mem_cons, List.mem_singleton, Prod.mk.injEq, or_comm]
      simp
    · obtain ⟨hall, hinfos⟩ := hothers j hj
      rw [hall, taken_congr hinfos, ← h.mem_iff, List.mem_cons, Prod.mk.injEq]
      simp [hj]
  · by_cases hj : j = i
    · subst hj
      rw [List.countP_cons_of_pos (by simp)]
      exact hg.held _ (h.held j)
    · obtain ⟨hall, hinfos⟩ := hothers j hj
      rw [List.countP_cons_of_neg (by simpa using Ne.symm hj), Held, hall, freeSum_congr hinfos]
      exact h.held j

/-- One object less is live. -/
theorem Live.loses (h : Live allocs s all live) (hl : Loses allocs s s' all i p)
    (hp : (i, p) ∈ live) : Live allocs s' all (live.erase (i, p)) := by
  have hothers : ∀ j, j ≠ i → ∀ y ∈ all (some j), s'.infos y = s.infos y := fun j hj =>
    hl.others (some j) fun hc => hj (Option.some.inj hc)
  have hperm := List.perm_cons_erase hp
  refine ⟨h.nodup.erase _, fun j q => ?_, fun j => ?_⟩
  · rw [h.nodup.mem_erase_iff, h.mem_iff, ne_eq, Prod.mk.injEq]
    by_cases hj : j = i
    · subst hj
      rw [hl.taken]
      simp [and_comm]
    · rw [taken_congr (hothers j hj)]
      simp [hj]
  · have hold := h.held j
    rw [hperm.countP_eq] at hold
    by_cases hj : j = i
    · subst hj
      rw [List.countP_cons_of_pos (by simp)] at hold
      exact hl.held _ hold
    · rw [List.countP_cons_of_neg (by simpa using Ne.symm hj)] at hold
      rw [Held, freeSum_congr (hothers j hj)]
      exact hold

/-- The allocators and their callers agree. -/
def SysInv (allocs : ι → SlabAlloc) (sys : System ι) : Prop :=
  ∃ all avail, Inv allocs sys.mem all avail [] ∧ Live allocs sys.mem all sys.live

/-- **A call keeps the invariant and returns.** -/
theorem exec_spec (h : SysInv allocs sys) {op : Op ι} (hv : op.Valid sys) :
    ∃ sys', exec allocs sys op = .ok sys' ∧ SysInv allocs sys' := by
  obtain ⟨all, avail, hinv, hlive⟩ := h
  cases op with
  | alloc i pol =>
      rcases alloc_spec hinv pol i with hnone | ⟨p, s', all', avail', hsome, hinv', hgains, hnew⟩
      · exact ⟨⟨sys.mem, sys.live⟩, by rw [exec, hnone, ok_bind]; rfl, all, avail, hinv, hlive⟩
      · exact ⟨⟨s', (i, p) :: sys.live⟩, by rw [exec, hsome, ok_bind]; rfl, all', avail', hinv',
          hlive.gains hgains hnew⟩
  | free i p =>
      obtain ⟨s', avail', hfree, hinv', hloses⟩ := free_spec hinv ((hlive.mem_iff i p).mp hv)
      exact ⟨⟨s', sys.live.erase (i, p)⟩, by rw [exec, hfree, ok_bind], all, avail', hinv',
        hlive.loses hloses hv⟩

/-! ### Runs -/

/-- A call that gives back only live objects and returns. -/
def Step (allocs : ι → SlabAlloc) (sys : System ι) (op : Op ι) (sys' : System ι) : Prop :=
  op.Valid sys ∧ exec allocs sys op = .ok sys'

/-- The allocators before the first call. Memory may hold anything. -/
def System.init (infos : ℕ → SlabInfo) : System ι := ⟨⟨fun _ => ⟨none, none⟩, infos, []⟩, []⟩

/-- The slabs `all` and, among them, the slabs `avail` with free objects are what the lists of
the allocators hold, and the live objects lie in them. -/
structure Sound (allocs : ι → SlabAlloc) (sys : System ι) (all avail : Option ι → List ℕ) :
    Prop where
  -- the lists of an allocator hold its slabs, each once
  chain : ∀ a, Chain (fun x => (sys.mem.infos x).next) (sys.mem.lists a).first (all a) none
  nodup : ∀ a, (all a).Nodup
  chainFree : ∀ a,
    Chain (fun x => (sys.mem.infos x).nextFree) (sys.mem.lists a).firstFree (avail a) none
  nodupFree : ∀ a, (avail a).Nodup
  avail_iff : ∀ a x, x ∈ avail a ↔ x ∈ all a ∧ 0 < (sys.mem.infos x).numFree
  -- the slabs of the allocators are the live blocks of the page allocator
  mem_blocks : ∀ a, ∀ x ∈ all a, slabBlock allocs sys.mem a x ∈ sys.mem.blocks
  cover : ∀ blk ∈ sys.mem.blocks, ∃ a, ∃ x ∈ all a, slabBlock allocs sys.mem a x = blk
  inj : ∀ a b, ∀ x ∈ all a, ∀ y ∈ all b,
    slabBlock allocs sys.mem a x = slabBlock allocs sys.mem b y → a = b ∧ x = y
  -- the counter and the bitmap of a slab
  numFree_eq : ∀ a, ∀ x ∈ all a, (sys.mem.infos x).numFree = (sys.mem.infos x).free.count
  no_bit : ∀ a, ∀ x ∈ all a, ∀ k, (config allocs a).objectsPerSlab ≤ k → k < 512 →
    (sys.mem.infos x).free.get k = .ok false
  -- the live objects
  inside : ∀ o ∈ sys.live, ∃ x ∈ all (some o.1), (sys.mem.infos x).ptr ≤ o.2 ∧
    o.2 + (allocs o.1).objectSize ≤ (sys.mem.infos x).ptr + (allocs o.1).slabSize
  aligned : ∀ o ∈ sys.live, ∀ k, 2 ^ k ∣ (allocs o.1).objectSize → 2 ^ k < pageSize → 2 ^ k ∣ o.2
  apart : sys.live.Pairwise fun o o' => o.2 + (allocs o.1).objectSize ≤ o'.2 ∨
    o'.2 + (allocs o'.1).objectSize ≤ o.2
  off_info : ∀ o ∈ sys.live, ∀ a, ∀ x ∈ all a,
    o.2 + (allocs o.1).objectSize ≤ x ∨ x + slabInfoSize ≤ o.2
  count : ∀ i, count allocs sys.mem i = .ok
    ((sys.live.countP fun o => o.1 = i) +
        (if (allocs i).ownInfo then (all (some i)).length else 0),
      (all (some i)).length * (allocs i).objectsPerSlab)

/-- Live objects do not overlap. -/
theorem Inv.live_apart (h : Inv allocs s all avail []) (hlive : Live allocs s all live) :
    live.Pairwise fun o o' => o.2 + (allocs o.1).objectSize ≤ o'.2 ∨
      o'.2 + (allocs o'.1).objectSize ≤ o.2 := by
  refine hlive.nodup.imp_of_mem fun {o o'} ho ho' hne => ?_
  obtain ⟨x, hx, j, hj, hp⟩ := (hlive.mem_iff o.1 o.2).mp ho
  obtain ⟨y, hy, k, hk, hq⟩ := (hlive.mem_iff o'.1 o'.2).mp ho'
  rw [hp, hq]
  refine h.objects_apart hx hy hj.1 hk.1 ?_
  rintro ⟨rfl, rfl⟩
  have hfst : o.1 = o'.1 := Option.some.inj (h.owner hx hy)
  refine hne (Prod.ext hfst ?_)
  rw [hp, hq, hfst]

/-- The invariant says that the allocators are sound. -/
theorem SysInv.sound (h : SysInv allocs sys) : ∃ all avail, Sound allocs sys all avail := by
  obtain ⟨all, avail, hinv, hlive⟩ := h
  refine ⟨all, avail, ?_⟩
  have hgood : ∀ a, ∀ x ∈ all a, GoodSlab (config allocs a) x (sys.mem.infos x) := fun a =>
    (hinv.slabs a).good
  have hobj : ∀ o ∈ sys.live, Taken (allocs o.1) sys.mem.infos (all (some o.1)) o.2 := fun o ho =>
    (hlive.mem_iff o.1 o.2).mp ho
  exact {
    chain := fun a => (hinv.slabs a).chain
    nodup := fun a => (hinv.slabs a).chain.nodup
    chainFree := fun a => (hinv.slabs a).chainFree
    nodupFree := fun a => (hinv.slabs a).chainFree.nodup
    avail_iff := fun a x => by
      rw [(hinv.slabs a).avail_iff, Nat.pos_iff_ne_zero]
    mem_blocks := fun a x hx => hinv.mem_blocks hx
    cover := fun blk hblk => (hinv.cover blk hblk).resolve_left (List.not_mem_nil)
    inj := fun a b x hx y hy heq => by
      obtain rfl := hinv.inj hx hy heq
      exact ⟨hinv.owner hx hy, rfl⟩
    numFree_eq := fun a x hx => by
      rw [FixedBitVector.count_eq_card]
      exact (hgood a x hx).numFree_eq
    no_bit := fun a x hx k hk hlt => by
      rw [FixedBitVector.get_of_lt _ hlt]
      refine congrArg Except.ok (eq_false_of_ne_true fun hmem => ?_)
      exact absurd ((hgood a x hx).bound k hmem) (not_lt.mpr hk)
    inside := fun o ho => by
      obtain ⟨x, hx, j, hj, hp⟩ := hobj o ho
      rw [hp]
      exact ⟨x, hx, getObj_mem _ hj.1⟩
    aligned := fun o ho k hk hlt => by
      obtain ⟨x, hx, j, -, hp⟩ := hobj o ho
      have hk12 : k ≤ 12 := ((Nat.pow_lt_pow_iff_right (by decide : 1 < 2)).mp
        (hlt : 2 ^ k < 2 ^ 12)).le
      have hpage : 2 ^ k ∣ pageSize := Nat.pow_dvd_pow 2 hk12
      rw [hp, SlabInfo.getObj]
      exact Nat.dvd_add (hpage.trans (Nat.dvd_of_mod_eq_zero (hgood _ x hx).aligned))
        (hk.mul_left j)
    apart := hinv.live_apart hlive
    off_info := fun o ho a x hx => hinv.off_info (hobj o ho) hx
    count := fun i => count_spec hinv (hlive.held i) }

/-- Before the first call there are no slabs and no objects. -/
theorem sysInv_init (infos : ℕ → SlabInfo) : SysInv allocs (System.init infos) := by
  refine ⟨fun _ => [], fun _ => [], ⟨fun a => ⟨rfl, rfl, by simp, by simp⟩, ?_, ?_, ?_, ?_, ?_, ?_,
    ?_, ?_⟩, List.nodup_nil, fun i p => ?_, fun i => ?_⟩
  all_goals simp [System.init, Taken, Held, freeSum]

/-- Every reached state has the invariant. -/
theorem sysInv_of_runs {infos : ℕ → SlabInfo} {ops : List (Op ι)}
    (h : Runs (Step allocs) (System.init infos) ops sys) : SysInv allocs sys := by
  refine h.invariant (sysInv_init infos) fun sys₁ op sys₂ hinv hstep => ?_
  obtain ⟨sys', hok, hinv'⟩ := exec_spec hinv hstep.1
  obtain rfl : sys₂ = sys' := Except.ok.inj (hstep.2.symm.trans hok)
  exact hinv'

/-- **The slab allocators are sound in every run.** In every state that is reached the lists,
the counters and the bitmaps agree, the live objects lie apart from each other and from every
`SlabInfo`, and `count` counts them. The next call does not panic, and an `alloc` that fails
changes nothing. -/
theorem slabs_sound_of_runs {infos : ℕ → SlabInfo} {ops : List (Op ι)}
    (h : Runs (Step allocs) (System.init infos) ops sys) :
    (∃ all avail, Sound allocs sys all avail) ∧
      (∀ op : Op ι, op.Valid sys → ∃ sys', exec allocs sys op = .ok sys') ∧
      ∀ (i : ι) (pol : PagePolicy) (s' : State ι),
        alloc allocs pol sys.mem i = .ok (none, s') → s' = sys.mem := by
  have hinv := sysInv_of_runs h
  refine ⟨hinv.sound, fun op hv => ?_, fun i pol s' hnone => ?_⟩
  · obtain ⟨sys', hok, -⟩ := exec_spec hinv hv
    exact ⟨sys', hok⟩
  · obtain ⟨all, avail, hinv, -⟩ := hinv
    rcases alloc_spec hinv pol i with hsame | ⟨p, s₁, all', avail', hsome, -⟩
    · exact (Prod.mk.inj (Except.ok.inj (hnone.symm.trans hsame))).2
    · exact absurd (Prod.mk.inj (Except.ok.inj (hnone.symm.trans hsome))).1 (by simp)

end Calls

/-- The page after the sum of all ends is past every block. -/
theorem le_nextPage {blocks : List Block} {b : Block} (hb : b ∈ blocks) : b.start + b.size ≤
    ((blocks.map fun b => b.start + b.size).sum + pageSize) / pageSize * pageSize := by
  have hle : b.start + b.size ≤ (blocks.map fun b => b.start + b.size).sum :=
    List.single_le_sum (fun _ _ => Nat.zero_le _) _ (List.mem_map.mpr ⟨b, hb, rfl⟩)
  simp only [pageSize]
  omega

/-- The page allocator of the example hands out pages past all live blocks. -/
def bumpPages : PagePolicy where
  choose blocks _ :=
    some (((blocks.map fun b => b.start + b.size).sum + pageSize) / pageSize * pageSize)
  aligned h := Option.some.inj h ▸ Nat.mul_mod_left _ _
  apart h _ hb := .inr (Option.some.inj h ▸ le_nextPage hb)

/-- An allocator that keeps its `SlabInfo`s elsewhere, and one that keeps them in its slabs. -/
def twoAllocs : Bool → SlabAlloc
  | false => ⟨2048, false, by decide, by decide, by decide, by decide⟩
  | true => ⟨128, true, by decide, by decide, by decide, by decide⟩

/-- Memory before the first call. -/
def blank : ℕ → SlabInfo := fun _ => ⟨0, none, none, 0, FixedBitVector.new 512 false⟩

/-- The state after a call. -/
def after (sys : System Bool) (op : Op Bool) : System Bool :=
  (exec twoAllocs sys op).toOption.getD sys

/-- An operation of the example that returns is a step. -/
theorem step_after {sys : System Bool} (op : Op Bool) (hv : op.Valid sys)
    (hok : (exec twoAllocs sys op).isOk = true) : Step twoAllocs sys op (after sys op) :=
  ⟨hv, eq_ok_of_isOk hok sys⟩

/-- Some calls to two allocators, after which two objects of three are left. -/
theorem slabs_sound_of_runs_two :
    ∃ sys, Runs (Step twoAllocs) (System.init blank)
        [.alloc false bumpPages, .alloc true bumpPages, .alloc false bumpPages,
          .free false 4096] sys ∧
      sys.live = [(false, 6144), (true, 53376)] ∧
      ∃ all avail, Sound twoAllocs sys all avail := by
  have hrun : Runs (Step twoAllocs) (System.init blank) _ _ :=
    Runs.cons (step_after (.alloc false bumpPages) trivial (by decide +kernel))
      (Runs.cons (step_after (.alloc true bumpPages) trivial (by decide +kernel))
        (Runs.cons (step_after (.alloc false bumpPages) trivial (by decide +kernel))
          (Runs.cons (step_after (.free false 4096) (by decide +kernel) (by decide +kernel))
            Runs.refl)))
  exact ⟨_, hrun, by decide +kernel, (slabs_sound_of_runs hrun).1⟩

end HydroxKernel.Slab
