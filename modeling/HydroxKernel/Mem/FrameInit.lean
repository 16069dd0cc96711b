import HydroxKernel.Lib.Assert
import HydroxKernel.Mem.Frame
import Mathlib.Data.List.Count
import Mathlib.Data.List.Flatten

/-!
# Frames from the Memory Map

At boot, the frames of the free regions of the memory map are given to the frame allocator, and the
frames of all usable regions are counted. From then on, the frames that the allocator has and those
that it has handed out are the ones that it was given.

The memory map and the types of its regions come from the boot loader. A region is given by the
numbers of its first frame and of the one behind its last one.

## Main results

* `init_spec`: what the allocator has after `init`.
* `Owned.exec`: what one operation preserves.
* `frame_ownership`: from boot on, every free frame is either with the allocator or handed out
  once, and the allocator writes to no frame that is handed out.
-/

namespace HydroxKernel.Frame

/-- `MemoryRegionType`. The types that are not free and not usable are `other`. -/
inductive MemoryRegionType
  | usable
  | inUse
  | acpiReclaimable
  | kernel
  | kernelStack
  | pageTable
  | bootloader
  | bootInfo
  | package
  | other (code : ℕ)
  deriving DecidableEq

/-- `MemoryRegion`, with its `FrameRange`. -/
structure MemoryRegion where
  startFrameNumber : ℕ
  endFrameNumber : ℕ
  regionType : MemoryRegionType

/-- The panics of `init`. -/
inductive InitPanic
  | frame (why : Panic)
  /-- An arithmetic overflow. -/
  | overflow
  /-- `PhysAddr::new` of an address with more than 52 bits. -/
  | physAddr
  deriving DecidableEq

/-- `is_free`. -/
def isFree : MemoryRegionType → Bool
  | .usable => true
  | .bootloader => true
  | _ => false

/-- `is_usable`. -/
def isUsable : MemoryRegionType → Bool
  | .usable => true
  | .inUse => true
  | .acpiReclaimable => true
  | .kernel => true
  | .kernelStack => true
  | .pageTable => true
  | .bootloader => true
  | .bootInfo => true
  | .package => true
  | .other _ => false

/-- The address of a frame. -/
def frameAddr (frameN : ℕ) : Except InitPanic ℕ := do
  ensure (frameN * pageSize < 2 ^ 64) .overflow
  ensure (frameN * pageSize < 2 ^ 52) .physAddr
  return frameN * pageSize

/-- The loop of `init` over the frames of a region that is free. -/
def freeRegion (s : State) (region : MemoryRegion) : Except InitPanic State :=
  (List.range' region.startFrameNumber (region.endFrameNumber - region.startFrameNumber)).foldlM
    (fun s frameN => do
      let frame ← frameAddr frameN
      (freeOne s frame).mapError .frame) s

/-- The frames of a region that is usable are counted. -/
def countRegion (numFrames : ℕ) (region : MemoryRegion) : Except InitPanic ℕ := do
  ensure (region.startFrameNumber ≤ region.endFrameNumber) .overflow
  let numFrames := numFrames + (region.endFrameNumber - region.startFrameNumber)
  ensure (numFrames < 2 ^ 64) .overflow
  return numFrames

/-- The body of the loop of `init`. -/
def initRegion (v : ℕ × State) (region : MemoryRegion) : Except InitPanic (ℕ × State) := do
  let s ← (if isFree region.regionType then freeRegion v.2 region else .ok v.2)
  let numFrames ← (if isUsable region.regionType then countRegion v.1 region else .ok v.1)
  return (numFrames, s)

/-- `frame::init`: the total number of frames, and the allocator. -/
def init (memoryMap : List MemoryRegion) (s : State) : Except InitPanic (ℕ × State) :=
  memoryMap.foldlM initRegion (0, s)

/-! ### The frames of the memory map -/

/-- The frames of a region. -/
def framesOf (region : MemoryRegion) : List ℕ :=
  (List.range' region.startFrameNumber (region.endFrameNumber - region.startFrameNumber)).map
    (· * pageSize)

/-- The frames of the regions of some types. -/
def framesWith (p : MemoryRegionType → Bool) (memoryMap : List MemoryRegion) : List ℕ :=
  (memoryMap.filter fun region => p region.regionType).flatMap framesOf

/-- The usable regions of the memory map do not overlap, and lie in the physical memory, whose
addresses have 52 bits. -/
structure WellFormed (memoryMap : List MemoryRegion) : Prop where
  bounded : ∀ region ∈ memoryMap, isUsable region.regionType = true →
    region.startFrameNumber ≤ region.endFrameNumber ∧ region.endFrameNumber ≤ 2 ^ 40
  disjoint : (memoryMap.filter fun region => isUsable region.regionType).Pairwise fun a b =>
    a.endFrameNumber ≤ b.startFrameNumber ∨ b.endFrameNumber ≤ a.startFrameNumber

/-- A region that is free is usable. -/
theorem isUsable_of_isFree {t : MemoryRegionType} (h : isFree t = true) : isUsable t = true := by
  cases t <;> first | rfl | cases h

/-- The frames of a region, by their numbers. -/
theorem mem_framesOf {region : MemoryRegion} {f : ℕ} :
    f ∈ framesOf region ↔ ∃ n, region.startFrameNumber ≤ n ∧ n < region.endFrameNumber ∧
      n * pageSize = f := by
  rw [framesOf, List.mem_map]
  constructor
  · rintro ⟨n, hn, rfl⟩
    obtain ⟨hle, hlt⟩ := List.mem_range'_1.mp hn
    exact ⟨n, hle, by omega, rfl⟩
  · rintro ⟨n, hle, hlt, rfl⟩
    exact ⟨n, List.mem_range'_1.mpr ⟨hle, by omega⟩, rfl⟩

/-- Frames are aligned. -/
theorem mod_pageSize_of_mem {p : MemoryRegionType → Bool} {memoryMap : List MemoryRegion} {f : ℕ}
    (h : f ∈ framesWith p memoryMap) : f % pageSize = 0 := by
  obtain ⟨region, -, hf⟩ := List.mem_flatMap.mp h
  obtain ⟨n, -, -, rfl⟩ := mem_framesOf.mp hf
  exact Nat.mul_mod_left n pageSize

/-- The number of a frame is determined by its address. -/
theorem mul_pageSize_inj {m n : ℕ} (h : m * pageSize = n * pageSize) : m = n :=
  Nat.eq_of_mul_eq_mul_right (by decide) h

/-- Every usable frame is in one region only. -/
theorem WellFormed.nodup_usable {memoryMap : List MemoryRegion} (h : WellFormed memoryMap) :
    (framesWith isUsable memoryMap).Nodup := by
  refine List.nodup_flatMap.mpr ⟨fun region _ => ?_, h.disjoint.imp fun hab f hfa hfb => ?_⟩
  · exact List.Nodup.map (fun m n hmn => mul_pageSize_inj hmn) (List.nodup_range' ..)
  · obtain ⟨m, hle, hlt, rfl⟩ := mem_framesOf.mp hfa
    obtain ⟨n, hle', hlt', heq⟩ := mem_framesOf.mp hfb
    obtain rfl := mul_pageSize_inj heq
    omega

/-- The free frames are among the usable ones. -/
theorem free_sublist (memoryMap : List MemoryRegion) :
    (framesWith isFree memoryMap).Sublist (framesWith isUsable memoryMap) := by
  refine List.Sublist.flatMap ?_ _
  have hfilter : memoryMap.filter (fun region => isFree region.regionType) =
      (memoryMap.filter fun region => isUsable region.regionType).filter
        fun region => isFree region.regionType := by
    rw [List.filter_filter]
    refine List.filter_congr fun region _ => ?_
    cases hfree : isFree region.regionType with
    | false => rfl
    | true => rw [isUsable_of_isFree hfree]; rfl
  rw [hfilter]
  exact List.filter_sublist

/-! ### Initialization -/

variable {s s' : State} {fs : List ℕ}

/-- A frame of the physical memory has an address. -/
theorem frameAddr_eq {n : ℕ} (h : n < 2 ^ 40) : frameAddr n = .ok (n * pageSize) := by
  have hlt : n * pageSize < 2 ^ 52 := by
    rw [pageSize]
    omega
  rw [frameAddr, ensure_pos (by omega), ok_bind, ensure_pos hlt]
  rfl

/-- The loop over the frames of a region frees them one after another. -/
theorem freeRegion_eq {ns : List ℕ} (h : ∀ n ∈ ns, n < 2 ^ 40) (s : State) :
    ns.foldlM (fun s frameN => do
      let frame ← frameAddr frameN
      (freeOne s frame).mapError InitPanic.frame) s =
      (freeMany s (ns.map (· * pageSize))).mapError .frame := by
  induction ns generalizing s with
  | nil => rfl
  | cons n ns ih =>
      obtain ⟨hn, hns⟩ := List.forall_mem_cons.mp h
      rw [List.foldlM_cons, frameAddr_eq hn, ok_bind, List.map_cons, freeMany]
      cases freeOne s (n * pageSize) with
      | error why => rfl
      | ok s₁ => exact ih hns s₁

/-- **A region that is free** is given to the allocator. -/
theorem freeRegion_spec (hs : Represents s fs) {region : MemoryRegion}
    (hbound : region.endFrameNumber ≤ 2 ^ 40) (hnodup : (fs ++ framesOf region).Nodup) :
    ∃ s', freeRegion s region = .ok s' ∧ Represents s' (fs ++ framesOf region) := by
  obtain ⟨-, hframes, hdisjoint⟩ := List.nodup_append.mp hnodup
  have haligned : ∀ f ∈ framesOf region, f % pageSize = 0 := by
    intro f hf
    obtain ⟨n, -, -, rfl⟩ := mem_framesOf.mp hf
    exact Nat.mul_mod_left n pageSize
  obtain ⟨s', hfree, hs'⟩ := freeMany_represents hs haligned
    (fun f hf hmem => hdisjoint f hmem f hf rfl) hframes
  refine ⟨s', ?_, hs'⟩
  rw [freeRegion, freeRegion_eq fun n hn => ?_]
  · rw [framesOf] at hfree
    rw [hfree]
    rfl
  · obtain ⟨hle, hlt⟩ := List.mem_range'_1.mp hn
    omega

/-- The frames of the regions of some types, region by region. -/
theorem framesWith_cons (p : MemoryRegionType → Bool) (region : MemoryRegion)
    (memoryMap : List MemoryRegion) :
    framesWith p (region :: memoryMap) =
      (if p region.regionType then framesOf region else []) ++ framesWith p memoryMap := by
  rw [framesWith, List.filter_cons]
  split
  · rw [List.flatMap_cons]
    rfl
  · rfl

/-- **A region** is given to the allocator if it is free, and counted if it is usable. -/
theorem initRegion_spec (hs : Represents s fs) {region : MemoryRegion} {num : ℕ}
    (hbound : isUsable region.regionType = true →
      region.startFrameNumber ≤ region.endFrameNumber ∧ region.endFrameNumber ≤ 2 ^ 40)
    (hnodup : (fs ++ if isFree region.regionType then framesOf region else []).Nodup)
    (hnum : num + (if isUsable region.regionType then framesOf region else []).length < 2 ^ 64) :
    ∃ s', initRegion (num, s) region =
        .ok (num + (if isUsable region.regionType then framesOf region else []).length, s') ∧
      Represents s' (fs ++ if isFree region.regionType then framesOf region else []) := by
  have hcount : (if isUsable region.regionType then countRegion num region else .ok num) =
      Except.ok (num + (if isUsable region.regionType then framesOf region else []).length) := by
    by_cases husable : isUsable region.regionType = true
    · have hlength : (framesOf region).length =
          region.endFrameNumber - region.startFrameNumber := by
        rw [framesOf, List.length_map, List.length_range']
      rw [if_pos husable] at hnum
      rw [if_pos husable, if_pos husable, countRegion, ensure_pos (hbound husable).1, ok_bind]
      dsimp only
      rw [← hlength, ensure_pos hnum]
      rfl
    · rw [if_neg husable, if_neg husable]
      rfl
  rw [initRegion, hcount]
  by_cases hfree : isFree region.regionType = true
  · rw [if_pos hfree] at hnodup
    obtain ⟨s', hregion, hs'⟩ :=
      freeRegion_spec hs (hbound (isUsable_of_isFree hfree)).2 hnodup
    rw [if_pos hfree, if_pos hfree, hregion]
    exact ⟨s', rfl, hs'⟩
  · rw [if_neg hfree, if_neg hfree, List.append_nil]
    exact ⟨s, rfl, hs⟩

/-- The loop over the regions. -/
theorem init_loop {memoryMap : List MemoryRegion} {num : ℕ} (hs : Represents s fs)
    (hbound : ∀ region ∈ memoryMap, isUsable region.regionType = true →
      region.startFrameNumber ≤ region.endFrameNumber ∧ region.endFrameNumber ≤ 2 ^ 40)
    (hnodup : (fs ++ framesWith isFree memoryMap).Nodup)
    (hnum : num + (framesWith isUsable memoryMap).length < 2 ^ 64) :
    ∃ s', memoryMap.foldlM initRegion (num, s) =
        .ok (num + (framesWith isUsable memoryMap).length, s') ∧
      Represents s' (fs ++ framesWith isFree memoryMap) := by
  induction memoryMap generalizing s fs num with
  | nil =>
      refine ⟨s, rfl, ?_⟩
      rw [show framesWith isFree [] = [] from rfl, List.append_nil]
      exact hs
  | cons region memoryMap ih =>
      obtain ⟨hregion, hrest⟩ := List.forall_mem_cons.mp hbound
      rw [framesWith_cons, ← List.append_assoc] at hnodup
      rw [framesWith_cons, List.length_append, ← Nat.add_assoc] at hnum
      obtain ⟨s₁, hfirst, hs₁⟩ := initRegion_spec hs hregion
        (List.nodup_append.mp hnodup).1 (Nat.lt_of_le_of_lt (Nat.le_add_right _ _) hnum)
      obtain ⟨s', hloop, hs'⟩ := ih hs₁ hrest hnodup hnum
      refine ⟨s', ?_, ?_⟩
      · rw [List.foldlM_cons, hfirst, ok_bind, hloop, framesWith_cons, List.length_append,
          Nat.add_assoc]
      · rw [framesWith_cons, ← List.append_assoc]
        exact hs'

/-- There are fewer usable frames than addresses. -/
theorem WellFormed.length_usable_lt {memoryMap : List MemoryRegion} (h : WellFormed memoryMap) :
    (framesWith isUsable memoryMap).length < 2 ^ 64 := by
  have hsubset : framesWith isUsable memoryMap ⊆ (List.range (2 ^ 40)).map (· * pageSize) := by
    intro f hf
    obtain ⟨region, hregion, hf⟩ := List.mem_flatMap.mp hf
    obtain ⟨hmem, husable⟩ := List.mem_filter.mp hregion
    obtain ⟨n, -, hlt, rfl⟩ := mem_framesOf.mp hf
    exact List.mem_map.mpr ⟨n, List.mem_range.mpr (Nat.lt_of_lt_of_le hlt
      (h.bounded region hmem husable).2), rfl⟩
  have hle := h.nodup_usable.length_le_of_subset hsubset
  rw [List.length_map, List.length_range] at hle
  omega

/-- **Initialization**: the allocator has the frames of the free regions, and those of the usable
ones are counted. -/
theorem init_spec {memoryMap : List MemoryRegion} (h : WellFormed memoryMap) (mem : ℕ → ℕ) :
    ∃ s, init memoryMap ⟨.new, mem⟩ = .ok ((framesWith isUsable memoryMap).length, s) ∧
      Represents s (framesWith isFree memoryMap) := by
  have hnodup : ([] ++ framesWith isFree memoryMap).Nodup :=
    h.nodup_usable.sublist (free_sublist memoryMap)
  have hnum : 0 + (framesWith isUsable memoryMap).length < 2 ^ 64 := by
    rw [Nat.zero_add]
    exact h.length_usable_lt
  obtain ⟨s, hinit, hs⟩ := init_loop (represents_new mem) h.bounded hnodup hnum
  rw [Nat.zero_add] at hinit
  exact ⟨s, hinit, hs⟩

/-! ### What the allocator writes -/

/-- The two memories are the same outside the frames. -/
def SameOutside (fs : List ℕ) (mem mem' : ℕ → ℕ) : Prop :=
  ∀ a, (∀ f ∈ fs, ¬ (f ≤ a ∧ a < f + pageSize)) → mem' a = mem a

/-- A write to an entry of a frame. -/
theorem sameOutside_update {mem : ℕ → ℕ} {page i v : ℕ} (hpage : page ∈ fs) (hi : i < 512) :
    SameOutside fs mem (Function.update mem (slot page i) v) := by
  intro a ha
  refine Function.update_of_ne ?_ v mem
  rintro rfl
  refine ha page hpage ⟨Nat.le_add_right _ _, ?_⟩
  rw [slot, pageSize]
  omega

/-- The page on top is one of the frames. -/
theorem Represents.top_mem (hs : Represents s fs) {top : ℕ} (htop : s.alloc.stackTop = some top) :
    top ∈ fs := by
  rw [hs.top] at htop
  split at htop
  · cases htop
  · exact List.mem_of_getElem? htop

/-- **A frame that is freed** is where the allocator writes, or one that it has is. -/
theorem freeOne_mem (hs : Represents s fs) {frame : ℕ} (h : freeOne s frame = .ok s') :
    SameOutside (fs ++ [frame]) s.mem s'.mem := by
  have hframe : frame ∈ fs ++ [frame] := List.mem_concat_self
  unfold freeOne at h
  split at h
  · obtain rfl := Except.ok.inj h
    exact sameOutside_update hframe (by decide)
  case isFalse hne =>
    have hnil : fs ≠ [] := by
      rintro rfl
      exact hne hs.num
    rw [framesOnTopStackFrame_eq hs hnil] at h
    cases htop : s.alloc.stackTop with
    | none =>
        rw [htop] at h
        cases h
    | some top =>
        rw [htop] at h
        change (if (fs.length - 1) % 512 + 1 = numFramesPerPage then _ else _) = _ at h
        split at h
        · obtain rfl := Except.ok.inj h
          exact sameOutside_update hframe (by decide)
        case isFalse hi =>
          obtain rfl := Except.ok.inj h
          refine sameOutside_update (List.mem_append_left _ (hs.top_mem htop)) ?_
          have hmod : (fs.length - 1) % 512 < 512 := Nat.mod_lt _ (by decide)
          change (fs.length - 1) % 512 + 1 ≠ 512 at hi
          omega

/-- Freeing several frames. -/
theorem freeMany_mem {frames : List ℕ} (hs : Represents s fs)
    (haligned : ∀ f ∈ frames, f % pageSize = 0) (hnodup : (fs ++ frames).Nodup)
    (h : freeMany s frames = .ok s') : SameOutside (fs ++ frames) s.mem s'.mem := by
  induction frames generalizing s fs with
  | nil =>
      obtain rfl := Except.ok.inj h
      exact fun a _ => rfl
  | cons frame frames ih =>
      obtain ⟨hframe, hrest⟩ := List.forall_mem_cons.mp haligned
      obtain ⟨s₁, hfirst, h⟩ := bind_eq_ok.mp h
      rw [List.append_cons] at hnodup ⊢
      have hnew : frame ∉ fs := fun hmem =>
        (List.nodup_append.mp (List.nodup_append.mp hnodup).1).2.2 frame hmem frame
          (List.mem_singleton_self _) rfl
      obtain ⟨s₁', hfirst', hs₁⟩ := freeOne_represents hs hframe hnew
      obtain rfl := Except.ok.inj (hfirst.symm.trans hfirst')
      have hsame := ih hs₁ hrest hnodup h
      intro a ha
      rw [hsame a ha]
      exact freeOne_mem hs hfirst a fun f hf => ha f (List.mem_append_left _ hf)

/-- A frame that is taken leaves the memory. -/
theorem allocOne_mem {r : Option ℕ} (h : allocOne s = .ok (r, s')) : s'.mem = s.mem := by
  unfold allocOne at h
  split at h
  · obtain ⟨-, rfl⟩ := Prod.mk.inj (Except.ok.inj h)
    rfl
  · obtain ⟨i, -, h⟩ := bind_eq_ok.mp h
    obtain ⟨top, -, h⟩ := bind_eq_ok.mp h
    split at h
    all_goals
      obtain ⟨-, rfl⟩ := Prod.mk.inj (Except.ok.inj h)
      rfl

/-- So do several frames. -/
theorem allocManyLoop_mem {k : ℕ} {r : List ℕ} (h : allocManyLoop s k = .ok (r, s')) :
    s'.mem = s.mem := by
  induction k generalizing s r with
  | zero =>
      obtain ⟨-, rfl⟩ := Prod.mk.inj (Except.ok.inj h)
      rfl
  | succ k ih =>
      obtain ⟨⟨frame, s₁⟩, hfirst, h⟩ := bind_eq_ok.mp h
      obtain ⟨frame', -, h⟩ := bind_eq_ok.mp h
      obtain ⟨⟨frames, s₂⟩, hrest, h⟩ := bind_eq_ok.mp h
      obtain ⟨-, rfl⟩ := Prod.mk.inj (Except.ok.inj h)
      rw [ih hrest, allocOne_mem hfirst]

/-- **An operation of the allocator** writes only to frames that it has afterwards. -/
theorem exec_mem {stk : List ℕ} (hs : Represents s stk.reverse) {op : Op}
    (hop : Permitted stk op) (hwrite : ∀ a v, op ≠ .write a v) {r : Result}
    (h : exec s op = .ok (r, s')) : SameOutside (stackExec stk op).2 s.mem s'.mem := by
  cases op with
  | freeOne frame =>
      obtain ⟨s₁, hfree, h⟩ := bind_eq_ok.mp h
      obtain ⟨-, rfl⟩ := Prod.mk.inj (Except.ok.inj h)
      intro a ha
      refine freeOne_mem hs hfree a fun f hf => ha f ?_
      rcases List.mem_append.mp hf with hf | hf
      · exact List.mem_cons_of_mem _ (List.mem_reverse.mp hf)
      · rw [List.mem_singleton.mp hf]
        exact List.mem_cons_self
  | freeMany frames =>
      obtain ⟨s₁, hfree, h⟩ := bind_eq_ok.mp h
      obtain ⟨-, rfl⟩ := Prod.mk.inj (Except.ok.inj h)
      have hnodup : (stk.reverse ++ frames).Nodup := List.nodup_append.mpr ⟨hs.nodup, hop.2,
        fun f hf g hg heq => (hop.1 g hg).2 (List.mem_reverse.mp (heq ▸ hf))⟩
      intro a ha
      refine freeMany_mem hs (fun f hf => (hop.1 f hf).1) hnodup hfree a fun f hf => ha f ?_
      rcases List.mem_append.mp hf with hf | hf
      · exact List.mem_append_right _ (List.mem_reverse.mp hf)
      · exact List.mem_append_left _ (List.mem_reverse.mpr hf)
  | allocOne =>
      obtain ⟨⟨frame, s₁⟩, halloc, h⟩ := bind_eq_ok.mp h
      obtain ⟨-, rfl⟩ := Prod.mk.inj (Except.ok.inj h)
      rw [allocOne_mem halloc]
      exact fun a _ => rfl
  | allocMany k =>
      obtain ⟨⟨frames, s₁⟩, halloc, h⟩ := bind_eq_ok.mp h
      obtain ⟨-, rfl⟩ := Prod.mk.inj (Except.ok.inj h)
      unfold allocMany at halloc
      split at halloc
      · obtain ⟨-, rfl⟩ := Prod.mk.inj (Except.ok.inj halloc)
        exact fun a _ => rfl
      · obtain ⟨⟨frames', s₂⟩, hloop, halloc⟩ := bind_eq_ok.mp halloc
        obtain ⟨-, rfl⟩ := Prod.mk.inj (Except.ok.inj halloc)
        rw [allocManyLoop_mem hloop]
        exact fun a _ => rfl
  | write addr val => exact absurd rfl (hwrite addr val)

/-! ### Ownership -/

/-- What the callers do: they free frames that they were handed, and write to no frame that the
allocator was given unless they have it. -/
def Owns (frames live : List ℕ) : Op → Prop
  | .freeOne frame => frame ∈ live
  | .freeMany fs => fs.Nodup ∧ ∀ f ∈ fs, f ∈ live
  | .allocOne => True
  | .allocMany _ => True
  | .write addr _ => ∀ f ∈ frames, f ≤ addr ∧ addr < f + pageSize → f ∈ live

/-- The frames that are handed out after an operation. -/
def liveAfter (live : List ℕ) (r : Result) : Op → List ℕ
  | .freeOne frame => live.erase frame
  | .freeMany fs => live.diff fs
  | _ => live ++ r.handedOut

/-- An operation on the allocator, with the frames that are handed out. -/
def OwnStep (frames : List ℕ) (c : State × List ℕ) (op : Op) (c' : State × List ℕ) : Prop :=
  Owns frames c.2 op ∧ ∃ r, exec c.1 op = .ok (r, c'.1) ∧ c'.2 = liveAfter c.2 r op

/-- The frames are with the allocator, or handed out, each in one place. -/
structure Owned (frames : List ℕ) (c : State × List ℕ) (stk : List ℕ) : Prop where
  represents : Represents c.1 stk.reverse
  perm : (c.2 ++ stk).Perm frames
  nodup : frames.Nodup
  aligned : ∀ f ∈ frames, f % pageSize = 0

variable {frames live stk : List ℕ} {c c' : State × List ℕ}

/-- A frame that is handed out is not with the allocator. -/
theorem Owned.notMem (h : Owned frames c stk) {f : ℕ} (hf : f ∈ c.2) : f ∉ stk := by
  intro hstk
  exact (List.nodup_append.mp (h.perm.nodup_iff.mpr h.nodup)).2.2 f hf f hstk rfl

/-- A frame that is handed out is one of the frames. -/
theorem Owned.aligned_of_live (h : Owned frames c stk) {f : ℕ} (hf : f ∈ c.2) :
    f % pageSize = 0 :=
  h.aligned f (h.perm.mem_iff.mp (List.mem_append_left _ hf))

/-- What the callers do is what the allocator permits. -/
theorem Owned.permitted (h : Owned frames c stk) {op : Op} (hop : Owns frames c.2 op) :
    Permitted stk op := by
  cases op with
  | freeOne frame => exact ⟨h.aligned_of_live hop, h.notMem hop⟩
  | freeMany fs =>
      exact ⟨fun f hf => ⟨h.aligned_of_live (hop.2 f hf), h.notMem (hop.2 f hf)⟩, hop.1⟩
  | allocOne => trivial
  | allocMany k => trivial
  | write addr val =>
      intro f hf hin
      have hmem : f ∈ frames := h.perm.mem_iff.mp (List.mem_append_right _ hf)
      exact h.notMem (hop f hmem hin) hf

/-- The frames after an operation are those before it. -/
theorem perm_liveAfter {op : Op} (hop : Owns frames live op) :
    (liveAfter live (stackExec stk op).1 op ++ (stackExec stk op).2).Perm (live ++ stk) := by
  cases op with
  | freeOne frame =>
      refine List.perm_middle.trans ?_
      exact (List.perm_cons_erase hop).symm.append_right stk
  | freeMany fs =>
      have hdiff : (fs ++ live.diff fs).Perm live := by
        refine List.subperm_append_diff_self_of_count_le fun f hf => ?_
        rw [List.count_eq_one_of_mem hop.1 hf]
        exact List.count_pos_iff.mpr (hop.2 f hf)
      have hswap : (live.diff fs ++ (fs.reverse ++ stk)).Perm (fs ++ live.diff fs ++ stk) := by
        rw [← List.append_assoc]
        exact ((List.reverse_perm fs).append_left _ |>.trans List.perm_append_comm).append_right stk
      exact hswap.trans (hdiff.append_right stk)
  | allocOne =>
      cases stk with
      | nil =>
          change (live ++ [] ++ []).Perm (live ++ [])
          rw [List.append_nil]
      | cons f stk =>
          change (live ++ [f] ++ stk).Perm (live ++ f :: stk)
          rw [List.append_assoc, List.singleton_append]
  | allocMany k =>
      rw [stackExec]
      split
      · change (live ++ [] ++ stk).Perm (live ++ stk)
        rw [List.append_nil]
      · change (live ++ stk.take k ++ stk.drop k).Perm (live ++ stk)
        rw [List.append_assoc, List.take_append_drop]
  | write addr val =>
      change (live ++ [] ++ stk).Perm (live ++ stk)
      rw [List.append_nil]

/-- **An operation** keeps every frame in one place, does not panic, and writes to no frame that is
handed out afterwards. -/
theorem Owned.exec (h : Owned frames c stk) {op : Op} (hop : Owns frames c.2 op) :
    ∃ s', Frame.exec c.1 op = .ok ((stackExec stk op).1, s') ∧
      Owned frames (s', liveAfter c.2 (stackExec stk op).1 op) (stackExec stk op).2 ∧
      ((∀ a v, op ≠ .write a v) → SameOutside (stackExec stk op).2 c.1.mem s'.mem) := by
  have hpermitted := h.permitted hop
  obtain ⟨s', hexec, hs'⟩ := exec_represents h.represents hpermitted
  exact ⟨s', hexec, ⟨hs', (perm_liveAfter hop).trans h.perm, h.nodup, h.aligned⟩,
    fun hwrite => exec_mem h.represents hpermitted hwrite hexec⟩

/-- A run keeps every frame in one place. -/
theorem Owned.runs (h : Owned frames c stk) {ops : List Op}
    (hruns : Runs (OwnStep frames) c ops c') : ∃ stk', Owned frames c' stk' := by
  refine hruns.invariant (P := fun c => ∃ stk, Owned frames c stk) ⟨stk, h⟩ ?_
  rintro ⟨s, live⟩ op ⟨s', live'⟩ ⟨stk, h⟩ ⟨hop, r, hexec, hlive⟩
  obtain ⟨s'', hexec', hs'', -⟩ := h.exec hop
  obtain ⟨rfl, rfl⟩ := Prod.mk.inj (Except.ok.inj (hexec'.symm.trans hexec))
  dsimp only at hlive
  subst hlive
  exact ⟨_, hs''⟩

/-- What holds of the frames in a state, given those that are handed out. -/
structure FramesOwned (frames : List ℕ) (s : State) (live : List ℕ) : Prop where
  /-- The frames are those that are handed out and as many others as the allocator has. -/
  kept : ∃ free, (live ++ free).Perm frames ∧ s.alloc.numFramesAvailable = free.length
  /-- No operation panics, and what is handed out was not handed out before. -/
  returns : ∀ op, Owns frames live op → ∃ r s', exec s op = .ok (r, s') ∧
    r.handedOut.Nodup ∧ ∀ f ∈ r.handedOut, f ∈ frames ∧ f ∉ live
  /-- One frame is handed out, unless all are. -/
  exhausted : (∃ s', exec s .allocOne = .ok (.frame none, s')) ↔ live.Perm frames
  /-- Several frames are handed out at once, unless too few are left; then nothing changes. -/
  many : ∀ k,
    (frames.length < live.length + k → exec s (.allocMany k) = .ok (.frames none, s)) ∧
    (live.length + k ≤ frames.length → ∃ fs s',
      exec s (.allocMany k) = .ok (.frames (some fs), s') ∧ fs.length = k)
  /-- The allocator does not write to a frame that is handed out. -/
  untouched : ∀ op, Owns frames live op → (∀ a v, op ≠ .write a v) → ∀ r s',
    exec s op = .ok (r, s') → ∀ f ∈ liveAfter live r op, ∀ a, f ≤ a → a < f + pageSize →
      s'.mem a = s.mem a

/-- What an operation hands out was with the allocator. -/
theorem handedOut_sublist (stk : List ℕ) (op : Op) :
    (stackExec stk op).1.handedOut.Sublist stk := by
  cases op with
  | allocOne =>
      cases stk with
      | nil => exact List.nil_sublist _
      | cons f stk => exact List.Sublist.cons_cons f (List.nil_sublist stk)
  | allocMany k =>
      rw [stackExec]
      split
      · exact List.nil_sublist _
      · exact List.take_sublist k stk
  | freeOne frame => exact List.nil_sublist _
  | freeMany fs => exact List.nil_sublist _
  | write addr val => exact List.nil_sublist _

/-- Two aligned frames that overlap are one. -/
theorem eq_of_overlap {f g a : ℕ} (hf : f % pageSize = 0) (hg : g % pageSize = 0) (hfa : f ≤ a)
    (haf : a < f + pageSize) (hga : g ≤ a) (hag : a < g + pageSize) : f = g := by
  rw [pageSize] at *
  omega

/-- One frame is handed out, unless all are. -/
theorem Owned.allocOne_none_iff {s : State} (h : Owned frames (s, live) stk) :
    (∃ s', Frame.exec s .allocOne = .ok (.frame none, s')) ↔ live.Perm frames := by
  have howns : Owns frames live .allocOne := trivial
  obtain ⟨s', hexec, -⟩ := h.exec howns
  constructor
  · rintro ⟨s'', hnone⟩
    obtain ⟨hr, -⟩ := Prod.mk.inj (Except.ok.inj (hexec.symm.trans hnone))
    have hstk : stk = [] := List.head?_eq_none_iff.mp (Result.frame.inj hr)
    have hperm := h.perm
    rw [hstk, List.append_nil] at hperm
    exact hperm
  · intro hperm
    have hlength := (hperm.trans h.perm.symm).length_eq
    have hstk : stk = [] := by
      rw [List.length_append] at hlength
      dsimp only at hlength
      exact List.length_eq_zero_iff.mp (by omega)
    subst hstk
    exact ⟨s', hexec⟩

/-- Several frames are handed out at once, unless too few are left. -/
theorem Owned.allocMany_spec {s : State} (h : Owned frames (s, live) stk) (k : ℕ) :
    (frames.length < live.length + k → Frame.exec s (.allocMany k) = .ok (.frames none, s)) ∧
      (live.length + k ≤ frames.length → ∃ fs s',
        Frame.exec s (.allocMany k) = .ok (.frames (some fs), s') ∧ fs.length = k) := by
  have hlength : live.length + stk.length = frames.length := by
    rw [← h.perm.length_eq, List.length_append]
  have howns : Owns frames live (.allocMany k) := trivial
  obtain ⟨s', hexec, -⟩ := h.exec howns
  constructor
  · intro hlt
    have hnone := allocMany_none h.represents (k := k) (by rw [List.length_reverse]; omega)
    rw [Frame.exec, hnone]
    rfl
  · intro hle
    refine ⟨stk.take k, s', ?_, List.length_take_of_le (by omega)⟩
    rw [stackExec, if_neg (by omega)] at hexec
    exact hexec

/-- **The frames are owned** if each is in one place. -/
theorem Owned.framesOwned {s : State} (h : Owned frames (s, live) stk) :
    FramesOwned frames s live := by
  have hnodup : (live ++ stk).Nodup := h.perm.nodup_iff.mpr h.nodup
  constructor
  case kept =>
    refine ⟨stk, h.perm, ?_⟩
    rw [h.represents.num, List.length_reverse]
  case returns =>
    intro op hop
    obtain ⟨s', hexec, -⟩ := h.exec hop
    have hsublist := handedOut_sublist stk op
    refine ⟨_, s', hexec, (List.nodup_append.mp hnodup).2.1.sublist hsublist, fun f hf => ?_⟩
    have hmem := hsublist.subset hf
    exact ⟨h.perm.mem_iff.mp (List.mem_append_right _ hmem), fun hlive => h.notMem hlive hmem⟩
  case exhausted => exact h.allocOne_none_iff
  case many => exact h.allocMany_spec
  case untouched =>
    intro op hop hwrite r s' hexec f hf a hfa haf
    obtain ⟨s'', hexec', hs', hsame⟩ := h.exec hop
    obtain ⟨rfl, rfl⟩ := Prod.mk.inj (Except.ok.inj (hexec'.symm.trans hexec))
    refine hsame hwrite a fun g hg hin => ?_
    have hg' : g % pageSize = 0 := hs'.represents.aligned g (List.mem_reverse.mpr hg)
    obtain rfl := eq_of_overlap (hs'.aligned_of_live hf) hg' hfa haf hin.1 hin.2
    exact hs'.notMem hf hg

/-- **Every free frame is owned once**: from boot on, whatever is allocated, freed and written, the
frames of the free regions of the memory map are those that are handed out and those that the
allocator has, each of them once. No operation panics, frames are handed out as long as there are
enough, and the allocator writes to no frame that is handed out. -/
theorem frame_ownership {memoryMap : List MemoryRegion} (h : WellFormed memoryMap)
    (mem : ℕ → ℕ) :
    ∃ s₀, init memoryMap ⟨.new, mem⟩ = .ok ((framesWith isUsable memoryMap).length, s₀) ∧
      ∀ ops s live, Runs (OwnStep (framesWith isFree memoryMap)) (s₀, []) ops (s, live) →
        FramesOwned (framesWith isFree memoryMap) s live := by
  obtain ⟨s₀, hinit, hs₀⟩ := init_spec h mem
  refine ⟨s₀, hinit, fun ops s live hruns => ?_⟩
  have howned : Owned (framesWith isFree memoryMap) (s₀, [])
      (framesWith isFree memoryMap).reverse := by
    refine ⟨?_, List.reverse_perm _, h.nodup_usable.sublist (free_sublist memoryMap),
      fun f hf => mod_pageSize_of_mem hf⟩
    rw [List.reverse_reverse]
    exact hs₀
  obtain ⟨stk, howned'⟩ := howned.runs hruns
  exact howned'.framesOwned

/-- A memory map with two frames that are free, one that is in use and one that is not usable. -/
def smallMap : List MemoryRegion :=
  [⟨0, 1, .other 0⟩, ⟨1, 2, .usable⟩, ⟨2, 3, .kernel⟩, ⟨3, 4, .bootloader⟩]

/-- Both free frames are handed out, and one of them is freed. -/
theorem frame_ownership_small :
    ∃ s₀ s, init smallMap ⟨.new, fun _ => 0⟩ = .ok (3, s₀) ∧
      Runs (OwnStep (framesWith isFree smallMap)) (s₀, [])
        [.allocMany 2, .allocOne, .freeOne 4096] (s, [12288]) ∧
      FramesOwned (framesWith isFree smallMap) s [12288] := by
  have hwf : WellFormed smallMap := by
    refine ⟨?_, ?_⟩
    · decide
    · decide
  obtain ⟨s₀, hinit, hruns⟩ := frame_ownership hwf fun _ => 0
  obtain ⟨s, hrun⟩ : ∃ s, Runs (OwnStep (framesWith isFree smallMap)) (s₀, [])
      [.allocMany 2, .allocOne, .freeOne 4096] (s, [12288]) := by
    have hinit' : init smallMap ⟨.new, fun _ => 0⟩ = .ok (3, _) := rfl
    obtain ⟨-, rfl⟩ := Prod.mk.inj (Except.ok.inj (hinit.symm.trans hinit'))
    have hfree : Owns (framesWith isFree smallMap) [12288, 4096] (.freeOne 4096) :=
      List.mem_cons_of_mem _ List.mem_cons_self
    exact ⟨_, .cons (t := (_, [12288, 4096])) ⟨trivial, _, rfl, rfl⟩
      (.cons (t := (_, [12288, 4096])) ⟨trivial, _, rfl, rfl⟩ (.cons ⟨hfree, _, rfl, rfl⟩ .refl))⟩
  exact ⟨s₀, s, hinit, hrun, hruns _ s _ hrun⟩

end HydroxKernel.Frame
