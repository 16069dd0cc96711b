import HydroxKernel.Lib.Intervals
import HydroxKernel.Lib.Tables
import HydroxKernel.Arch.Page
import HydroxKernel.Mem.VirtFree
import Mathlib.Tactic.Ring

/-!
# Finding the Kernel's Free Virtual Memory

When the kernel starts, the virtual allocator of its address space is filled from the page
tables: a walk over the L4 slots `256` to `510` frees what lies under an entry that is unused.
Runs of unused entries are joined across the borders of tables, also of different levels: a
region is pending until an unused entry that it does not touch is met, or the walk ends.

## Main results

* `findFreeRegionsIn_scanned`: what the walk over one table does to the regions.
* `initKernelVirtualAlloc_frees`: the regions that are freed are canonical and page-aligned, and
  they cover exactly the addresses of the slots that lie under an unused entry.
* `initKernelVirtualAlloc_represents`: with the virtual allocator of the kernel, which is empty
  before, these addresses are its free addresses then.
-/

namespace HydroxKernel.Page

open Intervals Tables
open Virt (VirtualAllocRegion isPageAligned)

/-! ### The walk -/

/-- The ways in which the walk can fail to return, for an allocator that can panic in the ways
`ε`. -/
inductive WalkPanic (ε : Type)
  /-- A sum of an address and a size is not a canonical address. -/
  | nonCanonical
  /-- `start <= end` of `VirtualAllocRegion::new`. -/
  | negativeRegion
  /-- `entry.frame().unwrap()`. -/
  | noFrame
  /-- The allocator panics. -/
  | free (e : ε)

/-- What the walk changes: the allocator, and the pending region. -/
structure Walk (α : Type) where
  out : α
  pending : Option VirtualAllocRegion

section Walk

variable {α ε : Type}

/-- The sum of an address of the upper half and a size. -/
def addAddr (addr size : ℕ) : Except (WalkPanic ε) ℕ :=
  if addr + size < 2 ^ 64 then .ok (addr + size) else .error .nonCanonical

/-- `VirtualAllocRegion::new`. -/
def newRegion (start stop : ℕ) : Except (WalkPanic ε) VirtualAllocRegion := do
  ensure (start ≤ stop) .negativeRegion
  return (start, stop)

/-- `VirtualAllocator::free`, called from the walk. -/
def callFree (free : α → VirtualAllocRegion → Except ε α) (out : α) (r : VirtualAllocRegion) :
    Except (WalkPanic ε) α :=
  match free out r with
  | .ok out => .ok out
  | .error e => .error (.free e)

/-- The branch of the walk for an entry that `is_unused`. -/
def walkUnused (free : α → VirtualAllocRegion → Except ε α) (w : Walk α) (startAddr size : ℕ) :
    Except (WalkPanic ε) (Walk α) :=
  match w.pending with
  | some pending =>
      if pending.2 = startAddr then do
        let stop ← addAddr startAddr size
        let r ← newRegion pending.1 stop
        return { w with pending := some r }
      else do
        let out ← callFree free w.out pending
        let stop ← addAddr startAddr size
        let r ← newRegion startAddr stop
        return ⟨out, some r⟩
  | none => do
      let stop ← addAddr startAddr size
      let r ← newRegion startAddr stop
      return { w with pending := some r }

/-- `entry.frame().unwrap()`. -/
def frameUnwrap (e : Entry) : Except (WalkPanic ε) ℕ := do
  ensure (e.flags.present = true ∧ e.flags.hugePage = false) .noFrame
  return e.frame

/-- The indices `lo..hi` of a table. -/
def indices (lo hi : ℕ) : List (Fin 512) := (List.range' lo (hi - lo)).map (Fin.ofNat 512)

/-- The body of the loop of `find_free_regions_in`, for the `i`-th entry `entry` of a range. The
walk over a table of the next level is `next`. -/
def walkEntry (free : α → VirtualAllocRegion → Except ε α)
    (next : Option (ℕ → ℕ → Walk α → Except (WalkPanic ε) (Walk α))) (size startAddr : ℕ)
    (entry : Entry) (i : ℕ) (w : Walk α) : Except (WalkPanic ε) (Walk α) := do
  let startAddr ← addAddr startAddr (i * size)
  if entry = .unused then walkUnused free w startAddr size
  else
    match next with
    | some next =>
        if entry.flags.hugePage = false then do
          let frame ← frameUnwrap entry
          next frame startAddr w
        else return w
    | none => return w

/-- `find_free_regions_in`, for a table of level `height + 1`. -/
def findFreeRegionsIn (free : α → VirtualAllocRegion → Except ε α)
    (tables : ℕ → Fin 512 → Entry) :
    ℕ → ℕ → List (Fin 512) → ℕ → Walk α → Except (WalkPanic ε) (Walk α)
  | 0, table, range, startAddr, w =>
      range.zipIdx.foldlM (fun w j =>
        walkEntry free none pageSize startAddr (tables table j.1) j.2 w) w
  | height + 1, table, range, startAddr, w =>
      range.zipIdx.foldlM (fun w j =>
        walkEntry free
          (some fun frame startAddr w =>
            findFreeRegionsIn free tables height frame (indices 0 512) startAddr w)
          (pageSize <<< ((height + 1) * 9)) startAddr (tables table j.1) j.2 w) w

/-- `init_kernel_virtual_alloc`, on the kernel's L4 table. -/
def initKernelVirtualAlloc (free : α → VirtualAllocRegion → Except ε α)
    (tables : ℕ → Fin 512 → Entry) (pageTable : ℕ) (out : α) : Except (WalkPanic ε) α := do
  let w ← findFreeRegionsIn free tables 3 pageTable (indices 256 511) 0xffff800000000000
    ⟨out, none⟩
  match w.pending with
  | some pending => callFree free w.out pending
  | none => return w.out

end Walk

/-- An allocator that writes down the regions that are freed. -/
def record (out : List VirtualAllocRegion) (r : VirtualAllocRegion) :
    Except Empty (List VirtualAllocRegion) := .ok (out ++ [r])

/-! ### What lies under an unused entry -/

/-- The size of the memory under an entry of a table of level `height + 1`. -/
def entrySize (height : ℕ) : ℕ := 2 ^ (12 + 9 * height)

/-- The index of an address in a table of level `height + 1`. -/
def indexOf (height addr : ℕ) : Fin 512 := Fin.ofNat 512 (addr / entrySize height)

/-- The indices of an address in the tables of the levels `height` to `1`. -/
def indicesBelow : ℕ → ℕ → List (Fin 512)
  | 0, _ => []
  | height + 1, addr => indexOf height addr :: indicesBelow height addr

/-- The table that the walk enters from an entry of a table of level `k + 1`. -/
def Entry.entered (k : ℕ) (e : Entry) : Option ℕ :=
  if 0 < k ∧ e ≠ .unused ∧ e.flags.hugePage = false then some e.frame else none

/-- The address lies under an entry that is unused, in or below a table of level
`height + 1`. -/
def UnderUnused (tables : ℕ → Fin 512 → Entry) (height table addr : ℕ) : Prop :=
  (stop Entry.entered tables table (indexOf height addr) (indicesBelow height addr)).2 = .unused

instance (tables : ℕ → Fin 512 → Entry) (height table addr : ℕ) :
    Decidable (UnderUnused tables height table addr) := inferInstanceAs (Decidable (_ = _))

/-- Each entry in the range of a table of level `height + 1` and each entry below, down to level
`2`, that is neither unused nor a huge page is present. -/
def Walkable (tables : ℕ → Fin 512 → Entry) : ℕ → List (Fin 512) → ℕ → Prop
  | 0, _, _ => True
  | height + 1, range, table => ∀ j ∈ range, tables table j ≠ .unused →
      (tables table j).flags.hugePage = false →
      (tables table j).flags.present = true ∧
        Walkable tables height (indices 0 512) (tables table j).frame

section Sizes

variable {height base j addr : ℕ}

/-- The indices below a level are as many as there are levels. -/
@[simp] theorem length_indicesBelow (height addr : ℕ) :
    (indicesBelow height addr).length = height := by
  induction height with
  | zero => rfl
  | succ height ih => rw [indicesBelow, List.length_cons, ih]

/-- The memory under an entry is that under a whole table of the next level. -/
theorem entrySize_succ (height : ℕ) : entrySize (height + 1) = 512 * entrySize height := by
  rw [entrySize, entrySize, Nat.mul_add, ← Nat.add_assoc, pow_add _ (12 + 9 * height),
    Nat.mul_comm]
  rfl

/-- There is memory under every entry. -/
theorem entrySize_pos (height : ℕ) : 0 < entrySize height := Nat.two_pow_pos _

/-- The memory under an entry is made of pages. -/
theorem pageSize_dvd_entrySize (height : ℕ) : 4096 ∣ entrySize height := by
  rw [entrySize, pow_add]
  exact Dvd.intro _ rfl

/-- The size of the memory under an entry, as the walk computes it. -/
theorem shiftLeft_eq_entrySize (height : ℕ) : pageSize <<< (height * 9) = entrySize height := by
  rw [Nat.shiftLeft_eq, entrySize, pow_add, Nat.mul_comm height]
  rfl

/-- The index of the addresses under an entry. -/
theorem indexOf_eq (hbase : 512 * entrySize height ∣ base)
    (hle : base + j * entrySize height ≤ addr)
    (hlt : addr < base + (j + 1) * entrySize height) : indexOf height addr = Fin.ofNat 512 j := by
  obtain ⟨q, rfl⟩ := hbase
  have hdiv : addr / entrySize height = 512 * q + j := by
    refine Nat.div_eq_of_lt_le ?_ ?_
    · calc (512 * q + j) * entrySize height
          = 512 * entrySize height * q + j * entrySize height := by ring
        _ ≤ addr := hle
    · calc addr < 512 * entrySize height * q + (j + 1) * entrySize height := hlt
        _ = (512 * q + j).succ * entrySize height := by
          rw [Nat.succ_eq_add_one]
          ring
  rw [indexOf, hdiv, Fin.ext_iff, Fin.val_ofNat, Fin.val_ofNat]
  omega

end Sizes

/-! ### The regions that are found -/

/-- The regions that the walk has freed, and the pending one. -/
def Walk.regions (w : Walk (List VirtualAllocRegion)) : List VirtualAllocRegion :=
  w.out ++ w.pending.toList

/-- The regions that were found from `lo` to `cur` are canonical and page-aligned, and they
cover the addresses that are `free`. The last one is pending. -/
structure Scanned (free : ℕ → Prop) (lo cur : ℕ) (w : Walk (List VirtualAllocRegion)) : Prop where
  pending : w.pending = none → w.out = []
  canonical : Canonical w.regions
  aligned : ∀ r ∈ w.regions, isPageAligned r = true
  ends : ∀ r ∈ w.regions, r.2 ≤ cur
  covers : ∀ addr, addr ∈ cover w.regions ↔ (lo ≤ addr ∧ addr < cur) ∧ free addr

section Scan

variable {free : ℕ → Prop} {lo cur size : ℕ} {w : Walk (List VirtualAllocRegion)}

/-- An entry under which nothing is free is passed. -/
theorem Scanned.skip (h : Scanned free lo cur w)
    (hused : ∀ addr, cur ≤ addr → addr < cur + size → ¬ free addr) :
    Scanned free lo (cur + size) w where
  pending := h.pending
  canonical := h.canonical
  aligned := h.aligned
  ends := fun r hr => (h.ends r hr).trans (Nat.le_add_right _ _)
  covers := by
    intro addr
    rw [h.covers]
    constructor
    · rintro ⟨⟨hlo, hlt⟩, hfree⟩
      exact ⟨⟨hlo, by omega⟩, hfree⟩
    · rintro ⟨⟨hlo, hlt⟩, hfree⟩
      refine ⟨⟨hlo, ?_⟩, hfree⟩
      by_contra hge
      exact hused addr (by omega) hlt hfree

/-- The regions that are found when the memory under an unused entry is added. -/
theorem Scanned.extend {w' : Walk (List VirtualAllocRegion)} (h : Scanned free lo cur w)
    (hlo : lo ≤ cur) (hfree : ∀ addr, cur ≤ addr → addr < cur + size → free addr)
    (hpending : w'.pending ≠ none) (hcan : Canonical w'.regions)
    (hcover : cover w'.regions = cover w.regions ∪ Set.Ico cur (cur + size))
    (haligned : ∀ r ∈ w'.regions, isPageAligned r = true)
    (hends : ∀ r ∈ w'.regions, r.2 ≤ cur + size) : Scanned free lo (cur + size) w' where
  pending := fun hnone => absurd hnone hpending
  canonical := hcan
  aligned := haligned
  ends := hends
  covers := by
    intro addr
    rw [hcover, Set.mem_union, h.covers, Set.mem_Ico]
    constructor
    · rintro (⟨⟨hlo', hlt⟩, hf⟩ | ⟨hle, hlt⟩)
      · exact ⟨⟨hlo', by omega⟩, hf⟩
      · exact ⟨⟨hlo.trans hle, hlt⟩, hfree addr hle hlt⟩
    · rintro ⟨⟨hlo', hlt⟩, hf⟩
      rcases Nat.lt_or_ge addr cur with hcur | hcur
      · exact .inl ⟨⟨hlo', hcur⟩, hf⟩
      · exact .inr ⟨hcur, hlt⟩

/-- The memory under an unused entry becomes pending: it is joined to the pending region if it
touches it, and otherwise that one is freed. -/
theorem walkUnused_scanned (h : Scanned free lo cur w) (hlo : lo ≤ cur) (hsize : 0 < size)
    (hcur : cur % 4096 = 0) (hpages : size % 4096 = 0) (hfit : cur + size < 2 ^ 64)
    (hfree : ∀ addr, cur ≤ addr → addr < cur + size → free addr) :
    ∃ w', walkUnused record w cur size = .ok w' ∧ Scanned free lo (cur + size) w' := by
  have hadd : addAddr (ε := Empty) cur size = .ok (cur + size) := if_pos hfit
  have hnew : ∀ start ≤ cur, newRegion (ε := Empty) start (cur + size) =
      .ok (start, cur + size) := by
    intro start hstart
    rw [newRegion, ensure_pos (by omega), ok_bind]
    rfl
  have halign : ∀ start, start % 4096 = 0 → isPageAligned (start, cur + size) = true := by
    intro start hstart
    have hend : (cur + size) % 4096 = 0 := by omega
    simp only [isPageAligned, Virt.pageSize, hstart, hend, decide_true, Bool.and_self]
  obtain ⟨out, pending⟩ := w
  cases pending with
  | none =>
      obtain rfl : out = [] := h.pending rfl
      refine ⟨⟨[], some (cur, cur + size)⟩, ?_, ?_⟩
      · simp only [walkUnused, hadd, hnew cur le_rfl, ok_bind]
        rfl
      · refine h.extend hlo hfree (Option.some_ne_none _) ?_ ?_ ?_ ?_
        · exact (canonical_cons _ _).mpr ⟨by omega, fun b hb => (nomatch hb), canonical_nil⟩
        · simp [Walk.regions]
        · rintro r hr
          rw [List.mem_singleton.mp hr]
          exact halign cur hcur
        · rintro r hr
          rw [List.mem_singleton.mp hr]
  | some p =>
      have hp : p ∈ Walk.regions ⟨out, some p⟩ := List.mem_append_right _ List.mem_cons_self
      have hle := h.ends p hp
      have hpos := h.canonical.1 p hp
      by_cases htouch : p.2 = cur
      · refine ⟨⟨out, some (p.1, cur + size)⟩, ?_, ?_⟩
        · simp only [walkUnused, if_pos htouch, hadd, hnew p.1 (by omega), ok_bind]
          rfl
        · obtain ⟨hcan, hcover⟩ := canonical_extend_right (r := (cur, cur + size)) h.canonical
            htouch (Nat.lt_add_of_pos_right hsize) fun b hb => nomatch hb
          refine h.extend hlo hfree (Option.some_ne_none _) hcan hcover ?_ ?_
          · intro r hr
            rcases List.mem_append.mp hr with hr | hr
            · exact h.aligned r (List.mem_append_left _ hr)
            · rw [List.mem_singleton.mp hr]
              have hpal := h.aligned p hp
              rw [isPageAligned, Bool.and_eq_true] at hpal
              exact halign p.1 (of_decide_eq_true hpal.1)
          · intro r hr
            rcases List.mem_append.mp hr with hr | hr
            · exact (h.ends r (List.mem_append_left _ hr)).trans (Nat.le_add_right _ _)
            · rw [List.mem_singleton.mp hr]
      · refine ⟨⟨out ++ [p], some (cur, cur + size)⟩, ?_, ?_⟩
        · simp only [walkUnused, if_neg htouch, callFree, record, hadd, hnew cur le_rfl, ok_bind]
          rfl
        · have hlast : ∀ r ∈ out ++ [p], r.2 < cur := by
            intro r hr
            have := end_le_last (z := p) h.canonical (by simp [Walk.regions]) hr
            omega
          have hregions : Walk.regions ⟨out, some p⟩ = out ++ [p] ++ [] := by simp [Walk.regions]
          have hcan₀ : Canonical (out ++ [p] ++ []) := hregions ▸ h.canonical
          obtain ⟨hcan, hcover⟩ := canonical_insert (r := (cur, cur + size)) hcan₀
            (Nat.lt_add_of_pos_right hsize) hlast fun b hb => nomatch hb
          rw [← hregions] at hcover
          refine h.extend hlo hfree (Option.some_ne_none _) hcan hcover ?_ ?_
          · intro r hr
            rcases List.mem_append.mp hr with hr | hr
            · exact h.aligned r hr
            · rw [List.mem_singleton.mp hr]
              exact halign cur hcur
          · intro r hr
            rcases List.mem_append.mp hr with hr | hr
            · exact (h.ends r hr).trans (Nat.le_add_right _ _)
            · rw [List.mem_singleton.mp hr]

end Scan

/-! ### The walk over one table -/

section Table

variable {free : ℕ → Prop} {tables : ℕ → Fin 512 → Entry} {lo : ℕ}

/-- The walk passes the indices of a range in order. -/
theorem loop_scanned {base first last size : ℕ}
    {f : Walk (List VirtualAllocRegion) → Fin 512 × ℕ →
      Except (WalkPanic Empty) (Walk (List VirtualAllocRegion))}
    {w : Walk (List VirtualAllocRegion)} (hle : first ≤ last)
    (h : Scanned free lo (base + first * size) w)
    (hstep : ∀ j, first ≤ j → j < last → ∀ w, Scanned free lo (base + j * size) w →
      ∃ w', f w (Fin.ofNat 512 j, j - first) = .ok w' ∧
        Scanned free lo (base + (j + 1) * size) w') :
    ∃ w', (indices first last).zipIdx.foldlM f w = .ok w' ∧
      Scanned free lo (base + last * size) w' := by
  have hlen : (indices first last).zipIdx.length = last - first := by
    rw [List.length_zipIdx, indices, List.length_map, List.length_range']
  obtain ⟨w', hw', hlast⟩ := foldlM_invariant (f := f) (l := (indices first last).zipIdx)
    (fun i w => Scanned free lo (base + (first + i) * size) w) h (by
      intro i hi w hw
      rw [hlen] at hi
      obtain ⟨w', hw', hnext⟩ := hstep (first + i) (by omega) (by omega) w hw
      refine ⟨w', ?_, hnext⟩
      rw [← hw', Nat.add_sub_cancel_left]
      simp [indices])
  rw [hlen, Nat.add_sub_cancel' hle] at hlast
  exact ⟨w', hw', hlast⟩

/-- An unused entry, a huge page and an entry of an L1 table end a walk. -/
theorem underUnused_iff_of_entered {height table addr : ℕ}
    (h : (tables table (indexOf height addr)).entered height = none) :
    UnderUnused tables height table addr ↔ tables table (indexOf height addr) = .unused := by
  rw [UnderUnused, stop_of_none]
  rwa [length_indicesBelow]

/-- Below an entry that points to a table, the walk goes on in that table. -/
theorem underUnused_succ {height table addr : ℕ}
    (hused : tables table (indexOf (height + 1) addr) ≠ .unused)
    (hhuge : (tables table (indexOf (height + 1) addr)).flags.hugePage = false) :
    UnderUnused tables (height + 1) table addr ↔
      UnderUnused tables height (tables table (indexOf (height + 1) addr)).frame addr := by
  rw [UnderUnused, UnderUnused, indicesBelow, stop_of_some]
  exact if_pos ⟨Nat.succ_pos _, hused, hhuge⟩

/-- The walk passes one entry: what lies under it is free, or it is not, or it is what lies below
the table of the next level. -/
theorem walkEntry_scanned {height table base first j : ℕ} {w : Walk (List VirtualAllocRegion)}
    {next : Option (ℕ → ℕ → Walk (List VirtualAllocRegion) →
      Except (WalkPanic Empty) (Walk (List VirtualAllocRegion)))}
    (hbase : 512 * entrySize height ∣ base) (hfirst : first ≤ j)
    (hlo : lo ≤ base + j * entrySize height) (hfit : base + (j + 1) * entrySize height < 2 ^ 64)
    (hfree : ∀ addr, base + j * entrySize height ≤ addr →
      addr < base + (j + 1) * entrySize height →
      (free addr ↔ UnderUnused tables height table addr))
    (hbottom : next = none → height = 0)
    (hnext : ∀ f, next = some f → tables table (Fin.ofNat 512 j) ≠ .unused →
      (tables table (Fin.ofNat 512 j)).flags.hugePage = false →
      (tables table (Fin.ofNat 512 j)).flags.present = true ∧
      ∃ w', f (tables table (Fin.ofNat 512 j)).frame (base + j * entrySize height) w = .ok w' ∧
        Scanned free lo (base + (j + 1) * entrySize height) w')
    (h : Scanned free lo (base + j * entrySize height) w) :
    ∃ w', walkEntry record next (entrySize height) (base + first * entrySize height)
        (tables table (Fin.ofNat 512 j)) (j - first) w = .ok w' ∧
      Scanned free lo (base + (j + 1) * entrySize height) w' := by
  have hend : base + (j + 1) * entrySize height =
      base + j * entrySize height + entrySize height := by
    ring
  have hstart : base + first * entrySize height + (j - first) * entrySize height =
      base + j * entrySize height := by
    rw [Nat.add_assoc, ← Nat.add_mul, Nat.add_sub_cancel' hfirst]
  have hadd : addAddr (ε := Empty) (base + first * entrySize height)
      ((j - first) * entrySize height) = .ok (base + j * entrySize height) := by
    rw [addAddr, hstart, if_pos (by omega)]
  have hindex : ∀ addr, base + j * entrySize height ≤ addr →
      addr < base + (j + 1) * entrySize height → indexOf height addr = Fin.ofNat 512 j :=
    fun addr => indexOf_eq hbase
  have hskip : (tables table (Fin.ofNat 512 j)).entered height = none →
      tables table (Fin.ofNat 512 j) ≠ .unused →
      Scanned free lo (base + (j + 1) * entrySize height) w := by
    intro hentered hused
    rw [hend]
    refine h.skip fun addr hle hlt => ?_
    rw [← hend] at hlt
    have hi := hindex addr hle hlt
    rw [hfree addr hle hlt, underUnused_iff_of_entered (by rw [hi]; exact hentered), hi]
    exact hused
  rw [walkEntry, hadd, ok_bind]
  by_cases hunused : tables table (Fin.ofNat 512 j) = .unused
  · have hdvd := pageSize_dvd_entrySize height
    have hdvdBase : 4096 ∣ base := (hdvd.trans (Dvd.intro_left _ rfl)).trans hbase
    rw [if_pos hunused, hend]
    refine walkUnused_scanned h hlo (entrySize_pos height) ?_ (Nat.mod_eq_zero_of_dvd hdvd)
      (hend ▸ hfit) ?_
    · exact Nat.mod_eq_zero_of_dvd (Nat.dvd_add hdvdBase (hdvd.trans (Dvd.intro_left _ rfl)))
    · intro addr hle hlt
      rw [← hend] at hlt
      have hi := hindex addr hle hlt
      have hentered : (tables table (indexOf height addr)).entered height = none := by
        rw [hi, hunused]
        exact if_neg fun hand => hand.2.1 rfl
      rw [hfree addr hle hlt, underUnused_iff_of_entered hentered, hi]
      exact hunused
  · rw [if_neg hunused]
    cases next with
    | none =>
        refine ⟨w, rfl, hskip (if_neg fun hand => ?_) hunused⟩
        rw [hbottom rfl] at hand
        exact absurd hand.1 (Nat.lt_irrefl 0)
    | some f =>
        by_cases hhuge : (tables table (Fin.ofNat 512 j)).flags.hugePage = false
        · obtain ⟨hpresent, w', hw', hscanned⟩ := hnext f rfl hunused hhuge
          refine ⟨w', ?_, hscanned⟩
          simp only [if_pos hhuge, frameUnwrap, ensure_pos (And.intro hpresent hhuge), ok_bind]
          exact hw'
        · refine ⟨w, ?_, hskip (if_neg fun hand => hhuge hand.2.2) hunused⟩
          simp only [if_neg hhuge]
          rfl

/-- **The walk over one table** finds what lies under an unused entry, in the table or below. -/
theorem findFreeRegionsIn_scanned {height table base first last : ℕ}
    {w : Walk (List VirtualAllocRegion)} (hbase : 512 * entrySize height ∣ base)
    (hle : first ≤ last) (hlast : last ≤ 512) (hlo : lo ≤ base + first * entrySize height)
    (hfit : base + last * entrySize height < 2 ^ 64)
    (hwalk : Walkable tables height (indices first last) table)
    (hfree : ∀ addr, base + first * entrySize height ≤ addr →
      addr < base + last * entrySize height →
      (free addr ↔ UnderUnused tables height table addr))
    (h : Scanned free lo (base + first * entrySize height) w) :
    ∃ w', findFreeRegionsIn record tables height table (indices first last)
        (base + first * entrySize height) w = .ok w' ∧
      Scanned free lo (base + last * entrySize height) w' := by
  have hmono : ∀ {b u i j : ℕ}, i ≤ j → b + i * u ≤ b + j * u :=
    fun hij => Nat.add_le_add_left (Nat.mul_le_mul_right _ hij) _
  induction height generalizing table base first last w with
  | zero =>
      refine loop_scanned hle h fun j hj hj' w hw => ?_
      exact walkEntry_scanned hbase hj (hlo.trans (hmono hj)) ((hmono hj').trans_lt hfit)
        (fun addr hge hlt => hfree addr ((hmono hj).trans hge) (hlt.trans_le (hmono hj')))
        (fun _ => rfl) (fun f hf => nomatch hf) hw
  | succ height ih =>
      rw [findFreeRegionsIn, shiftLeft_eq_entrySize]
      refine loop_scanned hle h fun j hj hj' w hw => ?_
      have hrange : ∀ addr, base + j * entrySize (height + 1) ≤ addr →
          addr < base + (j + 1) * entrySize (height + 1) →
          (free addr ↔ UnderUnused tables (height + 1) table addr) :=
        fun addr hge hlt => hfree addr ((hmono hj).trans hge) (hlt.trans_le (hmono hj'))
      refine walkEntry_scanned hbase hj (hlo.trans (hmono hj)) ((hmono hj').trans_lt hfit) hrange
        (fun hnone => nomatch hnone) ?_ hw
      rintro f hf hused hhuge
      cases hf
      have hmem : Fin.ofNat 512 j ∈ indices first last :=
        List.mem_map_of_mem (List.mem_range'_1.mpr ⟨hj, by omega⟩)
      obtain ⟨hpresent, hbelow⟩ := hwalk _ hmem hused hhuge
      refine ⟨hpresent, ?_⟩
      have hsize := entrySize_succ height
      have hdvd : 512 * entrySize height ∣ base + j * entrySize (height + 1) := by
        rw [← hsize]
        exact Nat.dvd_add ((Dvd.intro_left _ rfl).trans hbase) (Dvd.intro_left _ rfl)
      have hstart : base + j * entrySize (height + 1) + 0 * entrySize height =
          base + j * entrySize (height + 1) := by
        rw [Nat.zero_mul, Nat.add_zero]
      have hend : base + j * entrySize (height + 1) + 512 * entrySize height =
          base + (j + 1) * entrySize (height + 1) := by
        rw [hsize]
        ring
      have hfree' : ∀ addr, base + j * entrySize (height + 1) + 0 * entrySize height ≤ addr →
          addr < base + j * entrySize (height + 1) + 512 * entrySize height →
          (free addr ↔ UnderUnused tables height (tables table (Fin.ofNat 512 j)).frame addr) := by
        intro addr hge hlt
        rw [hstart] at hge
        rw [hend] at hlt
        have hi := indexOf_eq hbase hge hlt
        rw [hrange addr hge hlt, underUnused_succ (by rw [hi]; exact hused)
          (by rw [hi]; exact hhuge), hi]
      have hnext := ih (w := w) hdvd (Nat.zero_le 512) le_rfl
        (by rw [hstart]; exact hlo.trans (hmono hj))
        (by rw [hend]; exact (hmono hj').trans_lt hfit) hbelow hfree' (by rw [hstart]; exact hw)
      rwa [hstart, hend] at hnext

end Table

/-! ### The same walk for every allocator -/

section Allocators

variable {α ε : Type} {free : α → VirtualAllocRegion → Except ε α}

/-- A part of the walk frees the same regions of every allocator: where the regions are only
written down it frees `new`, and with another allocator it does nothing else to it. -/
def Frees (free : α → VirtualAllocRegion → Except ε α)
    (f : Walk (List VirtualAllocRegion) →
      Except (WalkPanic Empty) (Walk (List VirtualAllocRegion)))
    (g : Walk α → Except (WalkPanic ε) (Walk α)) : Prop :=
  ∀ w w', f w = .ok w' → ∃ new, w'.out = w.out ++ new ∧
    ∀ out, g ⟨out, w.pending⟩ = new.foldlM (callFree free) out >>= fun out => .ok ⟨out, w'.pending⟩

/-- A part of the walk that changes nothing frees nothing. -/
theorem Frees.refl : Frees free (fun w => .ok w) fun w => .ok w := by
  intro w w' h
  cases h
  exact ⟨[], (List.append_nil _).symm, fun out => rfl⟩

/-- Parts of the walk follow one another. -/
theorem Frees.bind {f f' : Walk (List VirtualAllocRegion) →
      Except (WalkPanic Empty) (Walk (List VirtualAllocRegion))}
    {g g' : Walk α → Except (WalkPanic ε) (Walk α)} (h : Frees free f g) (h' : Frees free f' g') :
    Frees free (fun w => f w >>= f') fun w => g w >>= g' := by
  intro w w'' hw
  obtain ⟨w', hw', hw''⟩ := bind_eq_ok.mp hw
  obtain ⟨new, hnew, hg⟩ := h w w' hw'
  obtain ⟨new', hnew', hg'⟩ := h' w' w'' hw''
  refine ⟨new ++ new', by rw [hnew', hnew, List.append_assoc], fun out => ?_⟩
  simp only [hg, List.foldlM_append, bind_assoc, ok_bind, hg']

/-- A loop frees what its steps free. -/
theorem Frees.foldlM {β : Type} {f : Walk (List VirtualAllocRegion) → β →
      Except (WalkPanic Empty) (Walk (List VirtualAllocRegion))}
    {g : Walk α → β → Except (WalkPanic ε) (Walk α)} {l : List β}
    (h : ∀ b ∈ l, Frees free (fun w => f w b) fun w => g w b) :
    Frees free (fun w => l.foldlM f w) fun w => l.foldlM g w := by
  induction l with
  | nil => exact .refl
  | cons b l ih =>
      simp only [List.foldlM_cons]
      exact (h b List.mem_cons_self).bind (ih fun b hb => h b (List.mem_cons_of_mem _ hb))

/-- A sum of addresses is the same for every allocator. -/
theorem addAddr_eq_ok {addr size r : ℕ} (h : addAddr (ε := Empty) addr size = .ok r) :
    addAddr (ε := ε) addr size = .ok r := by
  by_cases hfit : addr + size < 2 ^ 64
  · rw [addAddr, if_pos hfit] at h ⊢
    cases h
    rfl
  · rw [addAddr, if_neg hfit] at h
    cases h

/-- A new region is the same for every allocator. -/
theorem newRegion_eq_ok {start stop : ℕ} {r : VirtualAllocRegion}
    (h : newRegion (ε := Empty) start stop = .ok r) : newRegion (ε := ε) start stop = .ok r := by
  obtain ⟨hle, h⟩ := ensure_bind_eq_ok.mp h
  cases h
  rw [newRegion, ensure_pos hle, ok_bind]
  rfl

/-- A frame is the same for every allocator. -/
theorem frameUnwrap_eq_ok {e : Entry} {frame : ℕ} (h : frameUnwrap (ε := Empty) e = .ok frame) :
    frameUnwrap (ε := ε) e = .ok frame := by
  obtain ⟨hentry, h⟩ := ensure_bind_eq_ok.mp h
  cases h
  rw [frameUnwrap, ensure_pos hentry, ok_bind]
  rfl

/-- The branch for an unused entry frees the same regions of every allocator. -/
theorem walkUnused_frees (startAddr size : ℕ) :
    Frees free (fun w => walkUnused record w startAddr size)
      fun w => walkUnused free w startAddr size := by
  rintro ⟨out₀, pending⟩ w' hw
  cases pending with
  | none =>
      obtain ⟨stop, hstop, hw⟩ := bind_eq_ok.mp hw
      obtain ⟨r, hr, hw⟩ := bind_eq_ok.mp hw
      cases hw
      refine ⟨[], (List.append_nil _).symm, fun out => ?_⟩
      simp only [walkUnused, addAddr_eq_ok hstop, newRegion_eq_ok hr, ok_bind]
      rfl
  | some p =>
      by_cases htouch : p.2 = startAddr
      · simp only [walkUnused, if_pos htouch] at hw ⊢
        obtain ⟨stop, hstop, hw⟩ := bind_eq_ok.mp hw
        obtain ⟨r, hr, hw⟩ := bind_eq_ok.mp hw
        cases hw
        refine ⟨[], (List.append_nil _).symm, fun out => ?_⟩
        simp only [addAddr_eq_ok hstop, newRegion_eq_ok hr, ok_bind]
        rfl
      · simp only [walkUnused, if_neg htouch] at hw ⊢
        obtain ⟨out₁, hout₁, hw⟩ := bind_eq_ok.mp hw
        obtain ⟨stop, hstop, hw⟩ := bind_eq_ok.mp hw
        obtain ⟨r, hr, hw⟩ := bind_eq_ok.mp hw
        cases hw
        cases hout₁
        refine ⟨[p], rfl, fun out => ?_⟩
        simp only [addAddr_eq_ok hstop, newRegion_eq_ok hr, ok_bind, List.foldlM_cons,
          List.foldlM_nil, bind_assoc, pure_bind]
        rfl

/-- The walk over one entry frees the same regions of every allocator, if the walk over the table
of the next level does. -/
theorem walkEntry_frees {next : Option (ℕ → ℕ → Walk (List VirtualAllocRegion) →
      Except (WalkPanic Empty) (Walk (List VirtualAllocRegion)))}
    {next' : Option (ℕ → ℕ → Walk α → Except (WalkPanic ε) (Walk α))}
    (hnext : Option.Rel (fun f g => ∀ frame startAddr, Frees free (f frame startAddr)
      (g frame startAddr)) next next') (size startAddr : ℕ) (e : Entry) (i : ℕ) :
    Frees free (walkEntry record next size startAddr e i)
      (walkEntry free next' size startAddr e i) := by
  intro w w' hw
  obtain ⟨start, hstart, hw⟩ := bind_eq_ok.mp hw
  simp only [walkEntry, addAddr_eq_ok hstart, ok_bind]
  by_cases hunused : e = .unused
  · simp only [if_pos hunused] at hw ⊢
    exact walkUnused_frees start size w w' hw
  · simp only [if_neg hunused] at hw ⊢
    cases hnext with
    | none => exact Frees.refl w w' hw
    | some hrel =>
        by_cases hhuge : e.flags.hugePage = false
        · simp only [if_pos hhuge] at hw ⊢
          obtain ⟨frame, hframe, hw⟩ := bind_eq_ok.mp hw
          simp only [frameUnwrap_eq_ok hframe, ok_bind]
          exact hrel frame start w w' hw
        · simp only [if_neg hhuge] at hw ⊢
          exact Frees.refl w w' hw

/-- The walk over one table frees the same regions of every allocator. -/
theorem findFreeRegionsIn_frees (tables : ℕ → Fin 512 → Entry) (height table : ℕ)
    (range : List (Fin 512)) (startAddr : ℕ) :
    Frees free (findFreeRegionsIn record tables height table range startAddr)
      (findFreeRegionsIn free tables height table range startAddr) := by
  induction height generalizing table range startAddr with
  | zero =>
      refine Frees.foldlM fun j _ => walkEntry_frees .none _ _ _ _
  | succ height ih =>
      refine Frees.foldlM fun j _ => walkEntry_frees (.some fun frame start => ?_) _ _ _ _
      exact ih frame _ start

end Allocators

/-! ### The walk of the kernel -/

/-- The addresses of the L4 slots `256` to `510` that lie under an unused entry. -/
def unusedAddrs (tables : ℕ → Fin 512 → Entry) (pageTable : ℕ) : Set ℕ :=
  {x | ∃ addr : VirtAddr, addr.val = x ∧ 256 ≤ addr.p4Index.val ∧ addr.p4Index.val ≤ 510 ∧
    (stop Entry.entered tables pageTable addr.p4Index
      [addr.p3Index, addr.p2Index, addr.p1Index]).2 = .unused}

/-- These are the unused addresses between the two ends of the walk. -/
theorem mem_unusedAddrs {tables : ℕ → Fin 512 → Entry} {pageTable x : ℕ} :
    x ∈ unusedAddrs tables pageTable ↔
      (0xffff800000000000 ≤ x ∧ x < 0xffffff8000000000) ∧ UnderUnused tables 3 pageTable x := by
  constructor
  · rintro ⟨addr, rfl, hge, hle, hunused⟩
    have hcan := addr.canonical
    rw [VirtAddr.p4Index, Fin.val_ofNat] at hge hle
    exact ⟨by omega, hunused⟩
  · rintro ⟨⟨hge, hlt⟩, hunused⟩
    refine ⟨⟨x, .inr ⟨hge, by omega⟩⟩, rfl, ?_, ?_, hunused⟩
    · change 256 ≤ x / 2 ^ 39 % 512
      omega
    · change x / 2 ^ 39 % 512 ≤ 510
      omega

/-- **The kernel frees what is unused**: it frees regions of every virtual allocator that are
non-empty, page-aligned, increasing, and neither overlap nor touch, and that together are the
unused addresses. -/
theorem initKernelVirtualAlloc_frees {tables : ℕ → Fin 512 → Entry} {pageTable : ℕ}
    (hwalk : Walkable tables 3 (indices 256 511) pageTable) :
    ∃ regions : List VirtualAllocRegion, Canonical regions ∧
      (∀ r ∈ regions, isPageAligned r = true) ∧
      cover regions = unusedAddrs tables pageTable ∧
      ∀ {α ε : Type} (free : α → VirtualAllocRegion → Except ε α) (out : α),
        initKernelVirtualAlloc free tables pageTable out = regions.foldlM (callFree free) out := by
  have hsize : entrySize 3 = 549755813888 := rfl
  have hstart : Scanned (UnderUnused tables 3 pageTable) 0xffff800000000000
      (0xffff000000000000 + 256 * entrySize 3) ⟨[], none⟩ :=
    { pending := fun _ => rfl
      canonical := canonical_nil
      aligned := fun _ hr => nomatch hr
      ends := fun _ hr => nomatch hr
      covers := by
        intro addr
        simp only [Walk.regions, Option.toList_none, List.append_nil, cover_nil,
          Set.mem_empty_iff_false, false_iff, not_and]
        omega }
  have hbase : 512 * entrySize 3 ∣ 0xffff000000000000 := by rw [hsize]; decide
  obtain ⟨w, hw, hend⟩ := findFreeRegionsIn_scanned hbase (by decide) (by decide) (by rw [hsize])
    (by rw [hsize]; decide) hwalk (fun addr _ _ => Iff.rfl) hstart
  refine ⟨w.regions, hend.canonical, hend.aligned, ?_, ?_⟩
  · ext x
    rw [hend.covers, mem_unusedAddrs, hsize]
  · intro α ε free out
    have hfrees : ∀ start, Frees free
        (findFreeRegionsIn record tables 3 pageTable (indices 256 511) start)
        (findFreeRegionsIn free tables 3 pageTable (indices 256 511) start) :=
      findFreeRegionsIn_frees tables 3 pageTable (indices 256 511)
    obtain ⟨new, hnew, hfree⟩ := hfrees _ _ _ hw
    obtain rfl : new = w.out := hnew.symm
    rw [hsize] at hfree
    cases hpending : w.pending with
    | none =>
        rw [hpending] at hfree
        simp only [initKernelVirtualAlloc, hfree, Walk.regions, hpending, bind_assoc, ok_bind,
          Option.toList_none, List.append_nil]
        exact bind_pure _
    | some p =>
        rw [hpending] at hfree
        simp only [initKernelVirtualAlloc, hfree, Walk.regions, hpending, bind_assoc, ok_bind,
          Option.toList_some, List.foldlM_append, List.foldlM_cons, List.foldlM_nil, bind_pure]

/-- The walk goes through tables in which every used entry is present. -/
theorem walkable_of_present {tables : ℕ → Fin 512 → Entry}
    (h : ∀ table i, tables table i ≠ .unused → (tables table i).flags.present = true)
    (height : ℕ) (range : List (Fin 512)) (table : ℕ) : Walkable tables height range table := by
  induction height generalizing range table with
  | zero => trivial
  | succ height ih => exact fun j _ hused _ => ⟨h table j hused, ih _ _⟩

/-- The flags of a huge page of the kernel. -/
def PageTableFlags.kernelHugePage : PageTableFlags := ⟨true, true, false, true, false, 0⟩

/-- Tables with entries of all kinds: below the slot `256` of the L4 table lie an L3, an L2 and
an L1 table. The first entries of the L3 and of the L2 table are huge pages, and every other
page of the L1 table is mapped. -/
def mixedTables (table : ℕ) (i : Fin 512) : Entry :=
  if table = 0 ∧ i = 256 then ⟨1, .kernelTable⟩
  else if table = 1 ∧ i = 0 then ⟨262144, .kernelHugePage⟩
  else if table = 1 ∧ i = 1 then ⟨2, .kernelTable⟩
  else if table = 2 ∧ i = 0 then ⟨512, .kernelHugePage⟩
  else if table = 2 ∧ i = 1 then ⟨3, .kernelTable⟩
  else if table = 3 ∧ i.val % 2 = 0 then ⟨4096 + i.val, .kernelTable⟩
  else .unused

/-- What the kernel frees there: not the huge pages and not the pages that are mapped, but the
pages between them and what lies above the tables. -/
theorem initKernelVirtualAlloc_frees_mixedTables :
    (∃ regions : List VirtualAllocRegion, Canonical regions ∧
      (∀ r ∈ regions, isPageAligned r = true) ∧
      cover regions = unusedAddrs mixedTables 0 ∧
      ∀ {α ε : Type} (free : α → VirtualAllocRegion → Except ε α) (out : α),
        initKernelVirtualAlloc free mixedTables 0 out = regions.foldlM (callFree free) out) ∧
    0xffff800000000000 ∉ unusedAddrs mixedTables 0 ∧
    0xffff800040000000 ∉ unusedAddrs mixedTables 0 ∧
    0xffff800040200000 ∉ unusedAddrs mixedTables 0 ∧
    0xffff800040201000 ∈ unusedAddrs mixedTables 0 ∧
    0xffff800040400000 ∈ unusedAddrs mixedTables 0 ∧
    0xffff800080000000 ∈ unusedAddrs mixedTables 0 ∧
    0xffff810000000000 ∈ unusedAddrs mixedTables 0 := by
  have hused : ∀ x, ¬ UnderUnused mixedTables 3 0 x → x ∉ unusedAddrs mixedTables 0 :=
    fun x h hmem => h (mem_unusedAddrs.mp hmem).2
  refine ⟨initKernelVirtualAlloc_frees (walkable_of_present ?_ _ _ _), hused _ (by decide),
    hused _ (by decide), hused _ (by decide), mem_unusedAddrs.mpr ⟨by decide, by decide⟩,
    mem_unusedAddrs.mpr ⟨by decide, by decide⟩, mem_unusedAddrs.mpr ⟨by decide, by decide⟩,
    mem_unusedAddrs.mpr ⟨by decide, by decide⟩⟩
  intro table i h
  unfold mixedTables at h ⊢
  split_ifs at h ⊢ <;> simp_all [PageTableFlags.kernelTable, PageTableFlags.kernelHugePage]

/-! ### The kernel's virtual allocator -/

section KernelAllocator

variable {m : Virt.Mem} {L : List (ℕ × List VirtualAllocRegion)} {r : VirtualAllocRegion}

/-- Freeing a region above all free ones adds it to them: it goes to the last page, so that no
page is made between two. -/
theorem free_above (h : Virt.Represents m L) (hg : Virt.Good L) (hal : isPageAligned r = true)
    (hr : r.1 < r.2) (habove : ∀ a ∈ Virt.regionsOf L, a.2 < r.1) :
    Virt.free m r = .error .outOfFrames ∨
    ∃ m' L', Virt.free m r = .ok m' ∧ Virt.Represents m' L' ∧ Virt.Good L' ∧
      cover (Virt.regionsOf L') = cover (Virt.regionsOf L) ∪ Set.Ico r.1 r.2 := by
  have hdis : Disjoint (Set.Ico r.1 r.2) (cover (Virt.regionsOf L)) := by
    rw [Set.disjoint_left]
    rintro x ⟨hge, -⟩ ⟨a, ha, -, hlt⟩
    have := habove a ha
    omega
  refine Virt.free_good h hg hal hr.le hdis ?_
  rcases eq_or_ne L [] with rfl | hL
  · rw [Virt.freeOpens, h.head]
    rfl
  · obtain ⟨p₀, A, p, rs, B, hhead, rfl, hfind, -, hafter⟩ :=
      Virt.findPage_head (r := r) h hL hg.sound
    have hB : B = [] := by
      rcases B with _ | ⟨⟨q, qs⟩, B⟩
      · rfl
      · exfalso
        obtain ⟨y, ys, rfl⟩ := List.exists_cons_of_ne_nil
          (hg.sound.filled_after (q, qs) List.mem_cons_self)
        have hlast := hafter y (by simp)
        have hfirst := habove y (by simp)
        have hcan := hg.canonical.1 y (by simp)
        omega
    subst hB
    have hnext : m.next p = none := h.focus.2.1
    simp [Virt.freeOpens, hhead, hfind, Virt.opensBetween, hnext]

/-- Freeing canonical regions above all free ones adds all of them. -/
theorem freeAll_represents {regions : List VirtualAllocRegion} (h : Virt.Represents m L)
    (hg : Virt.Good L) (hal : ∀ r ∈ regions, isPageAligned r = true) (hcan : Canonical regions)
    (habove : ∀ a ∈ Virt.regionsOf L, ∀ b ∈ regions, a.2 < b.1) :
    regions.foldlM (callFree Virt.free) m = .error (.free .outOfFrames) ∨
    ∃ m' L', regions.foldlM (callFree Virt.free) m = .ok m' ∧ Virt.Represents m' L' ∧
      Virt.Good L' ∧ cover (Virt.regionsOf L') = cover (Virt.regionsOf L) ∪ cover regions := by
  induction regions generalizing m L with
  | nil => exact .inr ⟨m, L, rfl, h, hg, by simp⟩
  | cons r regions ih =>
      obtain ⟨hr, hbelow, hcan⟩ := (canonical_cons _ _).mp hcan
      rcases free_above h hg (hal r List.mem_cons_self) hr
          fun a ha => habove a ha r List.mem_cons_self with
        herr | ⟨m₁, L₁, hok, h₁, hg₁, hcover⟩
      · left
        rw [List.foldlM_cons, callFree, herr]
        rfl
      · have habove₁ : ∀ a ∈ Virt.regionsOf L₁, ∀ b ∈ regions, a.2 < b.1 := by
          intro a ha b hb
          -- the last point of a free region is free, and below what is yet to be freed
          have hpos := hg₁.canonical.1 a ha
          have hmem : a.2 - 1 ∈ cover (Virt.regionsOf L₁) := ⟨a, ha, by omega, by omega⟩
          rw [hcover] at hmem
          have hrb := hbelow b hb
          rcases hmem with ⟨c, hc, -, hlt⟩ | ⟨-, hlt⟩
          · have := habove c hc b (List.mem_cons_of_mem _ hb)
            omega
          · omega
        rcases ih h₁ hg₁ (fun r hr => hal r (List.mem_cons_of_mem _ hr)) hcan habove₁ with
          herr | ⟨m', L', hok', h', hg', hcover'⟩
        · left
          rw [List.foldlM_cons, callFree, hok]
          exact herr
        · refine .inr ⟨m', L', ?_, h', hg', ?_⟩
          · rw [List.foldlM_cons, callFree, hok]
            exact hok'
          · rw [hcover', hcover, cover_cons, Set.union_assoc]

/-- **The kernel's virtual allocator starts with the unused addresses**, unless there is no frame
for its pages. -/
theorem initKernelVirtualAlloc_represents {tables : ℕ → Fin 512 → Entry} {pageTable : ℕ}
    (hwalk : Walkable tables 3 (indices 256 511) pageTable) (h : Virt.Represents m [])
    (hg : Virt.Good []) :
    initKernelVirtualAlloc Virt.free tables pageTable m = .error (.free .outOfFrames) ∨
    ∃ m' L, initKernelVirtualAlloc Virt.free tables pageTable m = .ok m' ∧
      Virt.Represents m' L ∧ Virt.Good L ∧
      cover (Virt.regionsOf L) = unusedAddrs tables pageTable := by
  obtain ⟨regions, hcan, hal, hcover, hall⟩ := initKernelVirtualAlloc_frees hwalk
  rw [hall]
  rcases freeAll_represents h hg hal hcan fun a ha => nomatch ha with
    herr | ⟨m', L, hok, h', hg', hcover'⟩
  · exact .inl herr
  · refine .inr ⟨m', L, hok, h', hg', ?_⟩
    rw [hcover', hcover]
    simp

end KernelAllocator

end HydroxKernel.Page
