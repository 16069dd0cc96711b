import HydroxKernel.Mem.VirtRuns

/-!
# Iterating over Free Regions

`free_regions` goes along the pages of the allocator and gives their regions one after another.
The iterator is a page and an index in it, and it ends with the last page.

## Main results

* `collect_spec`: what the iterator gives over a list of pages.
* `free_regions_canonical`: in every reached state, the iterator gives the free set as the only
  list of regions that are increasing and neither overlap nor touch.
-/

namespace HydroxKernel.Virt

open Links Intervals

/-- The panics of the iterator. -/
inductive IterPanic
  /-- `len() - 1` of an empty page. -/
  | overflow
  | indexOutOfBounds
  deriving DecidableEq

/-- `VirtualAllocatorRegionIter`. -/
abbrev VirtualAllocatorRegionIter := Option ℕ × ℕ

/-- `VirtualAllocator::free_regions`. -/
def freeRegions (m : Mem) : VirtualAllocatorRegionIter :=
  match m.head with
  | none => (none, 0)
  | some p => if (m.regions p).isEmpty then (none, 0) else (some p, 0)

/-- `VirtualAllocatorRegionIter::next`. -/
def nextRegion (m : Mem) (it : VirtualAllocatorRegionIter) :
    Except IterPanic (Option VirtualAllocRegion × VirtualAllocatorRegionIter) :=
  match it with
  | (none, idx) => .ok (none, (none, idx))
  | (some page, oldIdx) =>
      if m.len page = 0 then .error .overflow
      else
        let it := if oldIdx = m.len page - 1 then (m.next page, 0) else (some page, oldIdx + 1)
        match (m.regions page)[oldIdx]? with
        | none => .error .indexOutOfBounds
        | some r => .ok (some r, it)

/-- The regions that the iterator gives until it ends, if it does so in `fuel` calls. -/
def collect (m : Mem) :
    ℕ → VirtualAllocatorRegionIter → Except IterPanic (Option (List VirtualAllocRegion))
  | 0, _ => .ok none
  | fuel + 1, it =>
      match nextRegion m it with
      | .error why => .error why
      | .ok (none, _) => .ok (some [])
      | .ok (some r, it) => (collect m fuel it).map (Option.map (r :: ·))

/-! ### The regions of a list of pages -/

variable {m : Mem}

/-- **The iterator** at an index of a page gives the regions from there on, and then those of the
pages behind. -/
theorem collect_page {p : ℕ} {rs : List VirtualAllocRegion} {fuel : ℕ}
    {l : List VirtualAllocRegion} (hrest : collect m fuel (m.next p, 0) = .ok (some l)) (idx : ℕ)
    (hregions : (m.regions p).drop idx = rs) (hne : rs ≠ []) :
    collect m (fuel + rs.length) (some p, idx) = .ok (some (rs ++ l)) := by
  induction rs generalizing idx with
  | nil => exact absurd rfl hne
  | cons r rs ih =>
      have hlt : idx < m.len p := by
        refine Nat.lt_of_not_le fun hle => ?_
        rw [List.drop_eq_nil_of_le hle] at hregions
        cases hregions
      have hget : (m.regions p)[idx]? = some r := by
        rw [← List.head?_drop, hregions, List.head?_cons]
      have hdrop : (m.regions p).drop (idx + 1) = rs := by
        rw [← List.tail_drop, hregions, List.tail_cons]
      have hlength := congrArg List.length hdrop
      rw [List.length_drop] at hlength
      rw [List.length_cons, ← Nat.add_assoc, collect, nextRegion]
      dsimp only
      rw [if_neg (Nat.ne_of_gt (Nat.zero_lt_of_lt hlt)), hget]
      dsimp only
      by_cases hlast : idx = m.len p - 1
      · have hnil : rs = [] := by
          refine List.length_eq_zero_iff.mp ?_
          rw [← hlength]
          rw [Mem.len] at hlast hlt
          omega
        subst hnil
        rw [if_pos hlast, List.length_nil, Nat.add_zero, hrest]
        rfl
      · have hne' : rs ≠ [] := by
          rintro rfl
          rw [List.length_nil] at hlength
          rw [Mem.len] at hlast hlt
          omega
        rw [if_neg hlast, ih (idx + 1) hdrop hne']
        rfl

/-- **The iterator** at the first of a list of pages that are not empty gives the regions of all of
them. -/
theorem collect_spec {o : Option ℕ} {ps : List ℕ} (hchain : Chain m.next o ps none)
    (hfilled : ∀ p ∈ ps, m.regions p ≠ []) :
    collect m ((ps.flatMap m.regions).length + 1) (o, 0) = .ok (some (ps.flatMap m.regions)) := by
  induction ps generalizing o with
  | nil =>
      obtain rfl : o = none := hchain
      rfl
  | cons p ps ih =>
      obtain ⟨rfl, hchain⟩ := hchain
      obtain ⟨hp, hps⟩ := List.forall_mem_cons.mp hfilled
      have hfuel : (List.flatMap m.regions (p :: ps)).length + 1 =
          (ps.flatMap m.regions).length + 1 + (m.regions p).length := by
        rw [List.flatMap_cons, List.length_append]
        omega
      rw [hfuel]
      exact collect_page (ih hchain hps) 0 rfl hp

/-- More calls give the same regions. -/
theorem collect_mono {fuel fuel' : ℕ} {it : VirtualAllocatorRegionIter}
    {l : List VirtualAllocRegion} (h : collect m fuel it = .ok (some l)) (hle : fuel ≤ fuel') :
    collect m fuel' it = .ok (some l) := by
  induction fuel generalizing fuel' it l with
  | zero => cases h
  | succ fuel ih =>
      obtain ⟨k, rfl⟩ := Nat.exists_eq_add_of_le' hle
      rw [← Nat.add_assoc, collect]
      rw [collect] at h
      split at h
      · cases h
      · exact h
      · rename_i r it' hnext
        cases hcollect : collect m fuel it' with
        | error why =>
            rw [hcollect] at h
            cases h
        | ok o =>
            cases o with
            | none =>
                rw [hcollect] at h
                cases h
            | some rs =>
                rw [hcollect] at h
                rw [ih hcollect (Nat.le_add_left fuel k)]
                exact h

/-- The iterator of a well-formed allocator gives all its regions. -/
theorem WellFormed.collect {S : Set ℕ} {ps : List ℕ} (h : WellFormed m S ps) :
    Virt.collect m ((ps.flatMap m.regions).length + 1) (freeRegions m) =
      .ok (some (ps.flatMap m.regions)) := by
  have hchain := h.chain
  rw [freeRegions]
  cases ps with
  | nil =>
      have hhead : m.head = none := hchain
      rw [hhead]
      rfl
  | cons p ps =>
      have hhead : m.head = some p := hchain.1
      rw [hhead]
      dsimp only
      by_cases hempty : m.regions p = []
      · obtain ⟨-, rfl⟩ := List.cons.inj (h.filled p List.mem_cons_self hempty)
        rw [List.flatMap_singleton, hempty]
        rfl
      · rw [if_neg (by rw [List.isEmpty_iff]; exact hempty), ← hhead]
        refine collect_spec hchain fun q hq hnil => ?_
        have hlone := h.filled q hq hnil
        obtain ⟨rfl, -⟩ := List.cons.inj hlone
        exact hempty hnil

/-- **Free regions**: in every state that a run reaches in which no operation opens a page between
two others or overshoots, the iterator does not panic, it ends, and it gives the regions of the free
set in increasing order, none of them empty, and no two overlapping or touching. There is only one
such list, so that it does not matter how the free set came about. -/
theorem free_regions_canonical {pages : ℕ → VirtualAllocPage} {frames : List ℕ} {ops : List Op}
    {t : VState} (hnd : frames.Nodup)
    (hrun : Runs SafeStep ⟨Mem.new pages frames, ∅⟩ ops t) :
    ∃ l, Canonical l ∧ cover l = t.free ∧ (∀ l', Canonical l' → cover l' = t.free → l' = l) ∧
      ∀ fuel, l.length < fuel → collect t.mem fuel (freeRegions t.mem) = .ok (some l) := by
  obtain ⟨ps, hwf⟩ := (inv_of_runs hnd hrun).wellFormed
  refine ⟨ps.flatMap t.mem.regions, hwf.canonical, hwf.cover_eq, fun l' hl' hcover => ?_,
    fun fuel hfuel => collect_mono hwf.collect hfuel⟩
  exact eq_of_cover_eq hl' hwf.canonical (hcover.trans hwf.cover_eq.symm)

/-- Two pages are filled, and then taken from. -/
theorem free_regions_canonical_twoPages :
    ∃ s t l, s.mem.head = some 4096 ∧ s.mem.next 4096 = some 8192 ∧
      Runs SafeStep s [.alloc 4096, .reserve (down 0)] t ∧ Canonical l ∧ cover l = t.free ∧
      collect t.mem (l.length + 1) (freeRegions t.mem) = .ok (some l) := by
  obtain ⟨s, t, hfrees, hhead, hnext, htakes⟩ := exists_runs_twoPages
  obtain ⟨l, hl, hcover, -, hcollect⟩ :=
    free_regions_canonical (by decide) (hfrees.trans htakes)
  exact ⟨s, t, l, hhead, hnext, htakes, hl, hcover, hcollect _ (Nat.lt_succ_self _)⟩

end HydroxKernel.Virt
