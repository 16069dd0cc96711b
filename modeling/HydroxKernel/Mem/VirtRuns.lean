import HydroxKernel.Lib.Assert
import HydroxKernel.Lib.Runs
import HydroxKernel.Mem.VirtFree
import HydroxKernel.Mem.VirtTake

/-!
# Runs of the Virtual Memory Allocator

The allocator is run together with the set of free addresses it stands for: `free` adds
its region to the set, `alloc` and a successful `reserve` take theirs out. The rest of
the kernel may take frames from the frame allocator and give frames back between two
operations.

`split` does not correct the `prev` link of the page that follows a page it inserts, and `alloc`
does not check the sum at which it cuts a region. `Breaks` singles out, in the state before it, an
operation that makes such a split, or cuts a region at an address outside of it.

## Main results

* `wellFormed_of_runs`: as long as no operation does so, the page list is well formed, stands for
  the free set, and no internal assertion fails.
* `runs_not_wellFormed`: freeing 382 regions in decreasing order opens one, and leaves a
  page whose `prev` skips its predecessor.
-/

namespace HydroxKernel.Virt

open Links Intervals

/-- The allocator with the set of addresses that are free. -/
structure VState where
  mem : Mem
  free : Set ℕ

/-- The operations of a run. `kernel` is what the rest of the kernel does to memory and to
the frame allocator between two operations of the allocator. -/
inductive Op
  | free (region : VirtualAllocRegion)
  | alloc (size : ℕ)
  | reserve (region : VirtualAllocRegion)
  | kernel (pages : ℕ → VirtualAllocPage) (frames : List ℕ)

/-- What callers promise: regions are made by `VirtualAllocRegion::new`, `free` is given
page-aligned regions of which nothing is free, and the rest of the kernel neither writes to
a page of the allocator nor frees one. -/
def Permitted (s : VState) : Op → Prop
  | .free r => isPageAligned r = true ∧ r.1 ≤ r.2 ∧ Disjoint (Set.Ico r.1 r.2) s.free
  | .alloc _ => True
  | .reserve r => r.1 ≤ r.2
  | .kernel pages frames => frames.Nodup ∧
      ∀ l, Chain s.mem.next s.mem.head l none → ∀ p ∈ l, pages p = s.mem.pages p ∧ p ∉ frames

/-- Performs an operation, and keeps track of the free set. -/
def exec (s : VState) : Op → Except Panic VState
  | .free r => do
      let m ← free s.mem r
      .ok ⟨m, s.free ∪ Set.Ico r.1 r.2⟩
  | .alloc size => do
      let (o, m) ← alloc s.mem size
      .ok ⟨m, s.free \ taken o⟩
  | .reserve r => do
      let (b, m) ← reserve s.mem r
      .ok ⟨m, if b then s.free \ Set.Ico r.1 r.2 else s.free⟩
  | .kernel pages frames => .ok ⟨{ s.mem with pages := pages, frames := frames }, s.free⟩

/-- A call of `free` that returns. -/
theorem exec_free {s : VState} {r : VirtualAllocRegion} {m : Mem} (h : free s.mem r = .ok m) :
    exec s (.free r) = .ok ⟨m, s.free ∪ Set.Ico r.1 r.2⟩ := by
  simp only [exec, h, bind, Except.bind]

/-- A permitted operation that returns. -/
def Step (s : VState) (op : Op) (t : VState) : Prop := Permitted s op ∧ exec s op = .ok t

/-- The operation splits a page so that a new page comes between two pages, or cuts a region at an
address that is not inside of it. -/
def Breaks (s : VState) : Op → Bool
  | .free r => freeOpens s.mem r
  | .reserve r => reserveOpens s.mem r
  | .alloc size => allocOvershoots s.mem size
  | .kernel _ _ => false

/-- A permitted operation that returns, and does neither. -/
def SafeStep (s : VState) (op : Op) (t : VState) : Prop := Step s op t ∧ Breaks s op = false

/-- The panics that no caller is responsible for: all but a misaligned argument, a sum that is no
address, and the lack of a frame. -/
def Panic.internal : Panic → Bool
  | .unaligned => false
  | .nonCanonical => false
  | .outOfFrames => false
  | _ => true

/-- The allocator is well formed, with the pages `l`, and stands for the set `S`. -/
structure WellFormed (m : Mem) (S : Set ℕ) (l : List ℕ) : Prop where
  /-- Following `next` from the head visits the pages and ends. -/
  chain : Chain m.next m.head l none
  /-- The page after a page points back to it. -/
  prev_next : ∀ p ∈ l, ∀ q, m.next p = some q → m.prev q = some p
  /-- Nothing is before the head. -/
  prev_head : ∀ p, m.head = some p → m.prev p = none
  /-- Only a lone head is empty. -/
  filled : ∀ p ∈ l, m.regions p = [] → l = [p]
  /-- Every page holds at most `REGIONS_PER_PAGE` regions. -/
  fits : ∀ p ∈ l, m.len p ≤ regionsPerPage
  /-- The regions are non-empty, increasing, and neither overlap nor touch. -/
  canonical : Canonical (l.flatMap m.regions)
  /-- The regions cover the free set. -/
  cover_eq : cover (l.flatMap m.regions) = S

/-- The invariant of a run. -/
def Inv (s : VState) : Prop :=
  ∃ L, Represents s.mem L ∧ Good L ∧ cover (regionsOf L) = s.free

/-- The invariant says that the allocator is well formed. -/
theorem Inv.wellFormed {s : VState} (h : Inv s) : ∃ l, WellFormed s.mem s.free l := by
  obtain ⟨L, h, hg, hcov⟩ := h
  refine ⟨ptrs L, ?_, ?_, ?_, ?_, ?_, ?_, ?_⟩
  · exact h.chain
  · intro p hp q hq
    exact h.seg.prev_of_next hp (by simp) hq
  · intro p hp
    cases L with
    | nil => simp [h.head] at hp
    | cons e L =>
        obtain rfl : e.1 = p := by simpa [h.head] using hp
        exact h.seg.1
  · intro p hp hnil
    obtain ⟨e, he, rfl⟩ := List.mem_map.mp hp
    rw [h.regions e he] at hnil
    rcases hg.filled with hlen | hfill
    · obtain ⟨e', rfl⟩ := List.length_eq_one_iff.mp
        (le_antisymm hlen (List.length_pos_of_mem he))
      rw [List.mem_singleton.mp he]
      rfl
    · exact absurd hnil (hfill e he)
  · intro p hp
    obtain ⟨e, he, rfl⟩ := List.mem_map.mp hp
    rw [Mem.len, h.regions e he]
    exact hg.fits e he
  · rw [h.flatMap_regions]
    exact hg.canonical
  · rw [h.flatMap_regions, hcov]

/-- The empty allocator. -/
theorem inv_new {pages : ℕ → VirtualAllocPage} {frames : List ℕ} (hnd : frames.Nodup) :
    Inv ⟨Mem.new pages frames, ∅⟩ :=
  ⟨[], ⟨rfl, by simp, by simp, hnd, by simp, rfl⟩, ⟨by simp [Fits], Or.inl (by simp), by simp⟩,
    by simp⟩

/-- The rest of the kernel does not disturb the allocator. -/
theorem Represents.kernel {m : Mem} {L : List (ℕ × List VirtualAllocRegion)}
    {pages : ℕ → VirtualAllocPage} {frames : List ℕ} (h : Represents m L) (hnd : frames.Nodup)
    (hkeep : ∀ p ∈ ptrs L, pages p = m.pages p ∧ p ∉ frames) :
    Represents { m with pages := pages, frames := frames } L where
  head := h.head
  seg := by
    refine (dseg_congr (fun x hx => ?_) (fun x hx => ?_)).mpr h.seg
    · simp only [Mem.prev, (hkeep x hx).1]
    · simp only [Mem.next, (hkeep x hx).1]
  regions := by
    intro e he
    have hpage := (hkeep e.1 (List.mem_map_of_mem he)).1
    simp only [Mem.regions, hpage]
    exact h.regions e he
  frames := hnd
  fresh := fun p hp => (hkeep p hp).2
  live := h.live

/-- **One operation** that opens no page and does not overshoot keeps the invariant, and can only
fail for a reason that lies outside the allocator. -/
theorem exec_inv {s : VState} {op : Op} (h : Inv s) (hp : Permitted s op)
    (hopen : Breaks s op = false) :
    (∃ e, exec s op = .error e ∧ e.internal = false) ∨ ∃ t, exec s op = .ok t ∧ Inv t := by
  have hwf := h
  obtain ⟨L, h, hg, hcov⟩ := h
  cases op with
  | free r =>
      obtain ⟨hal, hle, hdis⟩ := hp
      rcases free_good h hg hal hle (hcov ▸ hdis) hopen with herr | ⟨m', L', hf, h', hg', hcov'⟩
      · exact Or.inl ⟨.outOfFrames, by simp [exec, herr, bind, Except.bind], rfl⟩
      · refine Or.inr ⟨_, exec_free hf, L', h', hg', ?_⟩
        rw [hcov', hcov]
  | alloc size =>
      rcases alloc_good size h hg hopen with
        herr | herr | ⟨o, m', L', ha, h', hg', -, hcov'⟩
      · exact Or.inl ⟨.unaligned, by simp [exec, herr, bind, Except.bind], rfl⟩
      · exact Or.inl ⟨.nonCanonical, by simp [exec, herr, bind, Except.bind], rfl⟩
      · refine Or.inr ⟨_, by simp only [exec, ha, bind, Except.bind]; rfl, L', h', hg', ?_⟩
        rw [hcov', hcov]
  | reserve r =>
      by_cases hal : isPageAligned r = true
      · rcases reserve_good h hg hal hp hopen with
          herr | hno | ⟨m', L', hr, h', hg', -, hcov'⟩
        · exact Or.inl ⟨.outOfFrames, by simp [exec, herr, bind, Except.bind], rfl⟩
        · refine Or.inr ⟨_, by simp only [exec, hno, bind, Except.bind]; rfl, L, h, hg, ?_⟩
          simpa using hcov
        · refine Or.inr ⟨_, by simp only [exec, hr, bind, Except.bind]; rfl, L', h', hg', ?_⟩
          simp only [hcov', hcov, if_true]
      · exact Or.inl ⟨.unaligned, by simp [exec, reserve, hal, bind, Except.bind], rfl⟩
  | kernel pages frames =>
      obtain ⟨hnd, hkeep⟩ := hp
      have hchain := h.seg.chain
      rw [Option.or_none, ← h.head] at hchain
      exact Or.inr ⟨_, rfl, L, h.kernel hnd (hkeep _ hchain), hg, hcov⟩

/-- A safe step keeps the invariant. -/
theorem SafeStep.inv {s t : VState} {op : Op} (h : SafeStep s op t) (hs : Inv s) : Inv t := by
  obtain ⟨⟨hp, ht⟩, hopen⟩ := h
  rcases exec_inv hs hp hopen with ⟨e, he, -⟩ | ⟨t', ht', hinv⟩
  · rw [ht] at he
    cases he
  · rw [ht] at ht'
    exact Except.ok.inj ht' ▸ hinv

/-- A run of safe steps from the empty allocator reaches a state with the invariant. -/
theorem inv_of_runs {pages : ℕ → VirtualAllocPage} {frames : List ℕ} {ops : List Op} {t : VState}
    (hnd : frames.Nodup) (hrun : Runs SafeStep ⟨Mem.new pages frames, ∅⟩ ops t) : Inv t :=
  hrun.invariant (inv_new hnd) fun _ _ _ hs hstep => hstep.inv hs

/-! ### Freeing in decreasing order -/

section Decreasing

variable {m : Mem} {B : List (ℕ × List VirtualAllocRegion)} {p q n : ℕ}
  {rs qs : List VirtualAllocRegion} {r : VirtualAllocRegion}

/-- A region below all free regions belongs to the first page. -/
theorem findPage_front (h : Represents m ((p, rs) :: B)) (hg : Good ((p, rs) :: B))
    (hlow : ∀ q ∈ regionsOf ((p, rs) :: B), r.2 < q.1) :
    findPage m r (m.live + 1) p = .ok p := by
  have hA : Represents m ([] ++ (p, rs) :: B) := h
  obtain ⟨-, hfillB⟩ := Good.filled_around (A := []) hg
  have hnext := hA.focus.2.1
  cases B with
  | nil => simp [findPage, hnext]
  | cons e B =>
      obtain ⟨q, qs⟩ := e
      have hqr : m.regions q = qs := h.regions (q, qs) (by simp)
      obtain ⟨y, ys, rfl⟩ := List.exists_cons_of_ne_nil (hfillB (q, qs) (by simp))
      obtain ⟨z, hz⟩ : ∃ z, (y :: ys).getLast? = some z := by simp [List.getLast?_cons]
      have hrange := range_concat (List.head?_cons : (y :: ys).head? = some y) hz
      have hlt : ¬ r.2 ≥ y.1 := not_le.mpr (hlow y (by simp))
      have hnext' : m.next p = some q := by simp [hnext]
      simp [findPage, hnext', hqr, rangeUnwrap, hrange, hlt, bind, Except.bind]

/-- Freeing it opens no page if the first page has room, or is the only one. -/
theorem freeOpens_front (h : Represents m ((p, rs) :: B)) (hg : Good ((p, rs) :: B))
    (hlow : ∀ q ∈ regionsOf ((p, rs) :: B), r.2 < q.1)
    (hroom : rs.length < regionsPerPage ∨ B = []) : freeOpens m r = false := by
  have hA : Represents m ([] ++ (p, rs) :: B) := h
  have hhead : m.head = some p := by simp [h.head]
  have hopens : opensBetween m p = false := by
    rcases hroom with hroom | rfl
    · simp [opensBetween, Mem.len, hA.focus.2.2, hroom.ne]
    · have hnext : m.next p = none := by simpa using hA.focus.2.1
      simp [opensBetween, hnext]
  simp [freeOpens, hhead, findPage_front h hg hlow, hopens]

/-- A region below all free regions is inserted at the start of the first page. -/
theorem free_front (h : Represents m ((p, rs) :: B)) (hg : Good ((p, rs) :: B))
    (hal : isPageAligned r = true) (hr : r.1 < r.2)
    (hlow : ∀ q ∈ regionsOf ((p, rs) :: B), r.2 < q.1) :
    free m r = (insertNew m p 0 r).bind fun s => coalesce s.2.2 s.1 s.2.1 := by
  have hA : Represents m ([] ++ (p, rs) :: B) := h
  have hhead : m.head = some p := by simp [h.head]
  have hfirst : firstPage m = .ok (p, m) := by simp [firstPage, hhead]
  have hfind := findPage_front h hg hlow
  have hlen := regionSize_of_le hr.le
  have har : Around [] rs B r :=
    ⟨hr, by simp, fun x hx => Or.inr (hlow x (by simp [hx])).le,
      fun b hb => hlow b (by simp [hb]), Or.inl rfl⟩
  have hrs : Canonical rs := (canonical_append.mp hg.canonical).1
  have hsize : ¬ r.2 - r.1 = 0 := by omega
  rcases findIdxForRegionInsert_spec hA (Good.sound hg) (Good.not_meetsEmptyHead hg) har with
    ⟨X, x, Y, rfl, hx, -, -⟩ | ⟨X, Y, rfl, hX, -, hres⟩
  · have h1 := hlow x (by simp)
    have h2 := hrs.1 x (by simp)
    omega
  · cases X with
    | cons x X =>
        have h1 := hlow x (by simp)
        have h2 := hX x (by simp)
        have h3 := hrs.1 x (by simp)
        omega
    | nil =>
        have hplace : place m p r (.error 0) = insertNew m p 0 r := by
          refine place_error_insert (X := []) hA fun y hy heq => ?_
          have := hlow y (by simp [List.mem_of_mem_head? hy])
          omega
        simp [free, hal, hlen, hsize, hfirst, hfind, hres, hplace, bind, Except.bind]

/-- The list with one more region at its start. -/
theorem Good.push (hg : Good ((p, rs) :: B)) (hr : r.1 < r.2)
    (hlow : ∀ q ∈ regionsOf ((p, rs) :: B), r.2 < q.1) (hroom : rs.length < regionsPerPage) :
    Good ((p, r :: rs) :: B) := by
  refine (Good.replace (A := []) hg (by simp) ?_ ?_).2.2
  · exact hroom
  · simpa using ⟨hr, by simpa using hlow, hg.canonical⟩

/-- A region below all free regions, when the first page has room. -/
theorem free_front_of_room (h : Represents m ((p, rs) :: B)) (hg : Good ((p, rs) :: B))
    (hal : isPageAligned r = true) (hr : r.1 < r.2)
    (hlow : ∀ q ∈ regionsOf ((p, rs) :: B), r.2 < q.1) (hroom : rs.length < regionsPerPage) :
    free m r = .ok (m.setRegions p (r :: rs)) := by
  have hA : Represents m ([] ++ (p, rs) :: B) := h
  have hregs := hA.focus.2.2
  have hne : ¬ m.len p = regionsPerPage := by
    rw [Mem.len, hregs]
    omega
  have hg' := hg.push hr hlow hroom
  have hfill : Filled ([] ++ (p, r :: rs) :: B) := by
    simp only [List.nil_append, filled_cons]
    exact ⟨by simp, (Good.filled_around (A := []) hg).2⟩
  have hco := coalesce_of_canonical (m := m.setRegions p (r :: rs)) (o := none) (n := 0) 0
    (hA.setRegions (r :: rs)) (by simp) hfill hg'.canonical
  rw [free_front h hg hal hr hlow]
  simp [insertNew, insertRegion, hne, hregs, hco, bind, Except.bind]

/-- A full first page gives its upper half to a new page. -/
theorem split_front (h : Represents m ((p, rs) :: B)) (hlen : rs.length = regionsPerPage)
    (hB : ∀ q, m.next p = some q → ¬ m.len q < regionsPerPage / 4) :
    split m p 0 = (split.linkNewPage p m).bind fun s =>
      .ok (.this 0, (s.2.setRegions s.1 (rs.drop splitPoint ++ s.2.regions s.1)).setRegions p
        (rs.take splitPoint)) := by
  have hA : Represents m ([] ++ (p, rs) :: B) := h
  obtain ⟨hprev, -, hregs⟩ := hA.focus
  have hprev' : m.prev p = none := by simpa using hprev
  have hlen' : m.len p = regionsPerPage := by rw [Mem.len, hregs, hlen]
  have hzero : ¬ 0 ≥ splitPoint := by simp [splitPoint_eq]
  rw [split, if_neg (by simpa using hlen'), hregs]
  simp only [hprev', split.splitNext, if_neg hzero]
  cases hnext : m.next p with
  | none => rfl
  | some q => simp only [if_neg (hB q hnext)]; rfl

/-- A region below all free regions, when the first page is full and gets a new page
behind it. -/
theorem free_front_of_full {m₁ : Mem} (h : Represents m ((p, rs) :: B)) (hg : Good ((p, rs) :: B))
    (hal : isPageAligned r = true) (hr : r.1 < r.2)
    (hlow : ∀ q ∈ regionsOf ((p, rs) :: B), r.2 < q.1) (hlen : rs.length = regionsPerPage)
    (hB : ∀ q, m.next p = some q → ¬ m.len q < regionsPerPage / 4)
    (hlink : split.linkNewPage p m = .ok (n, m₁)) (hprev : m₁.prev p = none) :
    free m r = .ok (((m₁.setRegions n (rs.drop splitPoint ++ m₁.regions n)).setRegions p
      (rs.take splitPoint)).setRegions p (r :: rs.take splitPoint)) := by
  have hA : Represents m ([] ++ (p, rs) :: B) := h
  have hfull : m.len p = regionsPerPage := by rw [Mem.len, hA.focus.2.2, hlen]
  have htake : (rs.take splitPoint).length = 127 := by
    rw [List.length_take, hlen]
    rfl
  set m₂ := (m₁.setRegions n (rs.drop splitPoint ++ m₁.regions n)).setRegions p
    (rs.take splitPoint) with hm₂
  have hregs₂ : m₂.regions p = rs.take splitPoint := by simp [hm₂]
  have hprev₂ : (m₂.setRegions p (r :: rs.take splitPoint)).prev p = none := by simp [hm₂, hprev]
  have hroom : ¬ m₂.len p = regionsPerPage := by
    rw [Mem.len, hregs₂, htake]
    decide
  have hlast : ¬ 0 = (m₂.setRegions p (r :: rs.take splitPoint)).len p - 1 := by
    simp [Mem.len, htake]
  have hins : insertNew m p 0 r = .ok (p, 0, m₂.setRegions p (r :: rs.take splitPoint)) := by
    simp only [insertNew, if_pos hfull, split_front h hlen hB, hlink, Except.bind, bind, ← hm₂,
      resolveSplit, insertRegion, if_neg hroom, hregs₂, List.insertIdx_zero]
  rw [free_front h hg hal hr hlow, hins]
  simp [Except.bind, coalesce, hprev₂, hlast, bind]

/-- What `split` does to the links when it puts a new page behind the first one. -/
theorem linkNewPage_links {fs : List ℕ} (hfs : m.frames = n :: fs) (hnp : n ≠ p) :
    ∃ m₁, split.linkNewPage p m = .ok (n, m₁) ∧ m₁.head = m.head ∧ m₁.next p = some n ∧
      m₁.next n = m.next p ∧ ∀ x, x ≠ n → m₁.prev x = m.prev x := by
  refine ⟨_, by simp only [split.linkNewPage, newPage, hfs, bind, Except.bind]; rfl, ?_⟩
  refine ⟨rfl, by simp, by simp [hnp], fun x hx => ?_⟩
  rw [setNext_prev, setNext_prev, setPrev_prev, Function.update_of_ne hx]
  simp [Mem.prev, Function.update_of_ne hx]

/-- The `k`-th of the regions that are freed in decreasing order. -/
def down (k : ℕ) : VirtualAllocRegion := (8192 * k + 4096, 8192 * (k + 1))

/-- The first page holds `len` regions, and no address up to `8192 * k` is free. -/
def Low (s : VState) (p k len : ℕ) (B : List (ℕ × List VirtualAllocRegion)) : Prop :=
  ∃ rs, Represents s.mem ((p, rs) :: B) ∧ Good ((p, rs) :: B) ∧
    cover (regionsOf ((p, rs) :: B)) = s.free ∧ rs.length = len ∧
    ∀ q ∈ regionsOf ((p, rs) :: B), 8192 * k < q.1

/-- Regions above are above the next region of the example. -/
theorem lt_of_low {l : List VirtualAllocRegion} {k : ℕ} (h : ∀ q ∈ l, 8192 * (k + 1) < q.1) :
    ∀ q ∈ l, (down k).2 < q.1 := by
  intro q hq
  simpa only [down] using h q hq

/-- The next region of the example is above those that follow. -/
theorem low_down {l : List VirtualAllocRegion} {k : ℕ} (h : ∀ q ∈ l, 8192 * (k + 1) < q.1) :
    ∀ q ∈ down k :: l, 8192 * k < q.1 := by
  intro q hq
  rcases List.mem_cons.mp hq with rfl | hq
  · simp only [down]
    omega
  · have := h q hq
    omega

/-- The regions of the example are aligned. -/
theorem down_aligned (k : ℕ) : isPageAligned (down k) = true := by
  have h1 : (8192 * k + 4096) % 4096 = 0 := by omega
  have h2 : 8192 * (k + 1) % 4096 = 0 := by omega
  simp [isPageAligned, down, pageSize, h1, h2]

/-- The regions of the example are not empty. -/
theorem down_lt (k : ℕ) : (down k).1 < (down k).2 := by
  simp only [down]
  omega

/-- A region below what is free may be freed. -/
theorem down_permitted {s : VState} {l : List VirtualAllocRegion} {k : ℕ} (hs : cover l = s.free)
    (hlow : ∀ q ∈ l, (down k).2 < q.1) : Permitted s (.free (down k)) := by
  refine ⟨down_aligned k, (down_lt k).le, ?_⟩
  rw [← hs, Set.disjoint_left]
  rintro a ⟨-, ha⟩ ⟨q, hq, hqa, -⟩
  have := hlow q hq
  omega

/-- Freeing the next region below, when the first page has room. -/
theorem Low.push {s : VState} {k len : ℕ} (h : Low s p (k + 1) len B)
    (hlen : len < regionsPerPage) :
    ∃ t, SafeStep s (.free (down k)) t ∧ Low t p k (len + 1) B ∧
      t.mem.frames = s.mem.frames := by
  obtain ⟨rs, hr, hg, hcov, rfl, hlow⟩ := h
  have hlow' := lt_of_low hlow
  have hfree := free_front_of_room hr hg (down_aligned k) (down_lt k) hlow' hlen
  refine ⟨⟨s.mem.setRegions p (down k :: rs), s.free ∪ Set.Ico (down k).1 (down k).2⟩,
    ⟨⟨down_permitted hcov hlow', exec_free hfree⟩, freeOpens_front hr hg hlow' (.inl hlen)⟩,
    ⟨down k :: rs, ?_, ?_, ?_, by simp, ?_⟩, rfl⟩
  · exact Represents.setRegions (A := []) hr (down k :: rs)
  · exact hg.push (down_lt k) hlow' hlen
  · rw [← hcov]
    simp only [regionsOf_cons, List.cons_append, cover_cons]
    rw [Set.union_comm]
  · have hdown := low_down hlow
    simpa only [regionsOf_cons, List.cons_append] using hdown

/-- Freeing `j` regions in decreasing order, down to the `k`-th. -/
def frees (k : ℕ) : ℕ → List Op
  | 0 => []
  | j + 1 => .free (down (k + j)) :: frees k j

/-- Freeing regions in decreasing order until the first page is as full as wanted. -/
theorem Low.pushes {k len : ℕ} (j : ℕ) {s : VState} (h : Low s p (k + j) len B)
    (hlen : len + j ≤ regionsPerPage) :
    ∃ t, Runs SafeStep s (frees k j) t ∧ Low t p k (len + j) B ∧
      t.mem.frames = s.mem.frames := by
  induction j generalizing s len with
  | zero => exact ⟨s, .refl, h, rfl⟩
  | succ j ih =>
      obtain ⟨u, hu, hlow, hframes⟩ := Low.push (k := k + j) h (by omega)
      obtain ⟨t, ht, hlow', hframes'⟩ := ih hlow (by omega)
      refine ⟨t, Runs.cons hu ht, ?_, hframes'.trans hframes⟩
      rwa [Nat.add_right_comm] at hlow'

/-- Freeing the first region of an empty allocator. -/
theorem low_first (pages : ℕ → VirtualAllocPage) {fs : List ℕ} (k : ℕ) (hnd : (n :: fs).Nodup) :
    ∃ t, SafeStep ⟨Mem.new pages (n :: fs), ∅⟩ (.free (down k)) t ∧ Low t n k 1 [] ∧
      t.mem.frames = fs := by
  let m₁ : Mem := ⟨some n, Function.update pages n ⟨none, none, []⟩, fs, 1⟩
  have hfirst : firstPage (Mem.new pages (n :: fs)) = .ok (n, m₁) := rfl
  rw [List.nodup_cons] at hnd
  have h₁ : Represents m₁ [(n, [])] := by
    refine ⟨rfl, ?_, ?_, hnd.2, ?_, rfl⟩
    · simp [m₁, Mem.prev, Mem.next]
    · simp [m₁, Mem.regions]
    · simpa using hnd.1
  have hg₁ : Good [(n, ([] : List VirtualAllocRegion))] :=
    ⟨by simp [Fits], Or.inl (by simp), by simp⟩
  have hlow₁ : Low ⟨m₁, ∅⟩ n (k + 1) 0 [] := ⟨[], h₁, hg₁, by simp, rfl, by simp⟩
  obtain ⟨t, ⟨⟨hp, hstep⟩, -⟩, hlow, hframes⟩ := hlow₁.push (by decide)
  -- the new page is made first, then everything goes on as with a page that was there
  have hsame : free (Mem.new pages (n :: fs)) (down k) = free m₁ (down k) := by
    have hfirst₁ : firstPage m₁ = .ok (n, m₁) := rfl
    obtain ⟨size, hlen, hsize⟩ : ∃ size, regionSize (down k) = .ok size ∧ ¬ size = 0 :=
      ⟨_, regionSize_of_le (down_lt k).le, Nat.sub_ne_zero_of_lt (down_lt k)⟩
    simp only [free, hfirst, hfirst₁, hlen, ok_bind, if_neg hsize]
  refine ⟨t, ⟨⟨hp, ?_⟩, rfl⟩, hlow, hframes⟩
  simpa only [exec, hsame] using hstep

/-- Freeing the next region below, when the only page is full. -/
theorem Low.split_last {s : VState} {k : ℕ} {fs : List ℕ} (h : Low s p (k + 1) regionsPerPage [])
    (hfs : s.mem.frames = n :: fs) :
    ∃ t qs, SafeStep s (.free (down k)) t ∧ Low t p k 128 [(n, qs)] ∧ qs.length = 127 ∧
      t.mem.frames = fs := by
  obtain ⟨rs, hr, hg, hcov, hlen, hlow⟩ := h
  have hlow' := lt_of_low hlow
  have hA : Represents s.mem ([] ++ [(p, rs)]) := hr
  have hnp : n ≠ p := fun heq => hr.fresh p (by simp) (by simp [hfs, heq])
  have hnone : s.mem.next p = none := by simpa using hA.focus.2.1
  obtain ⟨n', m₁, hlink, h₁⟩ := linkNewPage_represents hA (by simp [hfs])
  have hlink' : n' = n ∧ m₁.frames = fs := by
    simp only [split.linkNewPage, newPage, hfs, bind, Except.bind] at hlink
    obtain ⟨rfl, rfl⟩ := Prod.mk.inj (Except.ok.inj hlink)
    exact ⟨rfl, rfl⟩
  obtain ⟨rfl, hframes⟩ := hlink'
  have hprev₁ : m₁.prev p = none := by simpa using h₁.focus.1
  have hregs₁ : m₁.regions n' = [] := h₁.regions (n', []) (by simp)
  have hfree := free_front_of_full hr hg (down_aligned k) (down_lt k) hlow' hlen
    (by simp [hnone]) hlink hprev₁
  rw [hregs₁, List.append_nil] at hfree
  have hsplit : rs.take splitPoint ++ rs.drop splitPoint = rs := List.take_append_drop _ _
  have htake : (rs.take splitPoint).length = 127 ∧ (rs.drop splitPoint).length = 127 := by
    rw [List.length_take, List.length_drop, hlen]
    exact ⟨rfl, rfl⟩
  have hregs : regionsOf [(p, down k :: rs.take splitPoint), (n', rs.drop splitPoint)] =
      down k :: regionsOf [(p, rs)] := by simp [hsplit]
  refine ⟨⟨_, s.free ∪ Set.Ico (down k).1 (down k).2⟩, rs.drop splitPoint,
    ⟨⟨down_permitted hcov hlow', exec_free hfree⟩, freeOpens_front hr hg hlow' (.inr rfl)⟩,
    ⟨down k :: rs.take splitPoint, ?_, ⟨?_, Or.inr ?_, ?_⟩, ?_, by simp [htake.1], ?_⟩, htake.2,
    by simpa using hframes⟩
  · have h₂ := Represents.setRegions (A := [(p, rs)]) (by simpa using h₁) (rs.drop splitPoint)
    have h₃ := Represents.setRegions (A := []) h₂ (rs.take splitPoint)
    exact Represents.setRegions (A := []) h₃ (down k :: rs.take splitPoint)
  · simp [Fits, htake.1, htake.2, regionsPerPage_eq]
  · have hne : rs.drop splitPoint ≠ [] := fun hnil => by simp [hnil] at htake
    simp [Filled, hne]
  · rw [hregs, canonical_cons]
    exact ⟨down_lt k, hlow', hg.canonical⟩
  · rw [hregs, cover_cons, hcov]
    exact Set.union_comm _ _
  · rw [hregs]
    exact low_down hlow

/-- Freeing the next region below, when the first page is full and the page after it has
no room: the page after it keeps pointing back to the first page. -/
theorem Low.split_between {s : VState} {k : ℕ} {fs : List ℕ}
    (h : Low s p (k + 1) regionsPerPage ((q, qs) :: B)) (hqs : regionsPerPage / 4 ≤ qs.length)
    (hfs : s.mem.frames = n :: fs) :
    ∃ t, Step s (.free (down k)) t ∧ ¬ ∃ l, WellFormed t.mem t.free l := by
  obtain ⟨rs, hr, hg, hcov, hlen, hlow⟩ := h
  have hlow' := lt_of_low hlow
  have hA : Represents s.mem ([] ++ (p, rs) :: (q, qs) :: B) := hr
  have hfresh : ∀ x ∈ ptrs ((p, rs) :: (q, qs) :: B), x ≠ n :=
    fun x hx heq => hr.fresh x hx (by simp [hfs, heq])
  have hpn : p ≠ n := hfresh p (by simp)
  have hqn : q ≠ n := hfresh q (by simp)
  have hsome : s.mem.next p = some q := by simpa using hA.focus.2.1
  have hqlen : s.mem.len q = qs.length := by rw [Mem.len, hr.regions (q, qs) (by simp)]
  obtain ⟨m₁, hlink, hhead₁, hnextp, hnextn, hprev₁⟩ := linkNewPage_links hfs hpn.symm
  have hprevp : m₁.prev p = none := by
    rw [hprev₁ p hpn]
    simpa using hA.focus.1
  have hprevq : m₁.prev q = some p := by
    rw [hprev₁ q hqn]
    exact hr.seg.2.2.1
  have hfree := free_front_of_full hr hg (down_aligned k) (down_lt k) hlow' hlen
    (fun q' hq' => by
      obtain rfl : q = q' := Option.some.inj (hsome.symm.trans hq')
      rw [hqlen]
      exact not_lt.mpr hqs) hlink hprevp
  refine ⟨⟨_, s.free ∪ Set.Ico (down k).1 (down k).2⟩,
    ⟨down_permitted hcov hlow', exec_free hfree⟩, ?_⟩
  rintro ⟨l, hwf⟩
  -- the list starts with `p` and the new page, so its third page would have to point back to
  -- the new page
  have hchain := hwf.chain
  have hprev_next := hwf.prev_next
  simp only [setRegions_next, setRegions_prev, setRegions_head] at hchain hprev_next
  have hn : n ∈ l := by
    rw [hhead₁, hr.head] at hchain
    rcases l with _ | ⟨x, _ | ⟨y, l⟩⟩
    · cases hchain
    · obtain ⟨hx, hend⟩ := hchain
      obtain rfl : p = x := by simpa using hx
      simp [hnextp] at hend
    · obtain ⟨hx, hy, -⟩ := hchain
      obtain rfl : p = x := by simpa using hx
      obtain rfl : n = y := by simpa [hnextp] using hy
      simp
  have hback := hprev_next n hn q (hnextn.trans hsome)
  rw [hprevq] at hback
  exact hpn (Option.some.inj hback)

/-! ### Taking from what was freed so -/

/-- Only what lies in the upper half of two pages is free. -/
def Gapped (S : Set ℕ) : Prop := ∀ a ∈ S, 4096 ≤ a % 8192

/-- Freeing one of the regions. -/
theorem Gapped.step_free {s t : VState} {k : ℕ} (h : Gapped s.free)
    (hstep : SafeStep s (.free (down k)) t) : Gapped t.free := by
  obtain ⟨⟨-, hexec⟩, -⟩ := hstep
  obtain ⟨m, -, hexec⟩ := bind_eq_ok.mp hexec
  obtain rfl := Except.ok.inj hexec
  rintro a (ha | ⟨hlo, hhi⟩)
  · exact h a ha
  · rw [down] at hlo hhi
    dsimp only at hlo hhi
    omega

/-- Freeing many of them. -/
theorem Gapped.runs_frees {s t : VState} {k j : ℕ} (h : Gapped s.free)
    (hruns : Runs SafeStep s (frees k j) t) : Gapped t.free := by
  induction j generalizing s with
  | zero =>
      obtain rfl := Runs.nil_iff.mp hruns
      exact h
  | succ j ih =>
      obtain ⟨u, hstep, hrest⟩ := Runs.cons_iff.mp hruns
      exact ih (h.step_free hstep) hrest

/-- A free region is no larger than a page. -/
theorem Gapped.size_le {L : List (ℕ × List VirtualAllocRegion)} {x : VirtualAllocRegion}
    (h : Gapped (cover (regionsOf L))) (hx : x ∈ regionsOf L) : x.2 - x.1 ≤ 4096 := by
  by_contra hlt
  have hfirst := h x.1 ⟨x, hx, le_rfl, by omega⟩
  have hnext := h (x.1 - x.1 % 8192 + 8192) ⟨x, hx, by omega, by omega⟩
  omega

/-- A free region reaches over no end of one of those that were freed. -/
theorem Gapped.not_before {L : List (ℕ × List VirtualAllocRegion)} {x : VirtualAllocRegion} {k : ℕ}
    (h : Gapped (cover (regionsOf L))) (hx : x ∈ regionsOf L) (hlo : x.1 < (down k).1)
    (hhi : (down k).1 < x.2) : False := by
  rw [down] at hlo hhi
  dsimp only at hlo hhi
  have := h (8192 * k + 4095) ⟨x, hx, by omega, by omega⟩
  omega

/-- A page can be allocated, if there is one. -/
theorem Gapped.step_alloc {s : VState} (h : Gapped s.free) (hinv : Inv s) :
    ∃ t, SafeStep s (.alloc 4096) t ∧ Gapped t.free := by
  obtain ⟨L, hr, hg, hcov⟩ := hinv
  rw [← hcov] at h
  have hbreaks : Breaks s (.alloc 4096) = false := by
    rw [Breaks, allocOvershoots_eq hr hg.sound (by decide) (by decide)]
    cases hpick : picked L 4096 with
    | none => rfl
    | some x =>
        have hsize := h.size_le (of_picked hpick).1
        simp [overshoots, hsize]
  have hout : AllocOutcome s.mem L (picked L 4096) 4096 (alloc s.mem 4096) :=
    alloc_outcome hr hg.sound (by decide) (by decide)
  have hok : ∃ o m, alloc s.mem 4096 = .ok (o, m) := by
    generalize Virt.alloc s.mem 4096 = res at hout
    generalize hpick : picked L 4096 = pick at hout
    cases hout with
    | full | all | start => exact ⟨_, _, rfl⟩
    | nonCanonical hx hroom herr =>
        have := h.size_le (of_picked (hpick.trans hx)).1
        omega
  obtain ⟨o, m, hok⟩ := hok
  refine ⟨⟨m, s.free \ taken o⟩, ⟨⟨trivial, ?_⟩, hbreaks⟩, fun a ha => h a (hcov ▸ ha.1)⟩
  rw [exec, hok]
  rfl

/-- One of the regions can be reserved. -/
theorem Gapped.step_reserve {s : VState} (h : Gapped s.free) (hinv : Inv s) (k : ℕ) :
    ∃ t, SafeStep s (.reserve (down k)) t := by
  obtain ⟨L, hr, hg, hcov⟩ := hinv
  rw [← hcov] at h
  have hbreaks : Breaks s (.reserve (down k)) = false := by
    have hlive : L.length < s.mem.live + 1 := by
      rw [hr.live]
      omega
    have hfind := findReserve_spec (r := down k) hr hg.canonical (List.nil_append L).symm (by simp)
      hlive
    rw [← hr.head] at hfind
    rw [Breaks, reserveOpens]
    rcases hfind with ⟨hnone, -⟩ | ⟨A, p, X, x, Y, B, rfl, hx, hY, hsome⟩
    · rw [hnone]
    · rw [hsome]
      dsimp only
      rw [hr.focus.2.2, getElem?_length_append]
      dsimp only
      by_contra hopens
      simp only [Bool.not_eq_false, Bool.and_eq_true, decide_eq_true_eq] at hopens
      obtain ⟨⟨⟨hlt, hlo⟩, hhi⟩, -⟩ := hopens
      exact h.not_before (by simp) hlo (hlt.trans hhi)
  rcases reserve_outcome hr hg.sound (down_aligned k) (down_lt k) with
    ⟨hres, -⟩ | ⟨-, ⟨⟨A, p, rs, B, rfl, -, -, x, hx, hlo, hhi⟩, -, -⟩ | ⟨-, m, hres, -⟩⟩
  · refine ⟨⟨s.mem, s.free⟩, ⟨(down_lt k).le, ?_⟩, hbreaks⟩
    rw [exec, hres]
    rfl
  · refine absurd (h.not_before ?_ hlo ((down_lt k).trans hhi)) not_false
    simp [hx]
  · refine ⟨⟨m, s.free \ Set.Ico (down k).1 (down k).2⟩, ⟨(down_lt k).le, ?_⟩, hbreaks⟩
    rw [exec, hres]
    rfl

/-- After 255 regions were freed there are two pages, and then a page is allocated and a region
reserved. -/
theorem exists_runs_twoPages :
    ∃ s t, Runs SafeStep ⟨Mem.new (fun _ => ⟨none, none, []⟩) [4096, 8192, 12288], ∅⟩
        (.free (down 254) :: (frees 1 253 ++ [.free (down 0)])) s ∧
      s.mem.head = some 4096 ∧ s.mem.next 4096 = some 8192 ∧
      Runs SafeStep s [.alloc 4096, .reserve (down 0)] t := by
  obtain ⟨s₁, h₁, hlow₁, hf₁⟩ :=
    low_first (fun _ => ⟨none, none, []⟩) 254 (by decide : [4096, 8192, 12288].Nodup)
  obtain ⟨s₂, h₂, hlow₂, hf₂⟩ := Low.pushes (k := 1) 253 hlow₁ (by decide)
  obtain ⟨s₃, qs, h₃, ⟨rs, hr, hg, hcov, -, -⟩, -, -⟩ :=
    Low.split_last (k := 0) hlow₂ (hf₂.trans hf₁)
  have hinv : Inv s₃ := ⟨_, hr, hg, hcov⟩
  have hgap₁ := Gapped.step_free (fun _ h => absurd h (Set.notMem_empty _)) h₁
  obtain ⟨s₄, h₄, hgap₄⟩ := ((hgap₁.runs_frees h₂).step_free h₃).step_alloc hinv
  obtain ⟨s₅, h₅⟩ := hgap₄.step_reserve (h₄.inv hinv) 0
  have hA : Represents s₃.mem ([] ++ [(4096, rs), (8192, qs)]) := hr
  exact ⟨s₃, s₅, .cons h₁ (h₂.snoc h₃), by simp [hr.head], by simpa using hA.focus.2.1,
    .cons h₄ (.cons h₅ .refl)⟩

end Decreasing

/-! ### Main results -/

/-- **The allocator is well formed** in every state that a run reaches in which no operation opens
a page between two others or overshoots, and no internal assertion fails there. -/
theorem wellFormed_of_runs {pages : ℕ → VirtualAllocPage} {frames : List ℕ} {ops : List Op}
    {t : VState} (hnd : frames.Nodup)
    (hrun : Runs SafeStep ⟨Mem.new pages frames, ∅⟩ ops t) :
    (∃ l, WellFormed t.mem t.free l) ∧
      ∀ op, Permitted t op → Breaks t op = false → ∀ e, exec t op = .error e →
        e.internal = false := by
  have hinv := inv_of_runs hnd hrun
  refine ⟨hinv.wellFormed, fun op hp hopen e he => ?_⟩
  rcases exec_inv hinv hp hopen with ⟨e', he', hint⟩ | ⟨u, hu, -⟩
  · rw [he'] at he
    exact Except.error.inj he ▸ hint
  · simp [hu] at he

/-- Two pages are filled, and then taken from. -/
theorem wellFormed_of_runs_twoPages :
    ∃ s t, s.mem.head = some 4096 ∧ s.mem.next 4096 = some 8192 ∧
      Runs SafeStep s [.alloc 4096, .reserve (down 0)] t ∧ (∃ l, WellFormed s.mem s.free l) ∧
      ∃ l, WellFormed t.mem t.free l := by
  obtain ⟨s, t, hfrees, hhead, hnext, htakes⟩ := exists_runs_twoPages
  exact ⟨s, t, hhead, hnext, htakes, (wellFormed_of_runs (by decide) hfrees).1,
    (wellFormed_of_runs (by decide) (hfrees.trans htakes)).1⟩

/-- **A run whose last state is not well formed**: regions are freed in decreasing order
until the first page is split a second time. -/
theorem runs_not_wellFormed :
    ∃ ops t, Runs Step ⟨Mem.new (fun _ => ⟨none, none, []⟩) [4096, 8192, 12288], ∅⟩ ops t ∧
      ¬ ∃ l, WellFormed t.mem t.free l := by
  obtain ⟨s₁, h₁, hlow₁, hf₁⟩ :=
    low_first (fun _ => ⟨none, none, []⟩) 381 (by decide : [4096, 8192, 12288].Nodup)
  obtain ⟨s₂, h₂, hlow₂, hf₂⟩ := Low.pushes (k := 128) 253 hlow₁ (by decide)
  obtain ⟨s₃, qs, h₃, hlow₃, hqs, hf₃⟩ := Low.split_last (k := 127) hlow₂ (hf₂.trans hf₁)
  obtain ⟨s₄, h₄, hlow₄, hf₄⟩ := Low.pushes (k := 1) 126 hlow₃ (by decide)
  obtain ⟨s₅, h₅, hbad⟩ := Low.split_between (k := 0) hlow₄ (by rw [hqs]; decide) (hf₄.trans hf₃)
  have hruns := (Runs.cons h₁ (h₂.trans (Runs.cons h₃ h₄))).mono fun _ _ _ h => h.1
  exact ⟨_, s₅, hruns.snoc h₅, hbad⟩

end HydroxKernel.Virt
