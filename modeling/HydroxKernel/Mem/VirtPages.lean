import Mathlib.Data.List.Basic
import Mathlib.Data.Set.Lattice
import Mathlib.Order.CompletePartialOrder
import Mathlib.Tactic.Tauto
import HydroxKernel.Lib.Intervals
import HydroxKernel.Lib.Links
import HydroxKernel.Mem.Virt

/-!
# The Page List of the Virtual Memory Allocator

The links of a `VirtualAllocator` represent a list of pages, each a pointer together
with its valid regions (`Represents`). This module states what every internal operation
on pages does to the represented list: `setRegions`, `newPage`, `combinePages`,
`combineIfSmall`, `tryCoalesceAt` and `split`. The operations of the allocator are built
from these in `HydroxKernel.Mem.VirtSpec`.

## Main results

* `combinePages_represents`: two neighbouring pages become one.
* `combineIfSmall_represents`: combining keeps the sequence of regions and leaves no
  empty page behind, except a lone head.
* `tryCoalesceAt_of_gap`, `tryCoalesceAt_represents`: coalescing across a page boundary
  does nothing at a gap, and merges the two regions that touch.
* `split_place`: a split keeps the sequence of regions, finds the place of the split index, and
  opens a gap between two pages only if it puts a new page there.
* `split_outOfFrames_iff`: a split fails exactly if it needs a new page and gets none.
-/

namespace HydroxKernel.Virt

open Links Intervals

/-- The addresses of the pages of a list. -/
def ptrs (L : List (ℕ × List VirtualAllocRegion)) : List ℕ := L.map Prod.fst

/-- The regions of the pages of a list, in order. -/
def regionsOf (L : List (ℕ × List VirtualAllocRegion)) : List VirtualAllocRegion :=
  L.flatMap Prod.snd

/-- No page has an address. -/
@[simp] theorem ptrs_nil : ptrs [] = [] := rfl

/-- The address of the first page, and the others. -/
@[simp] theorem ptrs_cons (e : ℕ × List VirtualAllocRegion)
    (L : List (ℕ × List VirtualAllocRegion)) : ptrs (e :: L) = e.1 :: ptrs L := rfl

/-- The addresses of pages and further pages. -/
@[simp] theorem ptrs_append (L L' : List (ℕ × List VirtualAllocRegion)) :
    ptrs (L ++ L') = ptrs L ++ ptrs L' := by simp [ptrs]

/-- No page has regions. -/
@[simp] theorem regionsOf_nil : regionsOf [] = [] := rfl

/-- The regions of the first page, and of the others. -/
@[simp] theorem regionsOf_cons (e : ℕ × List VirtualAllocRegion)
    (L : List (ℕ × List VirtualAllocRegion)) : regionsOf (e :: L) = e.2 ++ regionsOf L := rfl

/-- The regions of pages and further pages. -/
@[simp] theorem regionsOf_append (L L' : List (ℕ × List VirtualAllocRegion)) :
    regionsOf (L ++ L') = regionsOf L ++ regionsOf L' := by simp [regionsOf]

/-! ### Reading back the fields of a page -/

section Fields

variable (m : Mem) (p : ℕ)

/-- Writing regions changes no link to the page before. -/
@[simp] theorem setRegions_prev (rs : List VirtualAllocRegion) :
    (m.setRegions p rs).prev = m.prev := by
  funext x
  by_cases h : x = p <;> simp [Mem.prev, Mem.setRegions, Function.update, h]

/-- Writing regions changes no link to the next page. -/
@[simp] theorem setRegions_next (rs : List VirtualAllocRegion) :
    (m.setRegions p rs).next = m.next := by
  funext x
  by_cases h : x = p <;> simp [Mem.next, Mem.setRegions, Function.update, h]

/-- The regions that were written. -/
@[simp] theorem setRegions_regions (rs : List VirtualAllocRegion) :
    (m.setRegions p rs).regions = Function.update m.regions p rs := by
  funext x
  by_cases h : x = p <;> simp [Mem.regions, Mem.setRegions, Function.update, h]

/-- The link to the page before that was written. -/
@[simp] theorem setPrev_prev (q : Option ℕ) :
    (m.setPrev p q).prev = Function.update m.prev p q := by
  funext x
  by_cases h : x = p <;> simp [Mem.prev, Mem.setPrev, Function.update, h]

/-- Writing a link to the page before changes no link to the next. -/
@[simp] theorem setPrev_next (q : Option ℕ) : (m.setPrev p q).next = m.next := by
  funext x
  by_cases h : x = p <;> simp [Mem.next, Mem.setPrev, Function.update, h]

/-- Writing a link to the page before changes no regions. -/
@[simp] theorem setPrev_regions (q : Option ℕ) : (m.setPrev p q).regions = m.regions := by
  funext x
  by_cases h : x = p <;> simp [Mem.regions, Mem.setPrev, Function.update, h]

/-- Writing a link to the next page changes no link to the one before. -/
@[simp] theorem setNext_prev (q : Option ℕ) : (m.setNext p q).prev = m.prev := by
  funext x
  by_cases h : x = p <;> simp [Mem.prev, Mem.setNext, Function.update, h]

/-- The link to the next page that was written. -/
@[simp] theorem setNext_next (q : Option ℕ) :
    (m.setNext p q).next = Function.update m.next p q := by
  funext x
  by_cases h : x = p <;> simp [Mem.next, Mem.setNext, Function.update, h]

/-- Writing a link to the next page changes no regions. -/
@[simp] theorem setNext_regions (q : Option ℕ) : (m.setNext p q).regions = m.regions := by
  funext x
  by_cases h : x = p <;> simp [Mem.regions, Mem.setNext, Function.update, h]

/-- The page that is linked back, if there is one. -/
@[simp] theorem relink_prev (q : Option ℕ) (x : ℕ) :
    (m.relink q p).prev x = if q = some x then some p else m.prev x := by
  cases q with
  | none => simp [Mem.relink]
  | some q =>
      by_cases h : x = q
      · simp [Mem.relink, h]
      · simp [Mem.relink, h, Ne.symm h]

/-- Linking a page back changes no link to the next page. -/
@[simp] theorem relink_next (q : Option ℕ) : (m.relink q p).next = m.next := by
  cases q <;> simp [Mem.relink]

/-- Linking a page back changes no regions. -/
@[simp] theorem relink_regions (q : Option ℕ) : (m.relink q p).regions = m.regions := by
  cases q <;> simp [Mem.relink]

/-- Writing regions changes no head. -/
@[simp] theorem setRegions_head (rs : List VirtualAllocRegion) :
    (m.setRegions p rs).head = m.head := rfl

/-- Writing regions takes no frame. -/
@[simp] theorem setRegions_frames (rs : List VirtualAllocRegion) :
    (m.setRegions p rs).frames = m.frames := rfl

/-- Writing regions maps no page. -/
@[simp] theorem setRegions_live (rs : List VirtualAllocRegion) :
    (m.setRegions p rs).live = m.live := rfl

/-- Writing a link to the page before changes no head. -/
@[simp] theorem setPrev_head (q : Option ℕ) : (m.setPrev p q).head = m.head := rfl

/-- Writing a link to the page before maps no page. -/
@[simp] theorem setPrev_live (q : Option ℕ) : (m.setPrev p q).live = m.live := rfl

/-- Writing a link to the next page changes no head. -/
@[simp] theorem setNext_head (q : Option ℕ) : (m.setNext p q).head = m.head := rfl

/-- Writing a link to the next page takes no frame. -/
@[simp] theorem setNext_frames (q : Option ℕ) : (m.setNext p q).frames = m.frames := rfl

/-- Writing a link to the next page maps no page. -/
@[simp] theorem setNext_live (q : Option ℕ) : (m.setNext p q).live = m.live := rfl

/-- Linking a page back changes no head. -/
@[simp] theorem relink_head (q : Option ℕ) : (m.relink q p).head = m.head := by
  cases q <;> rfl

/-- Linking a page back takes no frame. -/
@[simp] theorem relink_frames (q : Option ℕ) : (m.relink q p).frames = m.frames := by
  cases q <;> rfl

/-- Linking a page back maps no page. -/
@[simp] theorem relink_live (q : Option ℕ) : (m.relink q p).live = m.live := by
  cases q <;> rfl

/-- Regions and links can be written in either order. -/
theorem setRegions_relink (o : Option ℕ) (n : ℕ) (rs : List VirtualAllocRegion) :
    (m.relink o n).setRegions p rs = (m.setRegions p rs).relink o n := by
  cases o with
  | none => rfl
  | some q =>
      by_cases h : q = p
      · simp [Mem.relink, Mem.setRegions, Mem.setPrev, h]
      · simp [Mem.relink, Mem.setRegions, Mem.setPrev, h, Ne.symm h, Function.update_comm h]

/-- A page that is freed keeps its links. -/
@[simp] theorem freePage_prev : (freePage m p).prev = m.prev := rfl

/-- A page that is freed keeps its links. -/
@[simp] theorem freePage_next : (freePage m p).next = m.next := rfl

/-- A page that is freed keeps its regions. -/
@[simp] theorem freePage_regions : (freePage m p).regions = m.regions := rfl

end Fields

/-! ### The represented list -/

/-- The memory holds the pages `L`: the links of the pages, in both directions, are
those of the list, every page holds its regions, and no page of the list is on the stack
of free frames. -/
structure Represents (m : Mem) (L : List (ℕ × List VirtualAllocRegion)) : Prop where
  head : m.head = (ptrs L).head?
  seg : DSeg m.prev m.next none (ptrs L) none
  regions : ∀ e ∈ L, m.regions e.1 = e.2
  frames : m.frames.Nodup
  fresh : ∀ p ∈ ptrs L, p ∉ m.frames
  live : m.live = L.length

section Represents

variable {m : Mem} {A B L : List (ℕ × List VirtualAllocRegion)} {p q : ℕ}
  {rs rs' qs : List VirtualAllocRegion}

/-- No page is listed twice. -/
theorem Represents.nodup (h : Represents m L) : (ptrs L).Nodup := h.seg.nodup

/-- What is around one page of the list. -/
theorem Represents.focus (h : Represents m (A ++ (p, rs) :: B)) :
    m.prev p = (ptrs A).getLast? ∧ m.next p = (ptrs B).head? ∧ m.regions p = rs := by
  have hseg := h.seg
  rw [ptrs_append, ptrs_cons, dseg_focus] at hseg
  exact ⟨by simpa using hseg.2.1, by simpa using hseg.2.2.1, h.regions (p, rs) (by simp)⟩

/-- A page occurs once in the list. -/
theorem Represents.not_mem (h : Represents m (A ++ (p, rs) :: B)) :
    p ∉ ptrs A ∧ p ∉ ptrs B := by
  have hnd := h.nodup
  rw [ptrs_append, ptrs_cons, List.nodup_append] at hnd
  obtain ⟨-, h2, h3⟩ := hnd
  exact ⟨fun hp => h3 p hp p (by simp) rfl, (List.nodup_cons.mp h2).1⟩

/-- Writing the regions of one page. -/
theorem Represents.setRegions (h : Represents m (A ++ (p, rs) :: B))
    (rs' : List VirtualAllocRegion) :
    Represents (m.setRegions p rs') (A ++ (p, rs') :: B) where
  head := by simpa using h.head
  seg := by simpa using h.seg
  regions := by
    obtain ⟨hA, hB⟩ := h.not_mem
    intro e he
    rw [setRegions_regions]
    rcases List.mem_append.mp he with he | he
    · have hne : e.1 ≠ p := fun heq => hA (heq ▸ List.mem_map_of_mem he)
      rw [Function.update_of_ne hne]
      exact h.regions e (by simp [he])
    rcases List.mem_cons.mp he with rfl | he
    · simp
    · have hne : e.1 ≠ p := fun heq => hB (heq ▸ List.mem_map_of_mem he)
      rw [Function.update_of_ne hne]
      exact h.regions e (by simp [he])
  frames := h.frames
  fresh := by simpa using h.fresh
  live := by simpa using h.live

/-- Two neighbouring pages whose regions fit in one become one page. -/
theorem combinePages_represents (h : Represents m (A ++ (p, rs) :: (q, qs) :: B))
    (hlen : rs.length + qs.length ≤ regionsPerPage) :
    ∃ m', combinePages m p q = .ok m' ∧ Represents m' (A ++ (p, rs ++ qs) :: B) := by
  obtain ⟨-, hpn, hpr⟩ := h.focus
  have h' : Represents m ((A ++ [(p, rs)]) ++ (q, qs) :: B) := by simpa using h
  obtain ⟨-, hqn, hqr⟩ := h'.focus
  have hlen' : ¬ (m.len p + m.len q > regionsPerPage) := by
    simp only [Mem.len, hpr, hqr]
    omega
  have hnext : ¬ (m.next p ≠ some q) := by simp [hpn]
  simp only [combinePages, if_neg hnext, if_neg hlen', hpr, hqr, hqn]
  refine ⟨_, rfl, ?_⟩
  -- the pages of the new list are pages of the old one, `q` is none of them
  have hnd := h.nodup
  have hqnew : q ∉ ptrs (A ++ (p, rs ++ qs) :: B) := by
    simp only [ptrs_append, ptrs_cons, List.nodup_append, List.nodup_cons, List.mem_append,
      List.mem_cons] at hnd ⊢
    grind
  have hsub : ∀ x ∈ ptrs (A ++ (p, rs ++ qs) :: B), x ∈ ptrs (A ++ (p, rs) :: (q, qs) :: B) := by
    simp only [ptrs_append, ptrs_cons, List.mem_append, List.mem_cons]
    tauto
  have hseg := h.seg
  simp only [ptrs_append, ptrs_cons] at hseg hnd
  refine ⟨?_, ?_, ?_, ?_, ?_, ?_⟩
  · have hhead := h.head
    simp only [freePage, relink_head, setNext_head, setRegions_head, hhead, ptrs_append, ptrs_cons,
      List.head?_append, List.head?_cons]
  · rw [freePage_prev, freePage_next, relink_next, ptrs_append, ptrs_cons]
    refine dseg_unlink hseg ?_ ?_ ?_ ?_
    · simp
    · intro y hy
      rw [relink_prev, if_pos hy]
    · intro x hx
      have hxB : (ptrs B).head? ≠ some x := by
        intro hhead
        obtain ⟨ys, hys⟩ := List.head?_eq_some_iff.mp hhead
        rw [hys] at hnd hx
        simp only [List.nodup_append, List.nodup_cons, List.mem_cons, List.mem_append,
          List.tail_cons] at hnd hx
        grind
      rw [relink_prev, if_neg hxB]
      simp
    · intro x hx
      have hxp : x ≠ p := by
        rintro rfl
        simp only [List.nodup_append, List.nodup_cons, List.mem_cons, List.mem_append] at hnd hx
        grind
      rw [setNext_next, Function.update_of_ne hxp]
      simp
  · intro e he
    rw [freePage_regions, relink_regions, setNext_regions]
    refine (h.setRegions (rs ++ qs)).regions e ?_
    simp only [List.mem_append, List.mem_cons] at he ⊢
    tauto
  · simp only [freePage, relink_frames, setNext_frames, setRegions_frames]
    exact List.nodup_cons.mpr ⟨h.fresh q (by simp), h.frames⟩
  · intro x hx
    simp only [freePage, relink_frames, setNext_frames, setRegions_frames, List.mem_cons, not_or]
    exact ⟨fun heq => hqnew (heq ▸ hx), h.fresh x (hsub x hx)⟩
  · simp [freePage, h.live]

/-- No page holds more regions than fit. -/
def Fits (L : List (ℕ × List VirtualAllocRegion)) : Prop :=
  ∀ e ∈ L, e.2.length ≤ regionsPerPage

/-- No page is empty. -/
def Filled (L : List (ℕ × List VirtualAllocRegion)) : Prop := ∀ e ∈ L, e.2 ≠ []

/-- No page is empty, of pages and further pages. -/
theorem filled_append {L L' : List (ℕ × List VirtualAllocRegion)} :
    Filled (L ++ L') ↔ Filled L ∧ Filled L' := List.forall_mem_append

/-- No page is empty, of a page and further pages. -/
theorem filled_cons {e : ℕ × List VirtualAllocRegion} {L : List (ℕ × List VirtualAllocRegion)} :
    Filled (e :: L) ↔ e.2 ≠ [] ∧ Filled L := List.forall_mem_cons

/-- All regions fit, of pages and further pages. -/
theorem fits_append {L L' : List (ℕ × List VirtualAllocRegion)} :
    Fits (L ++ L') ↔ Fits L ∧ Fits L' := List.forall_mem_append

/-- All regions fit, of a page and further pages. -/
theorem fits_cons {e : ℕ × List VirtualAllocRegion} {L : List (ℕ × List VirtualAllocRegion)} :
    Fits (e :: L) ↔ e.2.length ≤ regionsPerPage ∧ Fits L := List.forall_mem_cons

/-- Two neighbours whose regions fit in one page can be combined. -/
theorem Fits.combine (hfit : Fits (A ++ (p, rs) :: (q, qs) :: B))
    (hle : rs.length + qs.length ≤ regionsPerPage) : Fits (A ++ (p, rs ++ qs) :: B) := by
  rw [fits_append, fits_cons, fits_cons] at hfit
  rw [fits_append, fits_cons]
  exact ⟨hfit.1, by simpa using hle, hfit.2.2.2⟩

/-- The pages `A'` are the first pages of `A`, followed by pages that are not empty. -/
def Refilled (A A' : List (ℕ × List VirtualAllocRegion)) : Prop :=
  ∃ A₀ A₁ C, A = A₀ ++ A₁ ∧ A' = A₀ ++ C ∧ Filled C

/-- No page changed. -/
theorem Refilled.refl (A : List (ℕ × List VirtualAllocRegion)) : Refilled A A :=
  ⟨A, [], [], by simp, by simp, by simp [Filled]⟩

/-- One page follows the first ones. -/
theorem Refilled.concat (A : List (ℕ × List VirtualAllocRegion))
    {A₁ : List (ℕ × List VirtualAllocRegion)} (hrs : rs ≠ []) :
    Refilled (A ++ A₁) (A ++ [(p, rs)]) :=
  ⟨A, A₁, [(p, rs)], rfl, rfl, filled_cons.mpr ⟨hrs, by simp [Filled]⟩⟩

/-- No page is empty if none was before. -/
theorem Refilled.filled {A' : List (ℕ × List VirtualAllocRegion)} (h : Refilled A A')
    (hA : Filled A) : Filled A' := by
  obtain ⟨A₀, A₁, C, rfl, rfl, hC⟩ := h
  exact filled_append.mpr ⟨(filled_append.mp hA).1, hC⟩

/-- No page but the first is empty if none was before. -/
theorem Refilled.filled_tail {A' : List (ℕ × List VirtualAllocRegion)} (h : Refilled A A')
    (hA : Filled A.tail) : Filled A'.tail := by
  obtain ⟨A₀, A₁, C, rfl, rfl, hC⟩ := h
  cases A₀ with
  | nil => exact fun e he => hC e (List.mem_of_mem_tail he)
  | cons e A₀ => exact filled_append.mpr ⟨(filled_append.mp hA).1, hC⟩

/-- An empty page is combined with any neighbour. -/
theorem shouldCombine_zero {n : ℕ} (h : n ≤ regionsPerPage) :
    shouldCombine n 0 = true ∧ shouldCombine 0 n = true := by
  have hle : ¬ n > regionsPerPage := by omega
  constructor <;> simp [shouldCombine, hle]

/-- Pages are combined only if their regions fit in one. -/
theorem le_of_shouldCombine {n k : ℕ} (h : shouldCombine n k = true) :
    n + k ≤ regionsPerPage := by
  by_contra hgt
  rw [shouldCombine, if_pos (by omega)] at h
  exact absurd h (by simp)

/-- `combine_if_small` keeps the sequence of regions. It leaves no empty page behind except
a lone head, when the page it starts from is the only one that may be empty, and none but
the head when the head may be empty as well. -/
theorem combineIfSmall_represents {fuel : ℕ} (h : Represents m (A ++ (p, rs) :: B))
    (hfit : Fits (A ++ (p, rs) :: B)) (hfuel : A.length + B.length < fuel) :
    ∃ q m' L', combineIfSmall fuel m p = .ok (q, m') ∧ Represents m' L' ∧ Fits L' ∧
      regionsOf L' = regionsOf (A ++ (p, rs) :: B) ∧
      (Filled A → Filled B → L'.length ≤ 1 ∨ Filled L') ∧
      (Filled A.tail → Filled B → Filled L'.tail) := by
  induction fuel generalizing m A p rs B with
  | zero => omega
  | succ fuel ih =>
      obtain ⟨hprev, hnext, hregs⟩ := h.focus
      -- the branch that looks at the next page, when the previous one does not absorb `p`
      have hdone : (rs = [] → A = []) → ∃ q m' L',
          combineIfSmall.combineNext fuel m p = .ok (q, m') ∧ Represents m' L' ∧ Fits L' ∧
            regionsOf L' = regionsOf (A ++ (p, rs) :: B) ∧
            (Filled A → Filled B → L'.length ≤ 1 ∨ Filled L') ∧
            (Filled A.tail → Filled B → Filled L'.tail) := by
        intro hemp
        cases B with
        | nil =>
            refine ⟨p, m, _, by simp [combineIfSmall.combineNext, hnext], h, hfit, rfl,
              fun hA _ => ?_, fun hA _ => ?_⟩
            · by_cases hrs : rs = []
              · exact Or.inl (by simp [hemp hrs])
              · exact Or.inr (filled_append.mpr ⟨hA, filled_cons.mpr ⟨hrs, by simp [Filled]⟩⟩)
            · cases A with
              | nil => simp [Filled]
              | cons e A =>
                  have hrs : rs ≠ [] := fun hnil => by simp at hemp; exact hemp hnil
                  exact filled_append.mpr ⟨hA, filled_cons.mpr ⟨hrs, by simp [Filled]⟩⟩
        | cons e B =>
            obtain ⟨q, qs⟩ := e
            have hqr : m.regions q = qs := h.regions (q, qs) (by simp)
            have hnext' : m.next p = some q := by simp [hnext]
            simp only [combineIfSmall.combineNext, hnext', Mem.len, hregs, hqr]
            by_cases hc : shouldCombine rs.length qs.length = true
            · obtain ⟨m₁, h₁, hr₁⟩ := combinePages_represents h (le_of_shouldCombine hc)
              have hfit₁ := hfit.combine (le_of_shouldCombine hc)
              simp only [List.length_cons] at hfuel
              obtain ⟨q', m', L', h', hr', hf', hl', hlast, htail⟩ := ih hr₁ hfit₁ (by omega)
              refine ⟨q', m', L', ?_, hr', hf', by simpa using hl', fun hA hB =>
                hlast hA (filled_cons.mp hB).2, fun hA hB => htail hA (filled_cons.mp hB).2⟩
              simp only [if_pos hc, h₁, bind, Except.bind]
              exact h'
            · have hrs : rs ≠ [] := by
                rintro rfl
                exact hc (shouldCombine_zero (hfit (q, qs) (by simp))).2
              refine ⟨p, m, _, by rw [if_neg hc], h, hfit, rfl, fun hA hB =>
                Or.inr (filled_append.mpr ⟨hA, filled_cons.mpr ⟨hrs, hB⟩⟩), fun hA hB => ?_⟩
              cases A with
              | nil => exact hB
              | cons e A => exact filled_append.mpr ⟨hA, filled_cons.mpr ⟨hrs, hB⟩⟩
      rcases List.eq_nil_or_concat A with rfl | ⟨A', ⟨q, qs⟩, rfl⟩
      · have hprev' : m.prev p = none := by simp [hprev]
        simp only [combineIfSmall, hprev']
        exact hdone fun _ => rfl
      · rw [List.concat_eq_append] at *
        have hprev' : m.prev p = some q := by simp [hprev]
        have hqr : m.regions q = qs := h.regions (q, qs) (by simp)
        simp only [combineIfSmall, hprev', Mem.len, hregs, hqr]
        by_cases hc : shouldCombine qs.length rs.length = true
        · have hassoc : A' ++ [(q, qs)] ++ (p, rs) :: B = A' ++ (q, qs) :: (p, rs) :: B := by simp
          obtain ⟨m₁, h₁, hr₁⟩ := combinePages_represents (hassoc ▸ h) (le_of_shouldCombine hc)
          have hfit₁ := (hassoc ▸ hfit).combine (le_of_shouldCombine hc)
          simp only [List.length_append, List.length_singleton] at hfuel
          obtain ⟨q', m', L', h', hr', hf', hl', hlast, htail⟩ := ih hr₁ hfit₁ (by omega)
          refine ⟨q', m', L', ?_, hr', hf', by simpa using hl', fun hA hB =>
            hlast (filled_append.mp hA).1 hB, fun hA hB => htail ?_ hB⟩
          · simp only [if_pos hc, h₁, bind, Except.bind]
            exact h'
          · cases A' with
            | nil => simp [Filled]
            | cons e A' => exact (filled_append.mp hA).1
        · simp only [if_neg hc]
          refine hdone ?_
          rintro rfl
          exact absurd (shouldCombine_zero (hfit (q, qs) (by simp))).1 hc

/-- The last region of a page does not touch the first region of the page that its `next`
points to. -/
def GapAfter (m : Mem) (p : ℕ) : Prop :=
  ∀ x q, (m.regions p).getLast? = some x → m.next p = some q →
    ∃ y, (m.regions q).head? = some y ∧ x.2 ≠ y.1

/-- The `prev` link of a page does not matter for the gaps after pages. -/
@[simp] theorem gapAfter_relink (o : Option ℕ) (n : ℕ) :
    GapAfter (m.relink o n) p ↔ GapAfter m p := by
  simp [GapAfter]

/-- A page of a canonical list is followed by a gap. -/
theorem Represents.gapAfter (h : Represents m (A ++ (p, rs) :: B)) (hB : Filled B)
    (hgap : Canonical (rs ++ regionsOf B)) : GapAfter m p := by
  obtain ⟨-, hnext, hregs⟩ := h.focus
  intro x q hx hq
  rw [hregs] at hx
  cases B with
  | nil => simp [hnext] at hq
  | cons e B =>
      obtain ⟨q', qs⟩ := e
      obtain rfl : q' = q := by simpa [hnext] using hq
      obtain ⟨y, ys, rfl⟩ := List.exists_cons_of_ne_nil (hB (q', qs) (by simp))
      refine ⟨y, by simp [h.regions (q', y :: ys) (by simp)], ?_⟩
      have hlt := (canonical_append.mp hgap).2.2 x (List.mem_of_getLast? hx) y (by simp)
      exact Nat.ne_of_lt hlt

/-- `try_coalesce_at` does nothing at a page that is followed by a gap. -/
theorem tryCoalesceAt_of_gap {fuel : ℕ} (hgap : GapAfter m p) :
    tryCoalesceAt (fuel + 1) m p = .ok (false, m) := by
  cases hx : (m.regions p).getLast? with
  | none => simp [tryCoalesceAt, hx]
  | some x =>
      cases hq : m.next p with
      | none => simp [tryCoalesceAt, hx, hq]
      | some q =>
          obtain ⟨y, hy, hne⟩ := hgap x q hx hq
          simp [tryCoalesceAt, hx, hq, hy, hne]

/-- `try_coalesce_at` merges the last region of a page with the first region of the next
page when the two touch. -/
theorem tryCoalesceAt_represents (fuel : ℕ) {x y : VirtualAllocRegion}
    {ys : List VirtualAllocRegion}
    (h : Represents m (A ++ (p, rs ++ [x]) :: (q, y :: ys) :: B))
    (hfit : Fits (A ++ (p, rs ++ [x]) :: (q, y :: ys) :: B)) (hB : Filled B)
    (htouch : x.2 = y.1) (hgap : Canonical ((x.1, y.2) :: ys ++ regionsOf B)) :
    ∃ m' L', tryCoalesceAt (fuel + 2) m p = .ok (true, m') ∧ Represents m' L' ∧ Fits L' ∧
      regionsOf L' = regionsOf A ++ rs ++ (x.1, y.2) :: ys ++ regionsOf B ∧
      (Filled A → L'.length ≤ 1 ∨ Filled L') := by
  obtain ⟨-, hnext, hregs⟩ := h.focus
  have hnext' : m.next p = some q := by simp [hnext]
  have hqr : m.regions q = y :: ys := h.regions (q, y :: ys) (by simp)
  have hpq : p ≠ q := by
    have hp := h.not_mem.2
    simp only [ptrs_cons, List.mem_cons, not_or] at hp
    exact hp.1
  -- the state after the two writes, and its list of pages
  have h₁ : Represents (m.setRegions q ((x.1, y.2) :: ys))
      (A ++ (p, rs ++ [x]) :: (q, (x.1, y.2) :: ys) :: B) := by
    have hassoc : ∀ rs', A ++ (p, rs ++ [x]) :: (q, rs') :: B =
        (A ++ [(p, rs ++ [x])]) ++ (q, rs') :: B := by simp
    rw [hassoc] at h ⊢
    exact h.setRegions _
  have h₂ := h₁.setRegions rs
  set m₂ := (m.setRegions q ((x.1, y.2) :: ys)).setRegions p rs with hm₂
  have hfit₂ : Fits (A ++ (p, rs) :: (q, (x.1, y.2) :: ys) :: B) := by
    intro e he
    simp only [List.mem_append, List.mem_cons] at he
    rcases he with he | rfl | rfl | he
    · exact hfit e (by simp [he])
    · have := hfit (p, rs ++ [x]) (by simp)
      simp only [List.length_append, List.length_singleton] at this
      exact Nat.le_of_succ_le this
    · simpa using hfit (q, y :: ys) (by simp)
    · exact hfit e (by simp [he])
  have hB₂ : Filled ((q, (x.1, y.2) :: ys) :: B) := by
    intro e he
    rcases List.mem_cons.mp he with rfl | he
    · simp
    · exact hB e he
  have hlive : A.length + ((q, (x.1, y.2) :: ys) :: B).length < m₂.live + 1 := by
    rw [h₂.live]
    simp only [List.length_append, List.length_cons]
    omega
  obtain ⟨q', m', L', h', hr', hf', hl', hlast, -⟩ :=
    combineIfSmall_represents h₂ hfit₂ hlive
  refine ⟨m', L', ?_, hr', hf', by rw [hl']; simp, fun hA => hlast hA hB₂⟩
  -- the nested call on a page with one region meets a gap
  have hassoc : A ++ (p, rs) :: (q, (x.1, y.2) :: ys) :: B =
      (A ++ [(p, rs)]) ++ (q, (x.1, y.2) :: ys) :: B := by simp
  have hnested : tryCoalesceAt (fuel + 1) m₂ q = .ok (false, m₂) :=
    tryCoalesceAt_of_gap ((hassoc ▸ h₂).gapAfter hB hgap)
  have hdrop : (m.setRegions q ((x.1, y.2) :: ys)).regions p = rs ++ [x] := by
    rw [setRegions_regions, Function.update_of_ne hpq, hregs]
  rw [tryCoalesceAt]
  simp only [hregs, List.getLast?_concat, hnext', hqr, List.head?_cons, if_pos htouch,
    List.tail_cons, hdrop, List.dropLast_concat, ← hm₂, hnested, bind, Except.bind]
  by_cases hone : m₂.len q = 1 <;> simp [hone, h']

/-! ### Splitting a full page -/

/-- Splitting `p` would put a new page between `p` and the page after it: `p` is full and
not the last page, and neither of its neighbours has room. -/
def opensBetween (m : Mem) (p : ℕ) : Bool :=
  m.len p = regionsPerPage &&
    (match m.prev p with
      | some q => regionsPerPage / 4 ≤ m.len q
      | none => true) &&
    match m.next p with
    | some q => regionsPerPage / 4 ≤ m.len q
    | none => false

/-- A place in the sequence of regions: page `t` of the list `A ++ (t, ts) :: B`, before
its region `j`, with `pre` before it and `post` after it. -/
structure Place (A : List (ℕ × List VirtualAllocRegion)) (ts : List VirtualAllocRegion)
    (B : List (ℕ × List VirtualAllocRegion)) (j : ℕ) (pre post : List VirtualAllocRegion) :
    Prop where
  before : regionsOf A ++ ts.take j = pre
  after : ts.drop j ++ regionsOf B = post
  le : j ≤ ts.length

/-- What a split promises of any list of pages: the regions are those before it, the index
found stands for the same place, its page is not full, and neither that page nor a later
one is empty. -/
structure SplitPlace (m' : Mem) (t j : ℕ) (inPage : Prop) (pre post : List VirtualAllocRegion)
    (A : List (ℕ × List VirtualAllocRegion)) (ts : List VirtualAllocRegion)
    (B : List (ℕ × List VirtualAllocRegion)) : Prop where
  repr : Represents m' (A ++ (t, ts) :: B)
  place : Place A ts B j pre post
  room : ts.length < regionsPerPage
  inside : inPage → j < ts.length
  fits : Fits (A ++ (t, ts) :: B)
  filled : Filled ((t, ts) :: B)

/-- A page is split in two halves. -/
theorem splitPoint_eq : splitPoint = 127 := rfl

/-- So many regions fit in a page. -/
theorem regionsPerPage_eq : regionsPerPage = 254 := rfl

/-- The lower half of a full page holds the regions before an index below the split
point. -/
theorem take_low {idx : ℕ} (hidx : idx < splitPoint) :
    (rs.take splitPoint).take idx = rs.take idx ∧
      (rs.take splitPoint).drop idx ++ rs.drop splitPoint = rs.drop idx := by
  constructor
  · rw [List.take_take, min_eq_left (le_of_lt hidx)]
  · by_cases hlen : idx ≤ (rs.take splitPoint).length
    · rw [← List.drop_append_of_le_length hlen, List.take_append_drop]
    · rw [List.length_take] at hlen
      have hshort : rs.length ≤ splitPoint := by omega
      rw [List.take_of_length_le hshort, List.drop_of_length_le hshort, List.append_nil]

/-- The upper half of a full page holds the regions after an index from the split point
on. -/
theorem take_high {idx : ℕ} (hidx : splitPoint ≤ idx) :
    rs.take splitPoint ++ (rs.drop splitPoint).take (idx - splitPoint) = rs.take idx ∧
      (rs.drop splitPoint).drop (idx - splitPoint) = rs.drop idx := by
  have hsum : splitPoint + (idx - splitPoint) = idx := by omega
  constructor
  · rw [← List.take_add, hsum]
  · rw [List.drop_drop, hsum]

/-- Moving the lower half of a full page to the page before it. -/
theorem split_prev {idx : ℕ} (h : Represents m (A ++ (q, qs) :: (p, rs) :: B))
    (hlen : rs.length = regionsPerPage) (hidx : idx ≤ rs.length)
    (hroom : qs.length < regionsPerPage / 4) (hfit : Fits (A ++ (q, qs) :: (p, rs) :: B))
    (hB : Filled B) :
    ∃ s m' t j A' ts B', split m p idx = .ok (s, m') ∧ resolveSplit m' p s = .ok (t, j) ∧
      Refilled (A ++ [(q, qs)]) A' ∧
      SplitPlace m' t j (idx < rs.length) (regionsOf (A ++ [(q, qs)]) ++ rs.take idx)
        (rs.drop idx ++ regionsOf B) A' ts B' := by
  have hassoc : ∀ qs' rs', A ++ (q, qs') :: (p, rs') :: B =
      (A ++ [(q, qs')]) ++ (p, rs') :: B := by simp
  have hp : Represents m ((A ++ [(q, qs)]) ++ (p, rs) :: B) := hassoc _ _ ▸ h
  obtain ⟨hprev, -, hpr⟩ := hp.focus
  have hprev' : m.prev p = some q := by simp [hprev]
  have hqr : m.regions q = qs := h.regions (q, qs) (by simp)
  have hlens : (rs.take splitPoint).length = 127 ∧ (rs.drop splitPoint).length = 127 := by
    rw [List.length_take, List.length_drop, hlen, splitPoint_eq, regionsPerPage_eq]
    exact ⟨rfl, rfl⟩
  have h₂ : Represents ((m.setRegions q (qs ++ rs.take splitPoint)).setRegions p
      (rs.drop splitPoint)) ((A ++ [(q, qs ++ rs.take splitPoint)]) ++
        (p, rs.drop splitPoint) :: B) := by
    have h₁ := h.setRegions (qs ++ rs.take splitPoint)
    rw [hassoc] at h₁
    exact h₁.setRegions _
  have hprev₂ := h₂.focus.1
  have hne : rs.drop splitPoint ≠ [] := fun hnil => by simp [hnil] at hlens
  have hne' : qs ++ rs.take splitPoint ≠ [] := fun hnil => by
    have := (List.append_eq_nil_iff.mp hnil).2
    simp [this] at hlens
  simp only [fits_append, fits_cons] at hfit
  rw [regionsPerPage_eq] at hlen hroom
  have hsplit : split m p idx = .ok (if idx < splitPoint then .prev (qs.length + idx)
      else .this (idx - splitPoint), (m.setRegions q (qs ++ rs.take splitPoint)).setRegions p
      (rs.drop splitPoint)) := by
    simp [split, Mem.len, hpr, hprev', hqr, hlen, hroom, regionsPerPage_eq]
  rw [hsplit]
  by_cases hlt : idx < splitPoint
  · refine ⟨_, _, q, qs.length + idx, A, qs ++ rs.take splitPoint, (p, rs.drop splitPoint) :: B,
      rfl, ?_, ⟨A, [(q, qs)], [], rfl, by simp, by simp [Filled]⟩, ?_⟩
    · simp only [if_pos hlt, resolveSplit, hprev₂, ptrs_append, ptrs_cons, ptrs_nil,
        List.getLast?_concat, deref, bind, Except.bind]
    · refine ⟨by simpa using h₂, ⟨?_, ?_, ?_⟩, ?_, fun _ => ?_, ?_, ?_⟩
      · rw [List.take_length_add_append, (take_low hlt).1]
        simp
      · rw [List.drop_length_add_append, regionsOf_cons, ← List.append_assoc, (take_low hlt).2]
      · rw [List.length_append, hlens.1]
        rw [splitPoint_eq] at hlt
        omega
      · rw [List.length_append, hlens.1, regionsPerPage_eq]
        omega
      · rw [List.length_append, hlens.1]
        rw [splitPoint_eq] at hlt
        omega
      · simp only [fits_append, fits_cons, List.length_append, hlens.1, hlens.2,
          regionsPerPage_eq]
        exact ⟨hfit.1, by omega, by omega, hfit.2.2.2⟩
      · simp only [filled_cons]
        exact ⟨hne', hne, hB⟩
  · have hge : splitPoint ≤ idx := by omega
    refine ⟨_, _, p, idx - splitPoint, A ++ [(q, qs ++ rs.take splitPoint)], rs.drop splitPoint,
      B, rfl, by simp [if_neg hlt, resolveSplit], Refilled.concat A hne', ?_⟩
    refine ⟨h₂, ⟨?_, ?_, ?_⟩, ?_, fun hin => ?_, ?_, ?_⟩
    · rw [← (take_high hge).1]
      simp
    · rw [(take_high hge).2]
    · rw [hlens.2, splitPoint_eq]
      omega
    · rw [hlens.2, regionsPerPage_eq]
      omega
    · rw [hlens.2, splitPoint_eq]
      rw [splitPoint_eq] at hge
      omega
    · simp only [fits_append, fits_cons, List.length_append, hlens.1, hlens.2,
        regionsPerPage_eq]
      exact ⟨⟨hfit.1, by omega, by simp [Fits]⟩, by omega, hfit.2.2.2⟩
    · exact filled_cons.mpr ⟨hne, hB⟩

/-- A new page behind page `p`. The page after it keeps its `prev`: the list is the wanted
one once that is corrected. -/
theorem linkNewPage_represents (h : Represents m (A ++ (p, rs) :: B)) (hframes : m.frames ≠ []) :
    ∃ n m', split.linkNewPage p m = .ok (n, m') ∧
      Represents (m'.relink (ptrs B).head? n) (A ++ (p, rs) :: (n, []) :: B) := by
  obtain ⟨n, fs, hfs⟩ := List.exists_cons_of_ne_nil hframes
  obtain ⟨-, hnext, -⟩ := h.focus
  have hnd := h.frames
  rw [hfs, List.nodup_cons] at hnd
  have hfresh : ∀ x ∈ ptrs (A ++ (p, rs) :: B), x ≠ n :=
    fun x hx heq => h.fresh x hx (by simp [hfs, heq])
  have hpn : p ≠ n := hfresh p (by simp)
  let m₀ : Mem := { m with
    pages := Function.update m.pages n ⟨none, none, []⟩, frames := fs, live := m.live + 1 }
  have hprev₀ : m₀.prev = Function.update m.prev n none := by
    funext x
    by_cases hx : x = n <;> simp [m₀, Mem.prev, Function.update, hx]
  have hnext₀ : m₀.next = Function.update m.next n none := by
    funext x
    by_cases hx : x = n <;> simp [m₀, Mem.next, Function.update, hx]
  have hregs₀ : m₀.regions = Function.update m.regions n [] := by
    funext x
    by_cases hx : x = n <;> simp [m₀, Mem.regions, Function.update, hx]
  set m' : Mem := ((m₀.setPrev n (some p)).setNext n (m.next p)).setNext p (some n) with hm'
  have hlink : split.linkNewPage p m = .ok (n, m') := by
    simp only [split.linkNewPage, newPage, hfs, bind, Except.bind]
    rfl
  -- the links and the regions of the old pages are read through the new one
  have hprev' : ∀ x, x ≠ n → m'.prev x = m.prev x := by
    intro x hx
    simp [hm', hprev₀, hx]
  have hnext' : ∀ x, x ≠ n → x ≠ p → m'.next x = m.next x := by
    intro x hx hxp
    simp [hm', hnext₀, hx, hxp]
  have hregs' : ∀ x, x ≠ n → m'.regions x = m.regions x := by
    intro x hx
    simp [hm', hregs₀, hx]
  have hne : ∀ y, (ptrs B).head? = some y → y ∈ ptrs B := fun y hy => List.mem_of_head? hy
  have hnB : (ptrs B).head? ≠ some n := fun hn => hfresh n (by simp [hne n hn]) rfl
  refine ⟨n, m', hlink, ?_, ?_, ?_, ?_, ?_, ?_⟩
  · have hhead : m'.head = m.head := rfl
    simp only [relink_head, hhead, h.head, ptrs_append, ptrs_cons, List.head?_append,
      List.head?_cons]
  · rw [relink_next, ptrs_append, ptrs_cons, ptrs_cons]
    have hseg := h.seg
    rw [ptrs_append, ptrs_cons] at hseg
    have hnd' := h.nodup
    rw [ptrs_append, ptrs_cons] at hnd'
    refine dseg_insert hseg ?_ ?_ ?_ ?_ ?_ ?_
    · simp [hm']
    · rw [relink_prev, if_neg hnB]
      simp [hm']
    · simp [hm', hpn.symm, hnext]
    · intro y hy
      rw [relink_prev, if_pos hy]
    · intro x hx
      have hxB : (ptrs B).head? ≠ some x := by
        intro hhead
        obtain ⟨ys, hys⟩ := List.head?_eq_some_iff.mp hhead
        rw [hys] at hnd' hx
        simp only [List.nodup_append, List.nodup_cons, List.mem_cons, List.mem_append,
          List.tail_cons] at hnd' hx
        grind
      have hxmem : x ∈ ptrs (A ++ (p, rs) :: B) := by
        rw [ptrs_append, ptrs_cons]
        simp only [List.mem_append, List.mem_cons] at hx ⊢
        exact hx.imp id (Or.imp id List.mem_of_mem_tail)
      rw [relink_prev, if_neg hxB, hprev' x (hfresh x hxmem)]
    · intro x hx
      have hxp : x ≠ p := by
        rintro rfl
        simp only [List.nodup_append, List.nodup_cons, List.mem_cons, List.mem_append] at hnd' hx
        grind
      have hxmem : x ∈ ptrs (A ++ (p, rs) :: B) := by
        rw [ptrs_append, ptrs_cons]
        simp only [List.mem_append, List.mem_cons] at hx ⊢
        tauto
      exact hnext' x (hfresh x hxmem) hxp
  · intro e he
    rw [relink_regions]
    simp only [List.mem_append, List.mem_cons] at he
    have hold : ∀ e ∈ A ++ (p, rs) :: B, m'.regions e.1 = e.2 := fun e he =>
      (hregs' e.1 (hfresh e.1 (List.mem_map_of_mem he))).trans (h.regions e he)
    rcases he with he | rfl | rfl | he
    · exact hold e (by simp [he])
    · exact hold (p, rs) (by simp)
    · simp [hm', hregs₀]
    · exact hold e (by simp [he])
  · rw [relink_frames]
    exact hnd.2
  · intro x hx
    rw [relink_frames]
    have hxcases : x = n ∨ x ∈ ptrs (A ++ (p, rs) :: B) := by
      simp only [ptrs_append, ptrs_cons, List.mem_append, List.mem_cons] at hx ⊢
      tauto
    rcases hxcases with rfl | hx
    · exact hnd.1
    · exact fun hmem => h.fresh x hx (by rw [hfs]; exact List.mem_cons_of_mem _ hmem)
  · have hlive : m'.live = m.live + 1 := rfl
    simp only [relink_live, hlive, h.live, List.length_append, List.length_cons]
    omega

/-- Moving the upper half of a full page to the page after it. -/
theorem split_next {idx : ℕ} (h : Represents m (A ++ (p, rs) :: (q, qs) :: B))
    (hlen : rs.length = regionsPerPage) (hidx : idx ≤ rs.length)
    (hroom : qs.length < regionsPerPage / 4) (hfitA : Fits A) (hfitB : Fits B)
    (hfillB : Filled B) :
    ∃ t j A' ts B', (t = p ∨ t = q) ∧ Refilled A A' ∧
      resolveSplit ((m.setRegions q (rs.drop splitPoint ++ qs)).setRegions p
          (rs.take splitPoint)) p
        (if idx ≥ splitPoint then .next (idx - splitPoint) else .this idx) = .ok (t, j) ∧
      SplitPlace ((m.setRegions q (rs.drop splitPoint ++ qs)).setRegions p (rs.take splitPoint))
        t j (idx < rs.length) (regionsOf A ++ rs.take idx)
        (rs.drop idx ++ regionsOf ((q, qs) :: B)) A' ts B' := by
  have hassoc : ∀ qs' rs', A ++ (p, rs') :: (q, qs') :: B =
      (A ++ [(p, rs')]) ++ (q, qs') :: B := by simp
  have hlens : (rs.take splitPoint).length = 127 ∧ (rs.drop splitPoint).length = 127 := by
    rw [List.length_take, List.length_drop, hlen, splitPoint_eq, regionsPerPage_eq]
    exact ⟨rfl, rfl⟩
  have h₂ : Represents ((m.setRegions q (rs.drop splitPoint ++ qs)).setRegions p
      (rs.take splitPoint)) (A ++ (p, rs.take splitPoint) ::
        (q, rs.drop splitPoint ++ qs) :: B) := by
    rw [hassoc] at h
    have h₁ := h.setRegions (rs.drop splitPoint ++ qs)
    rw [← hassoc] at h₁
    exact h₁.setRegions _
  have hnext₂ := h₂.focus.2.1
  have hne : rs.take splitPoint ≠ [] := fun hnil => by simp [hnil] at hlens
  have hne' : rs.drop splitPoint ++ qs ≠ [] := fun hnil => by
    have := (List.append_eq_nil_iff.mp hnil).1
    simp [this] at hlens
  rw [regionsPerPage_eq] at hlen hroom
  by_cases hge : idx ≥ splitPoint
  · refine ⟨q, idx - splitPoint, A ++ [(p, rs.take splitPoint)], rs.drop splitPoint ++ qs, B,
      Or.inr rfl, ?_, ?_, ?_⟩
    · simpa using @Refilled.concat p _ A [] hne
    · simp only [if_pos hge, resolveSplit, hnext₂, ptrs_cons, List.head?_cons, deref, bind,
        Except.bind]
    have hj : idx - splitPoint ≤ (rs.drop splitPoint).length := by
      rw [hlens.2, splitPoint_eq]
      omega
    refine ⟨by simpa using h₂, ⟨?_, ?_, ?_⟩, ?_, fun hin => ?_, ?_, ?_⟩
    · rw [List.take_append_of_le_length hj, ← (take_high hge).1]
      simp
    · rw [List.drop_append_of_le_length hj, (take_high hge).2]
      simp
    · rw [List.length_append]
      omega
    · rw [List.length_append, hlens.2, regionsPerPage_eq]
      omega
    · rw [List.length_append, hlens.2]
      rw [splitPoint_eq] at hge ⊢
      omega
    · simp only [fits_append, fits_cons, List.length_append, hlens.1, hlens.2,
        regionsPerPage_eq]
      exact ⟨⟨hfitA, by omega, by simp [Fits]⟩, by omega, hfitB⟩
    · exact filled_cons.mpr ⟨hne', hfillB⟩
  · have hlt : idx < splitPoint := by omega
    refine ⟨p, idx, A, rs.take splitPoint, (q, rs.drop splitPoint ++ qs) :: B, Or.inl rfl,
      Refilled.refl A,
      by simp [if_neg hge, resolveSplit], ?_⟩
    refine ⟨h₂, ⟨?_, ?_, ?_⟩, ?_, fun _ => ?_, ?_, ?_⟩
    · rw [(take_low hlt).1]
    · have hdrop : _ = rs.drop idx := (take_low hlt).2
      rw [regionsOf_cons, regionsOf_cons, ← hdrop]
      simp only [List.append_assoc]
    · rw [hlens.1]
      rw [splitPoint_eq] at hlt
      omega
    · rw [hlens.1, regionsPerPage_eq]
      omega
    · rw [hlens.1]
      rw [splitPoint_eq] at hlt
      omega
    · simp only [fits_append, fits_cons, List.length_append, hlens.1, hlens.2,
        regionsPerPage_eq]
      exact ⟨hfitA, by omega, by omega, hfitB⟩
    · simp only [filled_cons]
      exact ⟨hne, hne', hfillB⟩

/-- The place of a split index does not depend on what the other pages point back to. -/
theorem resolveSplit_relink {o : Option ℕ} {n : ℕ} (ho : o ≠ some p) (s : SplitIndex) :
    resolveSplit (m.relink o n) p s = resolveSplit m p s := by
  cases s <;> simp [resolveSplit, ho]

/-- Splitting the page `p` at the index finds its place. Where a new page `n` was put between two
pages, the page after it has to be pointed back to `n` for the links to be those of the list. -/
def SplitsTo (m : Mem) (A : List (ℕ × List VirtualAllocRegion)) (p : ℕ)
    (rs : List VirtualAllocRegion) (B : List (ℕ × List VirtualAllocRegion)) (idx : ℕ) : Prop :=
  ∃ s m' o n t j A' ts B', split m p idx = .ok (s, m') ∧ resolveSplit m' p s = .ok (t, j) ∧
    o ≠ some t ∧ (opensBetween m p = false → o = none) ∧ Refilled A A' ∧
    SplitPlace (m'.relink o n) t j (idx < rs.length) (regionsOf A ++ rs.take idx)
      (rs.drop idx ++ regionsOf B) A' ts B'

/-- Without room in the page before it, a full page is split with the page after it. -/
theorem split_eq_splitNext {idx : ℕ} (hfull : m.len p = regionsPerPage)
    (hno : ∀ q, m.prev p = some q → ¬ m.len q < regionsPerPage / 4) :
    split m p idx = split.splitNext p idx m ((m.regions p).take splitPoint)
      ((m.regions p).drop splitPoint) := by
  rw [split, if_neg (by simpa using hfull)]
  cases hq : m.prev p with
  | none => rfl
  | some q => simp [hno q hq]

/-- A full page is split with a new page behind it, if there is a frame for one. -/
theorem split_new_place {idx : ℕ} (h : Represents m (A ++ (p, rs) :: B))
    (hlen : rs.length = regionsPerPage) (hidx : idx ≤ rs.length)
    (hfit : Fits (A ++ (p, rs) :: B)) (hB : Filled B)
    (hsplit : split m p idx = ((split.linkNewPage p m).bind fun s => .ok
      (if idx ≥ splitPoint then .next (idx - splitPoint) else .this idx,
        (s.2.setRegions s.1 (rs.drop splitPoint ++ s.2.regions s.1)).setRegions p
          (rs.take splitPoint))))
    (hopen : opensBetween m p = false → B = []) :
    (m.frames = [] ∧ split m p idx = .error .outOfFrames) ∨ SplitsTo m A p rs B idx := by
  by_cases hframes : m.frames = []
  · left
    exact ⟨hframes, by simp [hsplit, split.linkNewPage, newPage, hframes, bind, Except.bind]⟩
  right
  simp only [fits_append, fits_cons] at hfit
  obtain ⟨n, m₁, hlink, h₁⟩ := linkNewPage_represents h hframes
  have hregs₁ : m₁.regions n = [] := by simpa using h₁.regions (n, []) (by simp)
  have hnd := h₁.nodup
  simp only [ptrs_append, ptrs_cons, List.nodup_append, List.nodup_cons, List.mem_cons] at hnd
  have hhead : ∀ t, t ∉ ptrs B → (ptrs B).head? ≠ some t :=
    fun t ht hhead => ht (List.mem_of_head? hhead)
  have hp : p ∉ ptrs B := fun hp => hnd.2.1.1 (Or.inr hp)
  obtain ⟨t, j, A', ts, B', ht, hA', hres, hto⟩ := split_next h₁ hlen hidx
    (by rw [regionsPerPage_eq]; simp) hfit.1 hfit.2.2 hB
  rw [setRegions_relink, setRegions_relink] at hres hto
  rw [resolveSplit_relink (hhead p hp)] at hres
  refine ⟨_, _, (ptrs B).head?, n, t, j, A', ts, B', ?_, hres, ?_, fun hfalse => ?_, hA',
    by simpa using hto⟩
  · simp [hsplit, hlink, Except.bind, hregs₁]
  · rcases ht with rfl | rfl
    · exact hhead t hp
    · exact hhead t hnd.2.1.2.1
  · simp [hopen hfalse]

/-- A full page is split with the page after it, or with a new page. -/
theorem split_next_place {idx : ℕ} (h : Represents m (A ++ (p, rs) :: B))
    (hlen : rs.length = regionsPerPage) (hidx : idx ≤ rs.length)
    (hfit : Fits (A ++ (p, rs) :: B)) (hB : Filled B)
    (hno : ∀ q, m.prev p = some q → ¬ m.len q < regionsPerPage / 4) :
    (m.frames = [] ∧ split m p idx = .error .outOfFrames) ∨ SplitsTo m A p rs B idx := by
  obtain ⟨-, hnext, hregs⟩ := h.focus
  have hfull : m.len p = regionsPerPage := by rw [Mem.len, hregs, hlen]
  have hsplit : split m p idx = split.splitNext p idx m (rs.take splitPoint)
      (rs.drop splitPoint) := by
    rw [split_eq_splitNext hfull hno, hregs]
  cases B with
  | nil =>
      have hnone : m.next p = none := by simp [hnext]
      refine split_new_place h hlen hidx hfit hB ?_ fun _ => rfl
      rw [hsplit, split.splitNext, hnone]
      rfl
  | cons e B =>
      obtain ⟨q, qs⟩ := e
      have hsome : m.next p = some q := by simp [hnext]
      have hqr : m.regions q = qs := h.regions (q, qs) (by simp)
      have hqlen : m.len q = qs.length := by rw [Mem.len, hqr]
      by_cases hroom : qs.length < regionsPerPage / 4
      · right
        have hfit' := hfit
        simp only [fits_append, fits_cons] at hfit'
        obtain ⟨t, j, A', ts, B', -, hA', hres, hto⟩ := split_next h hlen hidx hroom hfit'.1
          hfit'.2.2.2 (filled_cons.mp hB).2
        refine ⟨_, _, none, 0, t, j, A', ts, B', ?_, hres, by simp, fun _ => rfl, hA', hto⟩
        simp [hsplit, split.splitNext, hsome, hqlen, hqr, hroom, bind, Except.bind]
      · refine split_new_place h hlen hidx hfit hB ?_ fun hfalse => ?_
        · rw [hsplit, split.splitNext, hsome]
          simp only [hqlen, if_neg hroom]
          rfl
        · exfalso
          have hopen : opensBetween m p = true := by
            simp only [opensBetween, hfull, hsome, hqlen]
            cases hp : m.prev p with
            | none => simpa using hroom
            | some q' => simpa using ⟨not_lt.mp (hno q' hp), not_lt.mp hroom⟩
          simp [hopen] at hfalse

/-- **Splitting a full page** keeps the sequence of regions and finds the place of the
index, unless it needs a new page and gets none. -/
theorem split_place (idx : ℕ) (h : Represents m (A ++ (p, rs) :: B))
    (hlen : rs.length = regionsPerPage) (hidx : idx ≤ rs.length)
    (hfit : Fits (A ++ (p, rs) :: B)) (hB : Filled B) :
    (m.frames = [] ∧ split m p idx = .error .outOfFrames) ∨ SplitsTo m A p rs B idx := by
  obtain ⟨hprev, -, -⟩ := h.focus
  rcases List.eq_nil_or_concat A with rfl | ⟨A₀, ⟨q, qs⟩, rfl⟩
  · exact split_next_place h hlen hidx hfit hB (by simp [hprev])
  · rw [List.concat_eq_append] at *
    by_cases hroom : qs.length < regionsPerPage / 4
    · have hassoc : A₀ ++ [(q, qs)] ++ (p, rs) :: B = A₀ ++ (q, qs) :: (p, rs) :: B := by simp
      rw [hassoc] at h hfit
      obtain ⟨s, m', t, j, A', ts, B', hsplit, hres, hA', hto⟩ :=
        split_prev h hlen hidx hroom hfit hB
      exact Or.inr ⟨s, m', none, 0, t, j, A', ts, B', hsplit, hres, by simp, fun _ => rfl,
        hA', hto⟩
    · refine split_next_place h hlen hidx hfit hB fun q' hq' => ?_
      obtain rfl : q = q' := by simpa [hprev] using hq'
      have hqr : m.regions q = qs := h.regions (q, qs) (by simp)
      rwa [Mem.len, hqr]

/-- Neither the last page of `A` nor the first page of `B` has room for half of the regions of
a full page between them. -/
def NoRoom (A B : List (ℕ × List VirtualAllocRegion)) : Prop :=
  (∀ e ∈ A.getLast?, regionsPerPage / 4 ≤ e.2.length) ∧
    ∀ e ∈ B.head?, regionsPerPage / 4 ≤ e.2.length

/-- **Splitting fails** exactly if it has to make a page and no frame is left. -/
theorem split_outOfFrames_iff (idx : ℕ) (h : Represents m (A ++ (p, rs) :: B))
    (hlen : rs.length = regionsPerPage) :
    split m p idx = .error .outOfFrames ↔ m.frames = [] ∧ NoRoom A B := by
  obtain ⟨hprev, hnext, hregs⟩ := h.focus
  have hfull : m.len p = regionsPerPage := by rw [Mem.len, hregs, hlen]
  have hnew : split.linkNewPage p m = .error .outOfFrames ↔ m.frames = [] := by
    cases hframes : m.frames <;> simp [split.linkNewPage, newPage, hframes, bind, Except.bind]
  -- what is left of `split` when the page before `p` has no room
  have hnextCase : ∀ low high, split.splitNext p idx m low high = .error .outOfFrames ↔
      m.frames = [] ∧ ∀ e ∈ B.head?, regionsPerPage / 4 ≤ e.2.length := by
    intro low high
    cases B with
    | nil =>
        rw [← hnew]
        cases hlink : split.linkNewPage p m <;>
          simp [split.splitNext, hnext, hlink, bind, Except.bind]
    | cons e B =>
        have hqlen : m.len e.1 = e.2.length := by rw [Mem.len, h.regions e (by simp)]
        by_cases hroom : e.2.length < regionsPerPage / 4
        · simp [split.splitNext, hnext, hqlen, hroom, bind, Except.bind]
        · rw [← hnew]
          cases hlink : split.linkNewPage p m <;>
            simp [split.splitNext, hnext, hqlen, hroom, hlink, not_lt.mp hroom, bind, Except.bind]
  rcases List.eq_nil_or_concat A with rfl | ⟨A, e, rfl⟩
  · simp [split, hfull, hprev, hnextCase, NoRoom]
  · have hqlen : m.len e.1 = e.2.length := by rw [Mem.len, h.regions e (by simp)]
    by_cases hroom : e.2.length < regionsPerPage / 4
    · simp [split, hfull, hprev, hqlen, hroom, NoRoom]
    · simp [split, hfull, hprev, hqlen, hroom, not_lt.mp hroom, hnextCase, NoRoom]

end Represents

end HydroxKernel.Virt
