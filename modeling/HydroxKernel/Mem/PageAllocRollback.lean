import HydroxKernel.Mem.PageAllocSafety
import Mathlib.Data.Finset.Card
import Mathlib.Data.Finset.Union
import Mathlib.Data.Finset.Image

/-!
# Failed Allocations of the Page-Based Allocator

`allocate` takes frames in batches and maps them as it goes, and the page tables that it has to
make take frames of the same stack. When there are not enough frames for a batch everything is
undone, except for the page tables, which are never given back; when there is no frame for a
page table, the kernel panics.

The frames are kept in a ledger: those that were available before are those of the pages that
are mapped, those of the page tables that were made, and those that are available still.

## Main results

* `makeTable_takes`, `setPageKernel_takes`: every page table that is missing takes a frame.
* `mapFrames_takes`, `undo_takes`: what the loops of `allocate` do to pages, tables and frames.
* `allocate_outcome`: an allocation succeeds exactly if there are frames for its pages and for
  the page tables that are missing; otherwise it panics for lack of a frame for a page table, or
  fails and leaves all pages and the free set as they were.
-/

namespace HydroxKernel.PageAlloc

variable {s s' t : State} {U : Finset (ℕ × ℕ)}

/-! ### The tables that are missing -/

/-- There is a page table of the level, and one on every level above it. -/
def HasTable (s : State) (t : ℕ × ℕ) : Prop :=
  ∀ l < 3, t.1 ≤ l → s.tables l (t.2 / tableSize ^ (l - t.1)) = true

instance (s : State) (t : ℕ × ℕ) : Decidable (HasTable s t) :=
  inferInstanceAs (Decidable (∀ l < 3, t.1 ≤ l → s.tables l (t.2 / tableSize ^ (l - t.1)) = true))

/-- The page tables that the pages of a region need. -/
def regionTables (page n : ℕ) : Finset (ℕ × ℕ) :=
  (Finset.range n).biUnion fun k => (Finset.range 3).image fun l => (l, tableOf l (page + k))

/-- The number of tables of a set that are missing. -/
def missing (s : State) (U : Finset (ℕ × ℕ)) : ℕ := (U.filter fun t => ¬ HasTable s t).card

/-- The tables of a page above one of its tables. -/
theorem tableOf_div {level l page : ℕ} (hl : level ≤ l) :
    tableOf level page / tableSize ^ (l - level) = tableOf l page := by
  rw [tableOf, tableOf, Nat.div_div_eq_div_mul, ← pow_add]
  congr 2
  omega

/-- A page has a table on a level when it has one there and on every level above. -/
theorem hasTable_tableOf {level page : ℕ} :
    HasTable s (level, tableOf level page) ↔
      ∀ l < 3, level ≤ l → s.tables l (tableOf l page) = true := by
  constructor
  · intro h l hl hle
    rw [← tableOf_div hle]
    exact h l hl hle
  · intro h l hl hle
    rw [tableOf_div hle]
    exact h l hl hle

/-- The tables of the pages of a region. -/
theorem mem_regionTables {page n q level : ℕ} (hq : Within page n q) (hlevel : level < 3) :
    (level, tableOf level q) ∈ regionTables page n := by
  have hk : page + (q - page) = q := Nat.add_sub_cancel' hq.1
  refine Finset.mem_biUnion.mpr ⟨q - page, Finset.mem_range.mpr ?_, ?_⟩
  · have := hq.1
    have := hq.2
    omega
  · rw [hk]
    exact Finset.mem_image.mpr ⟨level, Finset.mem_range.mpr hlevel, rfl⟩

/-- Only the tables matter for which are missing. -/
theorem missing_congr (h : s'.tables = s.tables) : missing s' U = missing s U := by
  refine congrArg Finset.card (Finset.filter_congr fun x _ => ?_)
  rw [HasTable, HasTable, h]

/-- When no other table is added, the tables that are missing are the same but for one. -/
theorem missing_add_one {x : ℕ × ℕ} (hx : x ∈ U) (hnot : ¬ HasTable s x)
    (h : ∀ y, HasTable s' y ↔ HasTable s y ∨ y = x) : missing s' U + 1 = missing s U := by
  have heq : (U.filter fun y => ¬ HasTable s' y) = (U.filter fun y => ¬ HasTable s y).erase x := by
    ext y
    rw [Finset.mem_filter, Finset.mem_erase, Finset.mem_filter, h, not_or]
    tauto
  rw [missing, heq, missing]
  exact Finset.card_erase_add_one (Finset.mem_filter.mpr ⟨hx, hnot⟩)

/-- Making a table that there is not. -/
theorem makeTable_absent {level page : ℕ} (h : ¬ s.tables level (tableOf level page) = true) :
    (s.frames = [] ∧ makeTable level s page = .error .outOfMemory) ∨
      ∃ frame frames s', s.frames = frame :: frames ∧ makeTable level s page = .ok s' ∧
        s'.frames = frames ∧ s'.free = s.free ∧ s'.flags = s.flags ∧
        ∀ l q, s'.tables l q =
          if l = level ∧ q = tableOf level page then true
          else if l + 1 = level ∧ q / tableSize = tableOf level page then false
          else s.tables l q := by
  cases hframes : s.frames with
  | nil =>
      refine .inl ⟨rfl, ?_⟩
      simp only [makeTable, if_neg h, allocOne, hframes]
  | cons frame frames =>
      refine .inr ⟨frame, frames, { s with
          frames := frames
          tables := fun l q =>
            if l = level ∧ q = tableOf level page then true
            else if l + 1 = level ∧ q / tableSize = tableOf level page then false
            else s.tables l q
          entries := fun q =>
            if level = 0 ∧ q / tableSize = tableOf level page then none else s.entries q },
        rfl, ?_, rfl, rfl, rfl, fun _ _ => rfl⟩
      simp only [makeTable, if_neg h, allocOne, hframes]

/-- A table that is made is added to the tables, and no other: the tables below it that there may
have been before had none above them. -/
theorem hasTable_of_made {level page : ℕ} (hlevel : level < 3)
    (hup : ∀ l < 3, level < l → s.tables l (tableOf l page) = true)
    (h : ¬ s.tables level (tableOf level page) = true)
    (htables : ∀ l q, s'.tables l q =
      if l = level ∧ q = tableOf level page then true
      else if l + 1 = level ∧ q / tableSize = tableOf level page then false
      else s.tables l q) (x : ℕ × ℕ) :
    HasTable s' x ↔ HasTable s x ∨ x = (level, tableOf level page) := by
  obtain ⟨m, p⟩ := x
  have hsucc : ∀ l, m ≤ l → p / tableSize ^ (l + 1 - m) = p / tableSize ^ (l - m) / tableSize := by
    intro l hl
    rw [Nat.div_div_eq_div_mul, ← pow_succ]
    congr 2
    omega
  constructor
  · intro hhas
    by_cases hx : (m, p) = (level, tableOf level page)
    · exact .inr hx
    refine .inl fun l hl hml => ?_
    have hnew := hhas l hl hml
    rw [htables] at hnew
    split at hnew
    · rename_i hand
      obtain ⟨rfl, heq⟩ := hand
      rcases Nat.eq_or_lt_of_le hml with heqm | hlt
      · dsimp only at heqm heq
        subst heqm
        rw [Nat.sub_self, pow_zero, Nat.div_one] at heq
        exact absurd (congrArg (Prod.mk m) heq) hx
      · -- a table below the one that is made is empty
        obtain ⟨k, rfl⟩ : ∃ k, l = k + 1 := ⟨l - 1, by omega⟩
        have hk : m ≤ k := Nat.lt_succ_iff.mp hlt
        have hbelow := hhas k (by omega) hk
        dsimp only at heq
        rw [hsucc k hk] at heq
        rw [htables, if_neg (by omega), if_pos ⟨rfl, heq⟩] at hbelow
        exact absurd hbelow Bool.false_ne_true
    · split at hnew
      · exact absurd hnew Bool.false_ne_true
      · exact hnew
  · rintro (hhas | heq)
    · intro l hl hml
      rw [htables]
      split
      · rfl
      · split
        · rename_i hand
          obtain ⟨rfl, heq⟩ := hand
          refine absurd ?_ h
          have habove := hhas (l + 1) hlevel (Nat.le_succ_of_le hml)
          dsimp only at habove heq
          rwa [hsucc l hml, heq] at habove
        · exact hhas l hl hml
    · rw [heq, hasTable_tableOf]
      intro l hl hle
      rw [htables]
      rcases Nat.eq_or_lt_of_le hle with rfl | hlt
      · rw [if_pos ⟨rfl, rfl⟩]
      · rw [if_neg (by omega), if_neg (by omega)]
        exact hup l hl hlt

/-- What making a page table does to the tables and the frames: a table that is missing takes
a frame. -/
structure Takes (U : Finset (ℕ × ℕ)) (s s' : State) (made : List ℕ) : Prop where
  frames : s.frames = made ++ s'.frames
  tables : made.length + missing s' U = missing s U
  free : s'.free = s.free

/-- Nothing is taken. -/
theorem Takes.refl (U : Finset (ℕ × ℕ)) (s : State) : Takes U s s [] :=
  ⟨rfl, Nat.zero_add _, rfl⟩

/-- Frames are taken one after another. -/
theorem Takes.trans {made made' : List ℕ} (h : Takes U s s' made) (h' : Takes U s' t made') :
    Takes U s t (made ++ made') where
  frames := by rw [h.frames, h'.frames, List.append_assoc]
  tables := by
    have := h.tables
    have := h'.tables
    rw [List.length_append]
    omega
  free := h'.free.trans h.free

/-- Making the table of a page takes a frame if there is none. -/
theorem makeTable_takes {level page : ℕ} (hlevel : level < 3)
    (hU : (level, tableOf level page) ∈ U)
    (hup : ∀ l < 3, level < l → s.tables l (tableOf l page) = true) :
    (s.frames = [] ∧ 0 < missing s U ∧ makeTable level s page = .error .outOfMemory) ∨
      ∃ s' made, makeTable level s page = .ok s' ∧ Takes U s s' made ∧ s'.flags = s.flags ∧
        (∀ q, lookup s' q = lookup s q) ∧
        ∀ l < 3, level ≤ l → s'.tables l (tableOf l page) = true := by
  by_cases hp : s.tables level (tableOf level page) = true
  · refine .inr ⟨s, [], if_pos hp, .refl U s, rfl, fun _ => rfl, fun l hl hle => ?_⟩
    rcases Nat.eq_or_lt_of_le hle with rfl | hlt
    · exact hp
    · exact hup l hl hlt
  have hnot : ¬ HasTable s (level, tableOf level page) := fun hhas =>
    hp (hasTable_tableOf.mp hhas level hlevel le_rfl)
  rcases makeTable_absent hp with ⟨hnil, herr⟩ |
    ⟨frame, frames, s', hframes, hok, hframes', hfree, hflags, htables⟩
  · refine .inl ⟨hnil, ?_, herr⟩
    exact Finset.card_pos.mpr ⟨_, Finset.mem_filter.mpr ⟨hU, hnot⟩⟩
  · have hhas := hasTable_of_made hlevel hup hp htables
    have hlookup : ∀ q, lookup s' q = lookup s q := by
      rcases makeTable_spec hlevel s page with ⟨-, herr⟩ | ⟨t, k, hok', -, hsame, -⟩
      · rw [hok] at herr
        cases herr
      · rw [hok] at hok'
        cases hok'
        exact hsame.lookup
    refine .inr ⟨s', [frame], hok, ⟨?_, ?_, hfree⟩, hflags, hlookup, ?_⟩
    · rw [hframes, hframes']
      rfl
    · rw [List.length_singleton, Nat.add_comm, missing_add_one hU hnot hhas]
    · exact hasTable_tableOf.mp ((hhas _).mpr (.inr rfl))

/-- There are too few frames when they are used up before all tables are made. -/
theorem Takes.length_lt {made : List ℕ} (h : Takes U s s' made) (hnil : s'.frames = [])
    (hpos : 0 < missing s' U) : s.frames.length < missing s U := by
  have := h.tables
  rw [h.frames, hnil, List.append_nil]
  omega

/-- **Mapping a page takes a frame for each of its tables that is missing**, and fails if there
is none. -/
theorem setPageKernel_takes {q : ℕ} (hq : higherHalf ≤ q)
    (hU : ∀ l < 3, (l, tableOf l q) ∈ U) (f : ℕ) (flags : Page.PageFlags) :
    (s.frames.length < missing s U ∧
        setPageKernel s (q * pageSize) (some (f, flags)) = .error .outOfMemory) ∨
      ∃ s' made, setPageKernel s (q * pageSize) (some (f, flags)) = .ok s' ∧ Takes U s s' made ∧
        s'.flags = Function.update s.flags q flags ∧
        ∀ x, lookup s' x = if x = q then some f else lookup s x := by
  have hle : higherHalf * pageSize ≤ q * pageSize := Nat.mul_le_mul_right _ hq
  simp only [setPageKernel, setPageInternal, ensure_pos hle, ensure_pos (Nat.mul_mod_left q _),
    page_div, ok_bind]
  rcases makeTable_takes (s := s) (by decide : 2 < 3) (hU 2 (by decide))
      (fun l hl hlt => by omega) with
    ⟨hnil, hpos, herr⟩ | ⟨s₂, made₂, hok₂, htakes₂, hflags₂, hlookup₂, hup₂⟩
  · exact .inl ⟨(Takes.refl U s).length_lt hnil hpos, by rw [herr, error_bind]⟩
  rcases makeTable_takes (s := s₂) (by decide : 1 < 3) (hU 1 (by decide))
      (fun l hl hlt => hup₂ l hl hlt) with
    ⟨hnil, hpos, herr⟩ | ⟨s₁, made₁, hok₁, htakes₁, hflags₁, hlookup₁, hup₁⟩
  · exact .inl ⟨htakes₂.length_lt hnil hpos, by rw [hok₂, ok_bind, herr, error_bind]⟩
  rcases makeTable_takes (s := s₁) (by decide : 0 < 3) (hU 0 (by decide))
      (fun l hl hlt => hup₁ l hl hlt) with
    ⟨hnil, hpos, herr⟩ | ⟨s₀, made₀, hok₀, htakes₀, hflags₀, hlookup₀, hup₀⟩
  · exact .inl ⟨(htakes₂.trans htakes₁).length_lt hnil hpos,
      by rw [hok₂, ok_bind, hok₁, ok_bind, herr, error_bind]⟩
  obtain ⟨hframes, htables, hfree⟩ := (htakes₂.trans htakes₁).trans htakes₀
  refine .inr ⟨{ s₀ with
      entries := Function.update s₀.entries q (some f)
      flags := Function.update s₀.flags q flags }, made₂ ++ made₁ ++ made₀,
    by rw [hok₂, ok_bind, hok₁, ok_bind, hok₀, ok_bind], ⟨hframes, htables, hfree⟩, ?_,
    fun x => ?_⟩
  · rw [hflags₀, hflags₁, hflags₂]
  · by_cases hx : x = q
    · rw [if_pos hx, hx, lookup, if_pos ⟨hup₀ 2 (by decide) (by decide),
        hup₀ 1 (by decide) (by decide), hup₀ 0 (by decide) (by decide)⟩]
      exact Function.update_self _ _ _
    · rw [if_neg hx, ← hlookup₂, ← hlookup₁, ← hlookup₀]
      simp only [lookup, Function.update_of_ne hx]

/-- Unmapping a page takes no frames and keeps the tables and the flags. -/
theorem setPageKernel_none_keeps {q : ℕ} (h : setPageKernel s (q * pageSize) none = .ok s') :
    s'.tables = s.tables ∧ s'.flags = s.flags := by
  obtain ⟨-, h⟩ := ensure_bind_eq_ok.mp h
  obtain ⟨-, h⟩ := ensure_bind_eq_ok.mp h
  dsimp only at h
  split at h
  · cases h
    exact ⟨rfl, rfl⟩
  · split at h
    · cases h
      exact ⟨rfl, rfl⟩
    · split at h
      · cases h
        exact ⟨rfl, rfl⟩
      · cases h
        exact ⟨rfl, rfl⟩

/-! ### The loops of `allocate` -/

instance (a n q : ℕ) : Decidable (Within a n q) :=
  inferInstanceAs (Decidable (a ≤ q ∧ q < a + n))

/-- The state `t` is `s` after the pages from `a` on were mapped to the frames `fs`. The frames
`P` were taken for further pages, and the frames `made` for page tables. -/
structure Mapped (U : Finset (ℕ × ℕ)) (a : ℕ) (s t : State) (fs P made : List ℕ) : Prop where
  lookup : ∀ q, lookup t q = if Within a fs.length q then fs[q - a]? else lookup s q
  flags : ∀ q, t.flags q = if Within a fs.length q then writeable else s.flags q
  free : t.free = s.free
  frames : s.frames.Perm (fs ++ P ++ made ++ t.frames)
  tables : made.length + missing t U = missing s U

/-- The pages of a region: they lie in the higher half, they were not mapped before, and `U`
holds their tables. -/
structure Region (U : Finset (ℕ × ℕ)) (a n : ℕ) (s : State) : Prop where
  higherHalf : ∀ q, Within a n q → higherHalf ≤ q
  unmapped : ∀ q, Within a n q → PageAlloc.lookup s q = none
  tables : ∀ q, Within a n q → ∀ l < 3, (l, tableOf l q) ∈ U

section Loops

variable {a n : ℕ} {fs P made : List ℕ}

/-- The frames that were taken are for pages and for page tables. -/
theorem Mapped.length_lt (h : Mapped U a s t fs P made) (hlen : fs.length + P.length ≤ n)
    (hlt : t.frames.length < missing t U) : s.frames.length < n + missing s U := by
  have hframes := h.frames.length_eq
  have htables := h.tables
  simp only [List.length_append] at hframes
  omega

/-- The frame at the end of the frames of a region. -/
theorem getElem?_concat_region {f q : ℕ} :
    (if Within a (fs ++ [f]).length q then (fs ++ [f])[q - a]? else lookup s q) =
      if q = a + fs.length then some f
      else if Within a fs.length q then fs[q - a]? else lookup s q := by
  rw [List.length_append, List.length_singleton]
  by_cases hq : q = a + fs.length
  · rw [if_pos hq, if_pos (by simp only [Within]; omega), hq, Nat.add_sub_cancel_left]
    exact List.getElem?_concat_length
  · rw [if_neg hq]
    by_cases hw : Within a fs.length q
    · have hlt : q - a < fs.length := by
        have := hw.1
        have := hw.2
        omega
      rw [if_pos hw, if_pos ⟨hw.1, by have := hw.2; omega⟩, List.getElem?_append_left hlt]
    · rw [if_neg hw, if_neg]
      rintro ⟨hge, hlt⟩
      exact hw ⟨hge, by omega⟩

/-- One more page is mapped. -/
theorem Mapped.map {f : ℕ} (h : Mapped U a s t fs (f :: P) made) (hregion : Region U a n s)
    (hlen : fs.length + (P.length + 1) ≤ n) :
    (t.frames.length < missing t U ∧
        setPageKernel t ((a + fs.length) * pageSize) (some (f, writeable)) =
          .error .outOfMemory) ∨
      ∃ t' made', setPageKernel t ((a + fs.length) * pageSize) (some (f, writeable)) = .ok t' ∧
        Mapped U a s t' (fs ++ [f]) P made' := by
  have hw : Within a n (a + fs.length) := ⟨Nat.le_add_right _ _, by omega⟩
  rcases setPageKernel_takes (s := t) (hregion.higherHalf _ hw) (hregion.tables _ hw) f
      writeable with ⟨hlt, herr⟩ | ⟨t', made', hok, htakes, hflags, hlookup⟩
  · exact .inl ⟨hlt, herr⟩
  refine .inr ⟨t', made ++ made', hok, fun q => ?_, fun q => ?_, htakes.free.trans h.free, ?_, ?_⟩
  · rw [hlookup, h.lookup, getElem?_concat_region]
  · rw [hflags, List.length_append, List.length_singleton]
    by_cases hq : q = a + fs.length
    · rw [hq, Function.update_self, if_pos ⟨Nat.le_add_right _ _, by omega⟩]
    · rw [Function.update_of_ne hq, h.flags]
      refine if_congr ?_ rfl rfl
      simp only [Within]
      omega
  · refine h.frames.trans ?_
    rw [htakes.frames]
    simp only [List.append_assoc, List.cons_append, List.nil_append]
    exact List.Perm.refl _
  · have := h.tables
    have := htakes.tables
    rw [List.length_append]
    omega

/-- **The loop over a batch of frames** maps one page after another, if there are frames for the
page tables that are missing. -/
theorem mapFrames_takes (h : Mapped U a s t fs P made) (hregion : Region U a n s)
    (hlen : fs.length + P.length ≤ n) :
    (mapFrames (a * pageSize) fs.length P t = .error .outOfMemory ∧
        s.frames.length < n + missing s U) ∨
      ∃ t' made', mapFrames (a * pageSize) fs.length P t = .ok t' ∧
        Mapped U a s t' (fs ++ P) [] made' := by
  induction P generalizing fs t made with
  | nil =>
      refine .inr ⟨t, made, rfl, ?_⟩
      rw [List.append_nil]
      exact h
  | cons f P ih =>
      rw [List.length_cons] at hlen
      have hw : Within a n (a + fs.length) := ⟨Nat.le_add_right _ _, by omega⟩
      have hnone : getPage t ((a + fs.length) * pageSize) = none := by
        rw [getPage_page, h.lookup, if_neg, hregion.unmapped _ hw]
        rintro ⟨-, hlt⟩
        omega
      rw [mapFrames, page_add, ensure_pos hnone, ok_bind]
      rcases h.map hregion hlen with ⟨hlt, herr⟩ | ⟨t₁, made₁, hok, h₁⟩
      · rw [herr, error_bind]
        exact .inl ⟨rfl, h.length_lt (by rw [List.length_cons]; omega) hlt⟩
      · rw [hok, ok_bind]
        have hnext := ih h₁ (by rw [List.length_append, List.length_singleton]; omega)
        rw [List.length_append, List.length_singleton, List.append_assoc] at hnext
        exact hnext

/-- The loop that collects frames without unmapping the pages changes nothing. -/
theorem collect_mapped {done k : ℕ} (h : ∀ i < k, lookup t (a + done + i) = (fs.drop done)[i]?)
    (hlen : k ≤ (fs.drop done).length) :
    collect false (a * pageSize) done k t = .ok ((fs.drop done).take k, t) := by
  induction k generalizing done with
  | zero => rfl
  | succ k ih =>
      cases hdrop : fs.drop done with
      | nil =>
          rw [hdrop] at hlen
          exact absurd hlen (Nat.not_succ_le_zero k)
      | cons f rest =>
          have hf : lookup t (a + done) = some f := by
            have h0 := h 0 (Nat.succ_pos k)
            rwa [hdrop] at h0
          have hrest : fs.drop (done + 1) = rest := by
            rw [← List.drop_drop, hdrop]
            rfl
          have hnext := @ih (done + 1) (fun i hi => by
              have hi' := h (i + 1) (Nat.succ_lt_succ hi)
              rw [hdrop, List.getElem?_cons_succ] at hi'
              rw [hrest, ← hi']
              congr 1
              omega) (by
            rw [hdrop, List.length_cons] at hlen
            rw [hrest]
            omega)
          rw [collect, page_add, getPage_page, hf]
          simp only [Bool.false_eq_true, if_false, ok_bind, hnext, hrest, List.take_succ_cons]

/-- The loop that gives back the frames of pages in batches gives back all of them. -/
theorem releaseLoop_mapped {fuel done : ℕ} {given : List ℕ}
    (h : ∀ q, Within a fs.length q → lookup t q = fs[q - a]?) (hdone : done ≤ fs.length)
    (hfuel : fs.length - done < fuel) :
    ∃ frames, releaseLoop false (a * pageSize) fs.length fuel done { t with frames := given } =
        .ok { t with frames := frames } ∧ frames.Perm (fs.drop done ++ given) := by
  induction fuel generalizing done given with
  | zero => exact absurd hfuel (Nat.not_lt_zero _)
  | succ fuel ih =>
      rw [releaseLoop]
      by_cases hlt : done < fs.length
      · have hcollect : collect false (a * pageSize) done (min (fs.length - done) 16)
            { t with frames := given } =
              .ok ((fs.drop done).take (min (fs.length - done) 16),
                { t with frames := given }) := by
          refine collect_mapped (fun i hi => ?_) ?_
          · have hi' : i < fs.length - done := lt_of_lt_of_le hi (Nat.min_le_left _ _)
            have hq := h (a + done + i) ⟨by omega, by omega⟩
            rw [List.getElem?_drop]
            refine hq.trans ?_
            congr 1
            omega
          · rw [List.length_drop]
            exact Nat.min_le_left _ _
        rw [if_pos hlt]
        simp only [hcollect, ok_bind]
        obtain ⟨frames, hok, hperm⟩ := @ih (done + min (fs.length - done) 16)
          (((fs.drop done).take (min (fs.length - done) 16)).reverse ++ given)
          (by omega) (by omega)
        refine ⟨frames, hok, hperm.trans ?_⟩
        rw [← List.drop_drop]
        have hsplit := List.take_append_drop (min (fs.length - done) 16) (fs.drop done)
        calc ((fs.drop done).drop (min (fs.length - done) 16) ++
              (((fs.drop done).take (min (fs.length - done) 16)).reverse ++ given)).Perm
              ((fs.drop done).drop (min (fs.length - done) 16) ++
                ((fs.drop done).take (min (fs.length - done) 16) ++ given)) :=
              List.Perm.append_left _ ((List.reverse_perm _).append_right _)
          List.Perm _ ((fs.drop done).take (min (fs.length - done) 16) ++
              (fs.drop done).drop (min (fs.length - done) 16) ++ given) := by
              rw [← List.append_assoc]
              exact List.perm_append_comm.append_right _
          _ = fs.drop done ++ given := by rw [hsplit]
      · refine ⟨given, if_neg hlt, ?_⟩
        rw [List.drop_eq_nil_of_le (Nat.not_lt.mp hlt), List.nil_append]

/-- Unmapping the first pages of a region keeps the tables and the frames. -/
theorem unmapPages_keeps {k : ℕ} (h : ∀ q, Within a k q → higherHalf ≤ q) :
    ∃ t', unmapPages (a * pageSize) k t = .ok t' ∧
      (∀ q, lookup t' q = if Within a k q then none else lookup t q) ∧
      t'.tables = t.tables ∧ t'.flags = t.flags ∧ t'.frames = t.frames ∧ t'.free = t.free := by
  induction k with
  | zero => exact ⟨t, rfl, fun q => (if_neg (not_within_zero a q)).symm, rfl, rfl, rfl, rfl⟩
  | succ k ih =>
      obtain ⟨t₁, hok₁, hlookup₁, htables₁, hflags₁, hframes₁, hfree₁⟩ :=
        ih fun q hq => h q ⟨hq.1, by have := hq.2; omega⟩
      obtain ⟨t', hok', hlookup', hframes', hfree'⟩ :=
        setPageKernel_none t₁ (h (a + k) ⟨Nat.le_add_right _ _, by omega⟩)
      obtain ⟨htables', hflags'⟩ := setPageKernel_none_keeps hok'
      refine ⟨t', ?_, fun q => ?_, htables'.trans htables₁, hflags'.trans hflags₁,
        hframes'.trans hframes₁, hfree'.trans hfree₁⟩
      · rw [unmapPages, hok₁, ok_bind, page_add, hok']
      · rw [hlookup', hlookup₁]
        by_cases hq : q = a + k
        · rw [if_pos hq, if_pos ⟨by omega, by omega⟩]
        · rw [if_neg hq]
          refine if_congr ?_ rfl rfl
          simp only [Within]
          omega

/-- What a failed allocation leaves: all pages are as they were, and the pages of the region are
free again. Frames are missing only for the page tables that were made. -/
structure Undone (U : Finset (ℕ × ℕ)) (a n : ℕ) (s t : State) (made : List ℕ) : Prop where
  lookup : ∀ q, lookup t q = lookup s q
  flags : ∀ q, PageAlloc.lookup s q ≠ none → t.flags q = s.flags q
  free : ∀ q, t.free q = if Within a n q then true else s.free q
  frames : s.frames.Perm (made ++ t.frames)
  tables : made.length + missing t U = missing s U

/-- **Everything is undone but the page tables.** -/
theorem undo_takes (h : Mapped U a s t fs [] made) (hregion : Region U a n s)
    (hlen : fs.length ≤ n) (hfree : ∀ q, Within a n q → s.free q = false) :
    ∃ t', undo t (a * pageSize) fs.length n = .ok t' ∧ Undone U a n s t' made := by
  have hsub : ∀ {q}, Within a fs.length q → Within a n q := fun hq =>
    ⟨hq.1, by have := hq.2; omega⟩
  obtain ⟨frames, hrelease, hperm⟩ : ∃ frames,
      releaseLoop false (a * pageSize) fs.length (fs.length + 1) 0 { t with frames := t.frames } =
        .ok { t with frames := frames } ∧ frames.Perm (fs.drop 0 ++ t.frames) :=
    releaseLoop_mapped (fun q hq => by rw [h.lookup, if_pos hq]) (Nat.zero_le _)
      (Nat.lt_succ_self _)
  rw [List.drop_zero] at hperm
  obtain ⟨t₂, hunmap, hlookup₂, htables₂, hflags₂, hframes₂, hfree₂⟩ :=
    unmapPages_keeps (a := a) (k := fs.length) (t := { t with frames := frames })
      fun q hq => hregion.higherHalf q (hsub hq)
  have hvirt := virtFree_eq (a := a) (n := n) (s := t₂)
    fun q hq => by rw [hfree₂, ← hfree q hq, ← h.free]
  refine ⟨{ t₂ with free := fun q => if a ≤ q ∧ q < a + n then true else t₂.free q }, ?_,
    fun q => ?_, fun q hq => ?_, fun q => ?_, ?_, ?_⟩
  · rw [undo, release]
    have hstart : releaseLoop false (a * pageSize) fs.length (fs.length + 1) 0 t =
        .ok { t with frames := frames } := hrelease
    rw [hstart, ok_bind, hunmap, ok_bind, hvirt]
  · refine (hlookup₂ q).trans ?_
    by_cases hq : Within a fs.length q
    · rw [if_pos hq, hregion.unmapped q (hsub hq)]
    · rw [if_neg hq]
      exact (h.lookup q).trans (if_neg hq)
  · have hnot : ¬ Within a fs.length q := fun hw => hq (hregion.unmapped q (hsub hw))
    exact (congrFun hflags₂ q).trans ((h.flags q).trans (if_neg hnot))
  · exact if_congr Iff.rfl rfl ((congrFun hfree₂ q).trans (congrFun h.free q))
  · refine h.frames.trans ?_
    rw [List.append_nil]
    calc (fs ++ made ++ t.frames).Perm (made ++ fs ++ t.frames) :=
          List.perm_append_comm.append_right _
      List.Perm _ (made ++ t₂.frames) := by
          rw [List.append_assoc, hframes₂]
          exact hperm.symm.append_left _
  · refine Eq.trans ?_ h.tables
    exact congrArg (made.length + ·) (missing_congr htables₂)

/-- **The main loop** maps the whole region, or there are too few frames: then it panics for lack
of a frame for a page table, or everything is undone. -/
theorem allocLoop_takes {fuel : ℕ} (h : Mapped U a s t fs [] made) (hregion : Region U a n s)
    (hlen : fs.length ≤ n) (hfuel : n - fs.length < fuel)
    (hfree : ∀ q, Within a n q → s.free q = false) :
    (∃ t' fs' made', allocLoop (a * pageSize) n fuel fs.length t = .ok (true, t') ∧
        fs'.length = n ∧ Mapped U a s t' fs' [] made') ∨
      s.frames.length < n + missing s U ∧
        (allocLoop (a * pageSize) n fuel fs.length t = .error .outOfMemory ∨
          ∃ t' made', allocLoop (a * pageSize) n fuel fs.length t = .ok (false, t') ∧
            Undone U a n s t' made') := by
  induction fuel generalizing fs t made with
  | zero => exact absurd hfuel (Nat.not_lt_zero _)
  | succ fuel ih =>
      rw [allocLoop]
      by_cases hlt : fs.length < n
      · rw [if_pos hlt]
        by_cases hfew : t.frames.length < min (n - fs.length) 16
        · right
          have hbound : s.frames.length < n + missing s U := by
            have hframes := h.frames.length_eq
            have htables := h.tables
            simp only [List.length_append, List.length_nil] at hframes
            omega
          obtain ⟨t', hundo, hundone⟩ := undo_takes h hregion hlen hfree
          refine ⟨hbound, .inr ⟨t', made, ?_, hundone⟩⟩
          simp only [allocMany, if_pos hfew, hundo, ok_bind]
        · have htake : (t.frames.take (min (n - fs.length) 16)).length =
              min (n - fs.length) 16 := by
            rw [List.length_take]
            omega
          have hbatch : Mapped U a s { t with frames := t.frames.drop (min (n - fs.length) 16) } fs
              (t.frames.take (min (n - fs.length) 16)) made := by
            refine ⟨h.lookup, h.flags, h.free, h.frames.trans ?_, h.tables⟩
            rw [List.append_nil]
            calc (fs ++ made ++ t.frames).Perm (fs ++ (made ++
                  (t.frames.take (min (n - fs.length) 16) ++
                    t.frames.drop (min (n - fs.length) 16)))) := by
                  rw [List.take_append_drop, List.append_assoc]
              List.Perm _ (fs ++ (t.frames.take (min (n - fs.length) 16) ++
                  (made ++ t.frames.drop (min (n - fs.length) 16)))) := by
                  refine List.Perm.append_left _ ?_
                  rw [← List.append_assoc, ← List.append_assoc]
                  exact List.perm_append_comm.append_right _
              _ = _ := by simp only [List.append_assoc]
          simp only [allocMany, if_neg hfew]
          rcases mapFrames_takes hbatch hregion (by rw [htake]; omega) with
            ⟨herr, hbound⟩ | ⟨t₁, made₁, hok, h₁⟩
          · rw [herr, error_bind]
            exact .inr ⟨hbound, .inl rfl⟩
          · rw [hok, ok_bind]
            have hnext := ih h₁ (by rw [List.length_append, htake]; omega)
              (by rw [List.length_append, htake]; omega)
            rw [List.length_append, htake] at hnext
            exact hnext
      · rw [if_neg hlt]
        exact .inl ⟨t, fs, made, rfl, by omega, h⟩

end Loops

/-! ### Allocations -/

/-- A page that is mapped has all its tables. -/
theorem hasTable_of_lookup {q l : ℕ} (h : lookup s q ≠ none) : HasTable s (l, tableOf l q) := by
  rw [hasTable_tableOf]
  intro l' hl' _
  by_contra hnot
  exact h (lookup_of_missing hl' hnot)

/-- The pages of the region of a successful allocation are mapped writeable to distinct frames that
were available; all other pages are as they were. The frames that are gone are those of the
pages and one for every page table that was missing. -/
structure Allocated (s t : State) (a n : ℕ) : Prop where
  pages : ∃ fs made, fs.length = n ∧ fs.Nodup ∧ s.frames.Perm (fs ++ made ++ t.frames) ∧
    made.length = missing s (regionTables a n) ∧
    ∀ k < n, getPageFlags s (a * pageSize + k * pageSize) = none ∧
      getPageFlags t (a * pageSize + k * pageSize) = (fs[k]?).map fun f => (f, writeable)
  others : ∀ addr, ¬ Within a n (addr / pageSize) → getPageFlags t addr = getPageFlags s addr
  free : ∀ q, t.free q = if Within a n q then false else s.free q

/-- After a failed allocation every page and the free set are as they were. The frames that are
gone are those of the page tables that were made. -/
structure Failed (s t : State) (a n : ℕ) : Prop where
  pages : ∀ addr, getPageFlags t addr = getPageFlags s addr
  free : t.free = s.free
  frames : ∃ made, s.frames.Perm (made ++ t.frames) ∧
    made.length + missing t (regionTables a n) = missing s (regionTables a n)

/-- A page table that was made is not given back, and a page is mapped only below tables. -/
theorem getPageFlags_congr {addr : ℕ} (hl : lookup t (addr / pageSize) = lookup s (addr / pageSize))
    (hf : lookup s (addr / pageSize) ≠ none →
      t.flags (addr / pageSize) = s.flags (addr / pageSize)) :
    getPageFlags t addr = getPageFlags s addr := by
  rw [getPageFlags, getPageFlags, getPage, getPage, hl]
  cases h : lookup s (addr / pageSize) with
  | none => rfl
  | some f => rw [hf (by rw [h]; exact Option.some_ne_none f)]

/-- When all pages of a region are mapped, no table of the region is missing. -/
theorem missing_regionTables_of_mapped {a n : ℕ} (h : ∀ q, Within a n q → lookup s q ≠ none) :
    missing s (regionTables a n) = 0 := by
  rw [missing, Finset.card_eq_zero, Finset.filter_eq_empty_iff]
  intro x hx
  rw [not_not]
  obtain ⟨k, hk, hx⟩ := Finset.mem_biUnion.mp hx
  obtain ⟨l, -, rfl⟩ := Finset.mem_image.mp hx
  exact hasTable_of_lookup (h (a + k) ⟨Nat.le_add_right _ _, by
    have := Finset.mem_range.mp hk
    omega⟩)

/-- Mapping a whole region is a successful allocation. -/
theorem Mapped.allocated {a n : ℕ} {s₀ : State} {fs made : List ℕ}
    (h : Mapped (regionTables a n) a s t fs [] made) (hlen : fs.length = n)
    (hregion : Region (regionTables a n) a n s) (htables : s.tables = s₀.tables)
    (hframes : s.frames = s₀.frames) (hpages : ∀ addr, getPageFlags s addr = getPageFlags s₀ addr)
    (hfree : ∀ q, s.free q = if Within a n q then false else s₀.free q)
    (hnodup : s₀.frames.Nodup) :
    Allocated s₀ t a n ∧ n + missing s₀ (regionTables a n) ≤ s₀.frames.length := by
  subst hlen
  have hlookup : ∀ q, Within a fs.length q → PageAlloc.lookup t q = fs[q - a]? := fun q hq => by
    rw [h.lookup, if_pos hq]
  have hmissing : missing t (regionTables a fs.length) = 0 := by
    refine missing_regionTables_of_mapped fun q hq => ?_
    have hlt : q - a < fs.length := by
      have := hq.1
      have := hq.2
      omega
    rw [hlookup q hq, List.getElem?_eq_getElem hlt]
    exact Option.some_ne_none _
  have hmade := h.tables
  have hperm := h.frames
  rw [hmissing, Nat.add_zero, missing_congr htables] at hmade
  rw [List.append_nil, hframes] at hperm
  have hfs : fs.Nodup := (hperm.nodup_iff.mp hnodup).of_append_left.of_append_left
  refine ⟨⟨⟨fs, made, rfl, hfs, hperm, hmade, fun k hk => ?_⟩, fun addr hnot => ?_,
    fun q => ?_⟩, ?_⟩
  · have hw : Within a fs.length (a + k) := ⟨Nat.le_add_right _ _, by omega⟩
    rw [page_add, ← hpages, getPageFlags, getPage_page, hregion.unmapped _ hw, getPageFlags,
      getPage_page, hlookup _ hw, page_div, h.flags, if_pos hw, Nat.add_sub_cancel_left]
    exact ⟨rfl, rfl⟩
  · rw [← hpages]
    exact getPageFlags_congr (by rw [h.lookup, if_neg hnot])
      fun _ => by rw [h.flags, if_neg hnot]
  · rw [h.free, hfree]
  · have hlength := hperm.length_eq
    simp only [List.length_append] at hlength
    omega

/-- Undoing everything but the page tables is a failed allocation. -/
theorem Undone.failed {a n : ℕ} {s₀ : State} {made : List ℕ}
    (h : Undone (regionTables a n) a n s t made) (htables : s.tables = s₀.tables)
    (hframes : s.frames = s₀.frames) (hpages : ∀ addr, getPageFlags s addr = getPageFlags s₀ addr)
    (hfree : ∀ q, s.free q = if Within a n q then false else s₀.free q)
    (hregion : ∀ q, Within a n q → s₀.free q = true) : Failed s₀ t a n where
  pages := by
    intro addr
    rw [← hpages]
    exact getPageFlags_congr (h.lookup _) (h.flags _)
  free := by
    funext q
    rw [h.free, hfree]
    split
    · rename_i hw
      exact (hregion q hw).symm
    · rfl
  frames := by
    refine ⟨made, hframes ▸ h.frames, ?_⟩
    rw [h.tables, missing_congr htables]

/-- **What an allocation does.** With frames for the pages of the region that the virtual
allocator chooses and for the page tables that are missing, it succeeds. With fewer, it panics for
lack of a frame for a page table, or fails and leaves every page and the free set as they
were. -/
theorem allocate_outcome (pol : Policy) {s : State} {layout : Layout}
    (halign : layout.align ≤ pageSize) (hnodup : s.frames.Nodup)
    (hhalf : ∀ q, s.free q = true → higherHalf ≤ q)
    (hunmapped : ∀ q, s.free q = true → getPage s (q * pageSize) = none) :
    (layout.size = 0 ∧ allocate pol s layout = .ok (some dangling, s)) ∨
      (layout.size ≠ 0 ∧ pol.choose s.free layout.numPages = none ∧
        allocate pol s layout = .ok (none, s)) ∨
      layout.size ≠ 0 ∧ ∃ a, pol.choose s.free layout.numPages = some a ∧
        ((layout.numPages + missing s (regionTables a layout.numPages) ≤ s.frames.length ∧
            ∃ t, allocate pol s layout = .ok (some (a * pageSize), t) ∧
              Allocated s t a layout.numPages) ∨
          s.frames.length < layout.numPages + missing s (regionTables a layout.numPages) ∧
            (allocate pol s layout = .error .outOfMemory ∨
              ∃ t, allocate pol s layout = .ok (none, t) ∧ Failed s t a layout.numPages)) := by
  rw [allocate]
  by_cases hsize : layout.size = 0
  · exact .inl ⟨hsize, if_pos hsize⟩
  rw [if_neg hsize, if_neg (Nat.not_lt.mpr halign)]
  cases hchoose : pol.choose s.free layout.numPages with
  | none => exact .inr (.inl ⟨hsize, rfl, by simp only [virtAlloc, hchoose]⟩)
  | some a =>
      have hregion : ∀ q, Within a layout.numPages q → s.free q = true := by
        intro q hq
        have hfree := pol.sound hchoose (q - a) (by
          have := hq.1
          have := hq.2
          omega)
        rwa [Nat.add_sub_cancel' hq.1] at hfree
      simp only [virtAlloc, hchoose]
      refine .inr (.inr ⟨hsize, a, rfl, ?_⟩)
      generalize hs₁ : ({ s with free := fun q =>
        if a ≤ q ∧ q < a + layout.numPages then false else s.free q } : State) = s₁
      have htables : s₁.tables = s.tables := by rw [← hs₁]
      have hframes : s₁.frames = s.frames := by rw [← hs₁]
      have hpages : ∀ addr, getPageFlags s₁ addr = getPageFlags s addr := by
        intro addr
        subst hs₁
        rfl
      have hfree₁ : ∀ q, s₁.free q = if Within a layout.numPages q then false else s.free q := by
        intro q
        subst hs₁
        rfl
      have hregion₁ : Region (regionTables a layout.numPages) a layout.numPages s₁ := by
        refine ⟨fun q hq => hhalf q (hregion q hq), fun q hq => ?_,
          fun q hq l hl => mem_regionTables hq hl⟩
        subst hs₁
        have hnone := hunmapped q (hregion q hq)
        rwa [getPage_page] at hnone
      have hstart : Mapped (regionTables a layout.numPages) a s₁ s₁ [] [] [] :=
        ⟨fun q => (if_neg (not_within_zero a q)).symm, fun q => (if_neg (not_within_zero a q)).symm,
          rfl, List.Perm.refl _, Nat.zero_add _⟩
      have hfuel : layout.numPages - ([] : List ℕ).length < layout.numPages + 1 :=
        Nat.lt_succ_self _
      have hloop := allocLoop_takes hstart hregion₁ (Nat.zero_le _) hfuel
        fun q hq => by rw [hfree₁, if_pos hq]
      rw [List.length_nil] at hloop
      rcases hloop with ⟨t, fs, made, hok, hlen, hmapped⟩ | ⟨hlt, hfail⟩
      · obtain ⟨hallocated, hle⟩ :=
          hmapped.allocated hlen hregion₁ htables hframes hpages hfree₁ hnodup
        refine .inl ⟨hle, t, ?_, hallocated⟩
        rw [hok]
        rfl
      · rw [hframes, missing_congr htables] at hlt
        refine .inr ⟨hlt, hfail.imp (fun herr => ?_) ?_⟩
        · rw [herr, error_bind]
        · rintro ⟨t, made, hok, hundone⟩
          refine ⟨t, ?_, hundone.failed htables hframes hpages hfree₁ hregion⟩
          rw [hok]
          rfl

/-- A virtual allocator that hands out the first pages of the higher half, if they are free. -/
def firstFit : Policy where
  choose free n := if ∀ k < n, free (higherHalf + k) = true then some higherHalf else none
  sound h := by
    split at h
    · rename_i hall
      cases h
      exact hall
    · cases h

/-- Seventeen free pages, with the L3 tables of the kernel's half and no others, and some frames. -/
def seventeenPages (numFrames : ℕ) : State where
  free q := decide (higherHalf ≤ q ∧ q < higherHalf + 17)
  frames := (List.range numFrames).map fun k => (k + 1) * pageSize
  tables level _ := decide (level = 2)
  entries _ := none
  flags _ := writeable

/-- No free page of the example is mapped, and all are in the higher half. -/
theorem seventeenPages_free (numFrames q : ℕ) (hq : (seventeenPages numFrames).free q = true) :
    higherHalf ≤ q ∧ getPage (seventeenPages numFrames) (q * pageSize) = none := by
  refine ⟨(of_decide_eq_true hq).1, ?_⟩
  rw [getPage, lookup, if_neg]
  · rfl
  · rintro ⟨-, h, -⟩
    exact Bool.noConfusion h

/-- What an allocation of a page does when there are frames for the page and its tables, and one of
all pages when there are frames for the tables and sixteen pages. -/
theorem allocate_outcome_seventeenPages :
    (∃ t, allocate firstFit (seventeenPages 3) ⟨8, 8⟩ = .ok (some (higherHalf * pageSize), t) ∧
      Allocated (seventeenPages 3) t higherHalf 1) ∧
    ∃ t, allocate firstFit (seventeenPages 18) ⟨17 * 4096, 8⟩ = .ok (none, t) ∧
      Failed (seventeenPages 18) t higherHalf 17 := by
  constructor
  · rcases @allocate_outcome firstFit (seventeenPages 3) ⟨8, 8⟩ (by decide) (by decide)
        (fun q hq => (seventeenPages_free _ q hq).1)
        (fun q hq => (seventeenPages_free _ q hq).2) with
      ⟨hsize, -⟩ | ⟨-, hnone, -⟩ | ⟨-, a, hchoose, hout⟩
    · exact absurd hsize (by decide)
    · exact absurd hnone (by decide)
    · have ha : some a = some higherHalf := hchoose.symm.trans (by decide)
      cases ha
      rcases hout with ⟨-, t, hok, hallocated⟩ | ⟨hlt, -⟩
      · exact ⟨t, hok, hallocated⟩
      · exact absurd hlt (by decide)
  · rcases @allocate_outcome firstFit (seventeenPages 18) ⟨17 * 4096, 8⟩ (by decide)
        (by decide +kernel) (fun q hq => (seventeenPages_free _ q hq).1)
        (fun q hq => (seventeenPages_free _ q hq).2) with
      ⟨hsize, -⟩ | ⟨-, hnone, -⟩ | ⟨-, a, hchoose, hout⟩
    · exact absurd hsize (by decide)
    · exact absurd hnone (by decide +kernel)
    · have ha : some a = some higherHalf := hchoose.symm.trans (by decide +kernel)
      cases ha
      rcases hout with ⟨hle, -⟩ | ⟨-, herr | hfailed⟩
      · exact absurd hle (by decide +kernel)
      · have hpanic : panicOf (allocate firstFit (seventeenPages 18) ⟨17 * 4096, 8⟩) = none := by
          decide +kernel
        rw [herr] at hpanic
        cases hpanic
      · exact hfailed

/-- **A failed allocation is not atomic.** The kernel panics when a frame is left for the page but
none for its tables; and when there are frames for the tables and the first sixteen of seventeen
pages, the allocation fails and the frames of the tables are gone. -/
theorem allocate_not_atomic :
    (∀ numFrames q, (seventeenPages numFrames).free q = true →
      getPage (seventeenPages numFrames) (q * pageSize) = none) ∧
    allocate firstFit (seventeenPages 1) ⟨8, 8⟩ = .error .outOfMemory ∧
    ∃ t, allocate firstFit (seventeenPages 18) ⟨17 * 4096, 8⟩ = .ok (none, t) ∧
      t.frames.length = 16 ∧ (seventeenPages 18).frames.length = 18 :=
  ⟨fun numFrames q hq => (seventeenPages_free numFrames q hq).2, rfl, _, rfl, rfl, rfl⟩

end HydroxKernel.PageAlloc
