import Mathlib.Algebra.Order.Ring.Nat
import Mathlib.Data.List.Nodup
import HydroxKernel.Lib.Runs
import HydroxKernel.Mem.PageAlloc

/-!
# Safety of the Page-Based Allocator

The three stores of the allocator have to be kept in step: the pages of live blocks are
mapped to frames of their own, and free pages are not mapped. `Maps` says so for any moment
inside an operation: a set of pages is mapped to frames they hold, a second set is still
mapped to frames that were given back already, and a list of frames is on its way between
the stack and the page tables.

`shrink` leaves the second set behind: the pages it cuts off go back to the virtual allocator
and their frames to the frame allocator, but they stay mapped. Apart from that, and from
blocks of size zero, whose dangling pointer the virtual allocator does not accept, the stores
agree in every run.

## Main results

* `Maps.map`, `Maps.release`, `Maps.forget`, `Maps.freeMany`: what the primitives do.
* `allocate_spec`, `deallocate_spec`: what the operations do.
* `sound_of_runs`: the stores agree in every run without such calls.
* `shrink_leaves_mapping`: a run in which they do not.
-/

namespace HydroxKernel.PageAlloc

variable {pol : Policy} {s s' : State} {managed M R : ℕ → Prop} {P : List ℕ}

/-! ### Page tables -/

/-- The address of a page is that of the page. -/
theorem page_div (q : ℕ) : q * pageSize / pageSize = q := Nat.mul_div_cancel q (by decide)

/-- The page at an address that is a multiple of the size of a page. -/
theorem getPage_page (s : State) (q : ℕ) : getPage s (q * pageSize) = lookup s q := by
  rw [getPage, page_div, Nat.mul_mod_left]
  cases lookup s q <;> rfl

/-- Two states whose page tables and free pages are the same, up to frames that were taken. -/
structure SameTables (s s' : State) (taken : ℕ) : Prop where
  lookup : ∀ q, lookup s' q = lookup s q
  frames : s'.frames = s.frames.drop taken
  free : s'.free = s.free

/-- Nothing changed. -/
theorem SameTables.refl (s : State) : SameTables s s 0 := ⟨fun _ => rfl, rfl, rfl⟩

/-- Frames were taken, and then others. -/
theorem SameTables.trans {s₁ s₂ s₃ : State} {m n : ℕ} (h : SameTables s₁ s₂ m)
    (h' : SameTables s₂ s₃ n) : SameTables s₁ s₃ (m + n) where
  lookup q := (h'.lookup q).trans (h.lookup q)
  frames := by rw [h'.frames, h.frames, List.drop_drop]
  free := h'.free.trans h.free

/-- The tables of one level are grouped by the tables of the next. -/
theorem tableOf_succ (level page : ℕ) :
    tableOf (level + 1) page = tableOf level page / tableSize := by
  rw [tableOf, tableOf, Nat.div_div_eq_div_mul, ← pow_succ]

/-- A page is mapped only if it has a table on every level. -/
theorem lookup_of_missing {level page : ℕ} (hlevel : level < 3)
    (h : s.tables level (tableOf level page) ≠ true) : lookup s page = none := by
  rw [lookup, if_neg]
  rintro ⟨h2, h1, h0⟩
  obtain rfl | rfl | rfl : level = 0 ∨ level = 1 ∨ level = 2 := by omega
  · exact h h0
  · exact h h1
  · exact h h2

/-- `makeTable` changes no mapping: all pages under the new table were unmapped before. -/
theorem makeTable_spec {level : ℕ} (hlevel : level < 3) (s : State) (page : ℕ) :
    (s.frames = [] ∧ makeTable level s page = .error .outOfMemory) ∨
      ∃ s' k, makeTable level s page = .ok s' ∧ k ≤ 1 ∧ SameTables s s' k ∧
        s'.tables level (tableOf level page) = true ∧
        ∀ l, level < l → s'.tables l = s.tables l := by
  by_cases hp : s.tables level (tableOf level page) = true
  · exact Or.inr ⟨s, 0, by rw [makeTable, if_pos hp], by omega, SameTables.refl s, hp,
      fun _ _ => rfl⟩
  cases hfr : s.frames with
  | nil =>
      refine Or.inl ⟨rfl, ?_⟩
      simp only [makeTable, if_neg hp, allocOne, hfr]
  | cons frame frames =>
      refine Or.inr ⟨{ s with
          frames := frames
          tables := fun l q =>
            if l = level ∧ q = tableOf level page then true
            else if l + 1 = level ∧ q / tableSize = tableOf level page then false
            else s.tables l q
          entries := fun q =>
            if level = 0 ∧ q / tableSize = tableOf level page then none else s.entries q },
        1, ?_, le_rfl, ⟨fun q => ?_, ?_, rfl⟩, ?_, fun l hl => ?_⟩
      · simp only [makeTable, if_neg hp, allocOne, hfr]
      · by_cases hq : tableOf level q = tableOf level page
        · have hold : lookup s q = none := by
            refine lookup_of_missing hlevel ?_
            rw [hq]
            exact hp
          rw [hold]
          cases level with
          | zero =>
              have hq0 : q / tableSize = tableOf 0 page := by
                rw [← hq, tableOf, zero_add, pow_one]
              simp [lookup, hq0]
          | succ level =>
              refine lookup_of_missing (by omega : level < 3) ?_
              simp [← tableOf_succ, hq]
        · have htab : ∀ l, (if l = level ∧ tableOf l q = tableOf level page then true
              else if l + 1 = level ∧ tableOf l q / tableSize = tableOf level page then false
              else s.tables l (tableOf l q)) = s.tables l (tableOf l q) := by
            intro l
            rw [if_neg, if_neg]
            · rintro ⟨rfl, hl⟩
              exact hq (by rw [tableOf_succ, hl])
            · rintro ⟨rfl, hl⟩
              exact hq hl
          have hent : (if level = 0 ∧ q / tableSize = tableOf level page then none
              else s.entries q) = s.entries q := by
            rw [if_neg]
            rintro ⟨rfl, h0⟩
            exact hq (by rw [← h0, tableOf, zero_add, pow_one])
          simp only [lookup, htab, hent]
      · simp [hfr]
      · simp
      · funext q
        simp only
        rw [if_neg (by omega), if_neg (by omega)]

/-- `setPageKernel` maps a page, for which it needs at most three frames. -/
theorem setPageKernel_some (s : State) {q : ℕ} (hq : higherHalf ≤ q) (f : ℕ)
    (flags : Page.PageFlags) :
    (s.frames.length < 3 ∧
        setPageKernel s (q * pageSize) (some (f, flags)) = .error .outOfMemory) ∨
      ∃ s' k, setPageKernel s (q * pageSize) (some (f, flags)) = .ok s' ∧ k ≤ 3 ∧
        (∀ x, lookup s' x = if x = q then some f else lookup s x) ∧
        s'.frames = s.frames.drop k ∧ s'.free = s.free := by
  have hle : higherHalf * pageSize ≤ q * pageSize := Nat.mul_le_mul_right _ hq
  simp only [setPageKernel, setPageInternal, ensure_pos hle, ensure_pos (Nat.mul_mod_left q _),
    page_div, ok_bind]
  rcases makeTable_spec (by decide : 2 < 3) s q with ⟨hnil, herr⟩ | ⟨s₂, k₂, h2, hk₂, hs₂, ht₂, -⟩
  · exact Or.inl ⟨by simp [hnil], by rw [herr]; rfl⟩
  rcases makeTable_spec (by decide : 1 < 3) s₂ q with
      ⟨hnil, herr⟩ | ⟨s₁, k₁, h1, hk₁, hs₁, ht₁, hu₁⟩
  · refine Or.inl ⟨?_, by rw [h2, ok_bind, herr]; rfl⟩
    rw [hs₂.frames, List.drop_eq_nil_iff] at hnil
    omega
  rcases makeTable_spec (by decide : 0 < 3) s₁ q with
      ⟨hnil, herr⟩ | ⟨s₀, k₀, h0, hk₀, hs₀, ht₀, hu₀⟩
  · refine Or.inl ⟨?_, by rw [h2, ok_bind, h1, ok_bind, herr]; rfl⟩
    rw [(hs₂.trans hs₁).frames, List.drop_eq_nil_iff] at hnil
    omega
  have hsame := (hs₂.trans hs₁).trans hs₀
  refine Or.inr ⟨{ s₀ with
      entries := Function.update s₀.entries q (some f)
      flags := Function.update s₀.flags q flags }, k₂ + k₁ + k₀,
    by rw [h2, ok_bind, h1, ok_bind, h0, ok_bind], by omega, fun x => ?_, hsame.frames,
    hsame.free⟩
  by_cases hx : x = q
  · subst hx
    have h2 : s₀.tables 2 (tableOf 2 x) = true := by
      rw [hu₀ 2 (by decide), hu₁ 2 (by decide)]
      exact ht₂
    have h1 : s₀.tables 1 (tableOf 1 x) = true := by
      rw [hu₀ 1 (by decide)]
      exact ht₁
    simp [lookup, h2, h1, ht₀]
  · rw [if_neg hx, ← hsame.lookup x]
    simp only [lookup, Function.update_of_ne hx]

/-- `setPageKernel` unmaps a page. -/
theorem setPageKernel_none (s : State) {q : ℕ} (hq : higherHalf ≤ q) :
    ∃ s', setPageKernel s (q * pageSize) none = .ok s' ∧
      (∀ x, lookup s' x = if x = q then none else lookup s x) ∧ s'.frames = s.frames ∧
      s'.free = s.free := by
  have hle : higherHalf * pageSize ≤ q * pageSize := Nat.mul_le_mul_right _ hq
  simp only [setPageKernel, setPageInternal, ensure_pos hle, ensure_pos (Nat.mul_mod_left q _),
    page_div, ok_bind]
  have hmissing : ∀ {level}, level < 3 → s.tables level (tableOf level q) = false →
      ∀ x, lookup s x = if x = q then none else lookup s x := by
    intro level hlevel hfalse x
    by_cases hx : x = q
    · rw [if_pos hx, hx]
      exact lookup_of_missing hlevel (by simp [hfalse])
    · rw [if_neg hx]
  split_ifs with h2 h1 h0
  · exact ⟨s, rfl, hmissing (by decide) h2, rfl, rfl⟩
  · exact ⟨s, rfl, hmissing (by decide) h1, rfl, rfl⟩
  · exact ⟨s, rfl, hmissing (by decide) h0, rfl, rfl⟩
  · refine ⟨_, rfl, fun x => ?_, rfl, rfl⟩
    by_cases hx : x = q
    · simp [lookup, hx]
    · simp [lookup, hx]

/-! ### Mapped pages and frames -/

/-- The managed pages that are mapped are those of `M`, which hold their frames, and those of
`R`, whose frames were given back. The frames of the pages of `M`, the frames `P` and the
frames on the stack are all different. -/
structure Maps (managed : ℕ → Prop) (s : State) (M R : ℕ → Prop) (P : List ℕ) : Prop where
  mapped : ∀ q, managed q → ((lookup s q).isSome ↔ M q ∨ R q)
  managed_of : ∀ q, M q ∨ R q → managed q
  disjoint : ∀ q, M q → ¬ R q
  inj : ∀ q q' f, M q → M q' → lookup s q = some f → lookup s q' = some f → q = q'
  nodup : (P ++ s.frames).Nodup
  off : ∀ q f, M q → lookup s q = some f → f ∉ P ++ s.frames

/-- Only the mappings and the frames matter, and the frames `P` in any order. -/
theorem Maps.congr {M' R' : ℕ → Prop} {P' : List ℕ} (h : Maps managed s M R P)
    (hl : ∀ q, lookup s' q = lookup s q) (hf : s'.frames = s.frames) (hM : ∀ q, M' q ↔ M q)
    (hR : ∀ q, R' q ↔ R q) (hP : P'.Perm P) : Maps managed s' M' R' P' := by
  obtain rfl : M' = M := funext fun q => propext (hM q)
  obtain rfl : R' = R := funext fun q => propext (hR q)
  have hperm : (P' ++ s'.frames).Perm (P ++ s.frames) := hf ▸ hP.append_right _
  refine ⟨fun q hq => ?_, h.managed_of, h.disjoint, fun q q' f hq hq' hqf hqf' => ?_,
    hperm.nodup_iff.mpr h.nodup, fun q f hq hqf hmem => ?_⟩
  · rw [hl]
    exact h.mapped q hq
  · rw [hl] at hqf hqf'
    exact h.inj q q' f hq hq' hqf hqf'
  · rw [hl] at hqf
    exact h.off q f hq hqf (hperm.mem_iff.mp hmem)

/-- Taking frames off the stack. -/
theorem Maps.take (h : Maps managed s M R []) (n : ℕ) :
    Maps managed { s with frames := s.frames.drop n } M R (s.frames.take n) := by
  refine ⟨h.mapped, h.managed_of, h.disjoint, h.inj, ?_, fun q f hq hqf => ?_⟩
  · rw [List.take_append_drop]
    exact h.nodup
  · rw [List.take_append_drop]
    exact h.off q f hq hqf

/-- Putting frames back on the stack. -/
theorem Maps.freeMany (h : Maps managed s M R P) : Maps managed (freeMany s P) M R [] := by
  have hperm : ([] ++ (PageAlloc.freeMany s P).frames).Perm (P ++ s.frames) :=
    (List.reverse_perm P).append_right _
  exact ⟨h.mapped, h.managed_of, h.disjoint, h.inj, hperm.nodup_iff.mpr h.nodup,
    fun q f hq hqf hmem => h.off q f hq hqf (hperm.mem_iff.mp hmem)⟩

/-- Mapping a page to a frame. -/
theorem Maps.map {f q k : ℕ} (h : Maps managed s M R (f :: P)) (hq : managed q) (hM : ¬ M q)
    (hR : ¬ R q) (hl : ∀ x, lookup s' x = if x = q then some f else lookup s x)
    (hf : s'.frames = s.frames.drop k) : Maps managed s' (fun x => M x ∨ x = q) R P := by
  have hnd := List.nodup_cons.mp h.nodup
  have hsub : P ++ s'.frames ⊆ P ++ s.frames := by
    rw [hf]
    exact ((List.drop_sublist _ _).append_left _).subset
  have hfresh : ∀ x, M x → x ≠ q := fun x hx heq => hM (heq ▸ hx)
  have hold : ∀ x, M x → ∀ g, lookup s' x = some g → lookup s x = some g := by
    intro x hx g hxg
    rwa [hl, if_neg (hfresh x hx)] at hxg
  have hqf : ∀ g, lookup s' q = some g → g = f := by
    intro g hg
    rw [hl, if_pos rfl] at hg
    exact (Option.some.inj hg).symm
  refine ⟨fun x hx => ?_, ?_, ?_, ?_, ?_, ?_⟩
  · rw [hl]
    by_cases hxq : x = q
    · simp [hxq]
    · simp [hxq, h.mapped x hx]
  · rintro x ((hx | rfl) | hx)
    · exact h.managed_of x (Or.inl hx)
    · exact hq
    · exact h.managed_of x (Or.inr hx)
  · rintro x (hx | rfl)
    · exact h.disjoint x hx
    · exact hR
  · rintro x y g (hx | rfl) (hy | rfl) hxg hyg
    · exact h.inj x y g hx hy (hold x hx g hxg) (hold y hy g hyg)
    · obtain rfl := hqf g hyg
      exact absurd (List.mem_cons_self ..) (h.off x g hx (hold x hx g hxg))
    · obtain rfl := hqf g hxg
      exact absurd (List.mem_cons_self ..) (h.off y g hy (hold y hy g hyg))
    · rfl
  · rw [hf]
    exact hnd.2.sublist ((List.drop_sublist _ _).append_left _)
  · rintro x g (hx | rfl) hxg
    · exact fun hmem => h.off x g hx (hold x hx g hxg) (List.mem_cons_of_mem _ (hsub hmem))
    · obtain rfl := hqf g hxg
      exact fun hmem => hnd.1 (hsub hmem)

/-- A page gives up its frame, and stays mapped to it. -/
theorem Maps.release {f q : ℕ} (h : Maps managed s M R P) (hq : M q)
    (hqf : lookup s q = some f) :
    Maps managed s (fun x => M x ∧ x ≠ q) (fun x => R x ∨ x = q) (f :: P) := by
  refine ⟨fun x hx => ?_, ?_, ?_, fun x y g hx hy => h.inj x y g hx.1 hy.1, ?_, ?_⟩
  · rw [h.mapped x hx]
    by_cases hxq : x = q
    · simp [hxq, hq]
    · simp [hxq]
  · rintro x (hx | hx | rfl)
    · exact h.managed_of x (Or.inl hx.1)
    · exact h.managed_of x (Or.inr hx)
    · exact h.managed_of x (Or.inl hq)
  · rintro x hx (hxR | hxq)
    · exact h.disjoint x hx.1 hxR
    · exact hx.2 hxq
  · exact List.nodup_cons.mpr ⟨h.off q f hq hqf, h.nodup⟩
  · intro x g hx hxg hmem
    rcases List.mem_cons.mp hmem with rfl | hmem
    · exact hx.2 (h.inj x q g hx.1 hq hxg hqf)
    · exact h.off x g hx.1 hxg hmem

/-- Unmapping a page whose frame was given back. -/
theorem Maps.forget {q : ℕ} (h : Maps managed s M R P) (hq : R q)
    (hl : ∀ x, lookup s' x = if x = q then none else lookup s x) (hf : s'.frames = s.frames) :
    Maps managed s' M (fun x => R x ∧ x ≠ q) P := by
  have hMq : ∀ x, M x → x ≠ q := fun x hx heq => h.disjoint x hx (heq ▸ hq)
  have hold : ∀ x, M x → lookup s' x = lookup s x := fun x hx => by rw [hl, if_neg (hMq x hx)]
  refine ⟨fun x hx => ?_, ?_, fun x hx hxR => h.disjoint x hx hxR.1, fun x y g hx hy => ?_, ?_,
    fun x g hx => ?_⟩
  · rw [hl]
    by_cases hxq : x = q
    · simp only [hxq, if_true, Option.isSome_none, Bool.false_eq_true, ne_eq, not_true_eq_false,
        and_false, or_false, false_iff]
      exact fun hM => h.disjoint q hM hq
    · simp [hxq, h.mapped x hx]
  · rintro x (hx | hx)
    · exact h.managed_of x (Or.inl hx)
    · exact h.managed_of x (Or.inr hx.1)
  · rw [hold x hx, hold y hy]
    exact h.inj x y g hx hy
  · rw [hf]
    exact h.nodup
  · rw [hold x hx, hf]
    exact h.off x g hx

/-! ### Loops -/

variable {a : ℕ}

/-- The `n` pages from `a` on. -/
def Within (a n q : ℕ) : Prop := a ≤ q ∧ q < a + n

/-- No page is among none. -/
@[simp] theorem not_within_zero (a q : ℕ) : ¬ Within a 0 q := by
  simp only [Within]
  omega

/-- The first page and those after it. -/
theorem within_succ {a n q : ℕ} : Within a (n + 1) q ↔ q = a ∨ Within (a + 1) n q := by
  simp only [Within]
  omega

/-- The first pages and those after them. -/
theorem within_add {a m n q : ℕ} : Within a (m + n) q ↔ Within a m q ∨ Within (a + m) n q := by
  simp only [Within]
  omega

/-- A page is not among those after it. -/
theorem not_within_self_succ {a n : ℕ} : ¬ Within (a + 1) n a := by
  simp only [Within]
  omega

/-- The address of a page inside a region. -/
theorem page_add (a k : ℕ) : a * pageSize + k * pageSize = (a + k) * pageSize :=
  (Nat.add_mul a k pageSize).symm

/-- The loop over a batch of frames maps one page after another. It can only fail for lack of
frames for page tables. -/
theorem mapFrames_spec (hman : ∀ q, managed q → higherHalf ≤ q) {done : ℕ} {frames : List ℕ}
    (h : Maps managed s M R frames)
    (hnew : ∀ q, Within (a + done) frames.length q → managed q ∧ ¬ M q ∧ ¬ R q) :
    (mapFrames (a * pageSize) done frames s = .error .outOfMemory ∧
        s.frames.length < 3 * frames.length) ∨
      ∃ s', mapFrames (a * pageSize) done frames s = .ok s' ∧
        Maps managed s' (fun q => M q ∨ Within (a + done) frames.length q) R [] ∧
        s'.free = s.free ∧ s.frames.length ≤ s'.frames.length + 3 * frames.length := by
  induction frames generalizing done s M with
  | nil =>
      refine Or.inr ⟨s, rfl, ?_, rfl, by simp⟩
      exact h.congr (fun _ => rfl) rfl (by simp) (fun _ => Iff.rfl) (List.Perm.refl _)
  | cons f frames ih =>
      rw [List.length_cons] at hnew ⊢
      obtain ⟨hmq, hMq, hRq⟩ := hnew (a + done) (within_succ.mpr (Or.inl rfl))
      have hnone : getPage s ((a + done) * pageSize) = none := by
        rw [getPage_page, ← Option.not_isSome_iff_eq_none, h.mapped _ hmq]
        tauto
      rw [mapFrames, page_add, ensure_pos hnone, ok_bind]
      rcases setPageKernel_some s (hman _ hmq) f writeable with
        ⟨hlen, herr⟩ | ⟨s₁, k, hset, hk, hl, hfr, hfree⟩
      · exact Or.inl ⟨by rw [herr, error_bind], by omega⟩
      have hlen₁ : s.frames.length ≤ s₁.frames.length + 3 := by
        rw [hfr, List.length_drop]
        omega
      have hnew₁ : ∀ q, Within (a + (done + 1)) frames.length q →
          managed q ∧ ¬ (M q ∨ q = a + done) ∧ ¬ R q := by
        intro q hq
        obtain ⟨hm, hM, hR⟩ := hnew q (within_succ.mpr (Or.inr hq))
        refine ⟨hm, ?_, hR⟩
        rintro (hM' | rfl)
        · exact hM hM'
        · exact not_within_self_succ hq
      rw [hset, ok_bind]
      rcases ih (h.map hmq hMq hRq hl hfr) hnew₁ with ⟨herr, hlt⟩ | ⟨s', hok, hmaps, hfree', hlen'⟩
      · exact Or.inl ⟨herr, by omega⟩
      · refine Or.inr ⟨s', hok, ?_, hfree'.trans hfree, by omega⟩
        refine hmaps.congr (fun _ => rfl) rfl (fun q => ?_) (fun _ => Iff.rfl) (List.Perm.refl _)
        rw [within_succ, or_assoc, Nat.add_assoc]

/-- The loop over a batch of pages collects their frames. -/
theorem collect_spec (hman : ∀ q, managed q → higherHalf ≤ q) (unmap : Bool) {n done : ℕ}
    (h : Maps managed s M R P) (hM : ∀ q, Within (a + done) n q → M q) :
    ∃ frames s', collect unmap (a * pageSize) done n s = .ok (frames, s') ∧
      Maps managed s' (fun q => M q ∧ ¬ Within (a + done) n q)
        (fun q => R q ∨ (unmap = false ∧ Within (a + done) n q)) (frames ++ P) ∧
      s'.free = s.free := by
  induction n generalizing done s M R P with
  | zero =>
      refine ⟨[], s, rfl, ?_, rfl⟩
      exact h.congr (fun _ => rfl) rfl (by simp) (by simp) (List.Perm.refl _)
  | succ n ih =>
      have hMq : M (a + done) := hM _ (within_succ.mpr (Or.inl rfl))
      have hmq : managed (a + done) := h.managed_of _ (Or.inl hMq)
      obtain ⟨f, hf⟩ := Option.isSome_iff_exists.mp ((h.mapped _ hmq).mpr (Or.inl hMq))
      have hM' : ∀ q, Within (a + (done + 1)) n q → M q ∧ q ≠ a + done := fun q hq =>
        ⟨hM q (within_succ.mpr (Or.inr hq)), fun heq => not_within_self_succ (heq ▸ hq)⟩
      have hget : getPage s ((a + done) * pageSize) = some f := by rw [getPage_page, hf]
      rw [collect, page_add, hget]
      cases unmap with
      | false =>
          obtain ⟨frames, s', hcol, hmaps, hfree⟩ := ih (h.release hMq hf) hM'
          refine ⟨f :: frames, s', ?_, ?_, hfree⟩
          · simp only [Bool.false_eq_true, if_false, ok_bind, hcol]
          · refine hmaps.congr (fun _ => rfl) rfl (fun q => ?_) (fun q => ?_)
              List.perm_middle.symm
            · rw [within_succ, Nat.add_assoc]
              tauto
            · rw [within_succ, Nat.add_assoc]
              tauto
      | true =>
          obtain ⟨s₁, hset, hl, hfr, hfree₁⟩ := setPageKernel_none s (hman _ hmq)
          have h₁ := (h.release hMq hf).forget (Or.inr rfl) hl hfr
          obtain ⟨frames, s', hcol, hmaps, hfree⟩ := ih h₁ hM'
          refine ⟨f :: frames, s', ?_, ?_, hfree.trans hfree₁⟩
          · simp only [if_true, hset, ok_bind, hcol]
          · refine hmaps.congr (fun _ => rfl) rfl (fun q => ?_) (fun q => ?_)
              List.perm_middle.symm
            · rw [within_succ, Nat.add_assoc]
              tauto
            · have hne : R q → q ≠ a + done := fun hR heq => h.disjoint q (heq ▸ hMq) hR
              simp only [Bool.true_eq_false, false_and, or_false]
              tauto

/-- The loop in batches gives back the frames of all pages. -/
theorem releaseLoop_spec (hman : ∀ q, managed q → higherHalf ≤ q) (unmap : Bool)
    {fuel done n : ℕ} (h : Maps managed s M R []) (hM : ∀ q, Within (a + done) n q → M q)
    (hfuel : n < fuel) :
    ∃ s', releaseLoop unmap (a * pageSize) (done + n) fuel done s = .ok s' ∧
      Maps managed s' (fun q => M q ∧ ¬ Within (a + done) n q)
        (fun q => R q ∨ (unmap = false ∧ Within (a + done) n q)) [] ∧
      s'.free = s.free := by
  induction fuel generalizing done n s M R with
  | zero => omega
  | succ fuel ih =>
      rw [releaseLoop]
      by_cases hn : n = 0
      · subst hn
        refine ⟨s, by rw [if_neg (by omega)], ?_, rfl⟩
        exact h.congr (fun _ => rfl) rfl (by simp) (by simp) (List.Perm.refl _)
      · obtain ⟨b, m, hb, rfl, hmin⟩ : ∃ b m, 0 < b ∧ n = b + m ∧ min n 16 = b :=
          ⟨min n 16, n - min n 16, by omega, by omega, rfl⟩
        have hMb : ∀ q, Within (a + done) b q → M q := fun q hq =>
          hM q (within_add.mpr (Or.inl hq))
        obtain ⟨frames, s₁, hcol, hmaps, hfree⟩ := collect_spec hman unmap h hMb
        rw [List.append_nil] at hmaps
        have hMm : ∀ q, Within (a + (done + b)) m q → M q ∧ ¬ Within (a + done) b q := by
          intro q hq
          rw [← Nat.add_assoc] at hq
          refine ⟨hM q (within_add.mpr (Or.inr hq)), ?_⟩
          simp only [Within] at hq ⊢
          omega
        obtain ⟨s', hloop, hmaps', hfree'⟩ := ih hmaps.freeMany hMm (by omega)
        refine ⟨s', ?_, ?_, hfree'.trans hfree⟩
        · rw [if_pos (by omega), Nat.add_sub_cancel_left, hmin]
          simp only [hcol, ok_bind]
          rw [← hloop, Nat.add_assoc]
        · refine hmaps'.congr (fun _ => rfl) rfl (fun q => ?_) (fun q => ?_) (List.Perm.refl _)
          · rw [within_add, Nat.add_assoc]
            tauto
          · rw [within_add, Nat.add_assoc]
            tauto

/-- `release` gives back the frames of the pages of a region. -/
theorem release_spec (hman : ∀ q, managed q → higherHalf ≤ q) (unmap : Bool) {n : ℕ}
    (h : Maps managed s M R []) (hM : ∀ q, Within a n q → M q) :
    ∃ s', release unmap s (a * pageSize) n = .ok s' ∧
      Maps managed s' (fun q => M q ∧ ¬ Within a n q)
        (fun q => R q ∨ (unmap = false ∧ Within a n q)) [] ∧
      s'.free = s.free := by
  have hM' : ∀ q, Within (a + 0) n q → M q := hM
  have hloop := releaseLoop_spec hman unmap h hM' (Nat.lt_succ_self n)
  rwa [Nat.zero_add] at hloop

/-- `unmapPages` unmaps pages whose frames were given back. -/
theorem unmapPages_spec (hman : ∀ q, managed q → higherHalf ≤ q) {n : ℕ}
    (h : Maps managed s M R P) (hR : ∀ q, Within a n q → R q) :
    ∃ s', unmapPages (a * pageSize) n s = .ok s' ∧
      Maps managed s' M (fun q => R q ∧ ¬ Within a n q) P ∧ s'.free = s.free := by
  induction n with
  | zero =>
      exact ⟨s, rfl, h.congr (fun _ => rfl) rfl (fun _ => Iff.rfl) (by simp) (List.Perm.refl _),
        rfl⟩
  | succ n ih =>
      obtain ⟨s₁, hun, hmaps, hfree⟩ := ih fun q hq => hR q (within_add.mpr (Or.inl hq))
      have hRq : R (a + n) ∧ ¬ Within a n (a + n) := by
        refine ⟨hR _ ?_, ?_⟩ <;>
        · simp only [Within]
          omega
      have hmq : managed (a + n) := h.managed_of _ (Or.inr hRq.1)
      obtain ⟨s', hset, hl, hfr, hfree'⟩ := setPageKernel_none s₁ (hman _ hmq)
      refine ⟨s', ?_, ?_, hfree'.trans hfree⟩
      · rw [unmapPages, hun, ok_bind, page_add, hset]
      · refine (hmaps.forget hRq hl hfr).congr (fun _ => rfl) rfl (fun _ => Iff.rfl) (fun q => ?_)
          (List.Perm.refl _)
        simp only [Within]
        constructor
        · rintro ⟨hq, hw⟩
          exact ⟨⟨hq, by omega⟩, by omega⟩
        · rintro ⟨⟨hq, hw⟩, hne⟩
          exact ⟨hq, by omega⟩

/-- `virtFree` of pages that are not free changes only the free pages. -/
theorem virtFree_eq {n : ℕ} (h : ∀ q, Within a n q → s.free q = false) :
    virtFree s (a * pageSize) n =
      .ok { s with free := fun q => if a ≤ q ∧ q < a + n then true else s.free q } := by
  have hfree : ∀ k < n, s.free (a + k) = false := fun k hk =>
    h _ ⟨Nat.le_add_right a k, Nat.add_lt_add_left hk a⟩
  rw [virtFree, ensure_pos (Nat.mul_mod_left a _), ok_bind, page_div, ensure_pos hfree, ok_bind]

/-- `virtFree` adds pages that are not free to the free pages. -/
theorem virtFree_spec {n : ℕ} (h : ∀ q, Within a n q → s.free q = false) :
    ∃ s', virtFree s (a * pageSize) n = .ok s' ∧ (∀ q, lookup s' q = lookup s q) ∧
      s'.frames = s.frames ∧ ∀ q, s'.free q = true ↔ s.free q = true ∨ Within a n q := by
  refine ⟨_, virtFree_eq h, fun _ => rfl, rfl, fun q => ?_⟩
  by_cases hq : a ≤ q ∧ q < a + n
  · simp [hq, Within]
  · simp [hq, Within]

/-! ### Allocating and deallocating -/

/-- The stores agree: the pages `owned` are mapped to frames of their own, all other managed
pages are free, and free pages are not mapped. -/
structure Agree (managed : ℕ → Prop) (s : State) (owned : ℕ → Prop) : Prop where
  maps : Maps managed s owned (fun _ => False) []
  free_iff : ∀ q, s.free q = true ↔ managed q ∧ ¬ owned q

variable {owned : ℕ → Prop}

/-- `undo` gives back everything that `allocate` has taken. -/
theorem undo_spec (hman : ∀ q, managed q → higherHalf ≤ q) {done n : ℕ} (hdone : done ≤ n)
    (h : Maps managed s (fun q => owned q ∨ Within a done q) (fun _ => False) [])
    (hfree : ∀ q, s.free q = true ↔ managed q ∧ ¬ owned q ∧ ¬ Within a n q)
    (hnew : ∀ q, Within a n q → managed q ∧ ¬ owned q) :
    ∃ s', undo s (a * pageSize) done n = .ok s' ∧ Agree managed s' owned := by
  have hsub : ∀ q, Within a done q → Within a n q := fun q hq => by
    simp only [Within] at hq ⊢
    omega
  obtain ⟨s₁, hrel, hmaps₁, hfree₁⟩ := release_spec (a := a) hman false h fun q hq => Or.inr hq
  obtain ⟨s₂, hun, hmaps₂, hfree₂⟩ := unmapPages_spec (a := a) (n := done) hman hmaps₁
    fun q hq => Or.inr ⟨rfl, hq⟩
  have hnot : ∀ q, Within a n q → s₂.free q = false := fun q hq => by
    rw [hfree₂, hfree₁, ← Bool.not_eq_true, hfree]
    exact fun hc => hc.2.2 hq
  obtain ⟨s', hvirt, hl, hfr, hfree'⟩ := virtFree_spec hnot
  refine ⟨s', ?_, ⟨hmaps₂.congr hl hfr (fun q => ?_) (fun q => ?_) (List.Perm.refl _),
    fun q => ?_⟩⟩
  · rw [undo, hrel, ok_bind, hun, ok_bind, hvirt]
  · constructor
    · exact fun hq => ⟨Or.inl hq, fun hw => (hnew q (hsub q hw)).2 hq⟩
    · rintro ⟨hq | hw, hnw⟩
      · exact hq
      · exact absurd hw hnw
  · simp only [false_or, true_and, and_not_self]
  · rw [hfree', hfree₂, hfree₁, hfree]
    constructor
    · rintro (⟨hm, ho, -⟩ | hw)
      · exact ⟨hm, ho⟩
      · exact hnew q hw
    · rintro ⟨hm, ho⟩
      by_cases hw : Within a n q
      · exact Or.inr hw
      · exact Or.inl ⟨hm, ho, hw⟩

/-- The main loop of `allocate` maps the rest of the region, or undoes everything for lack of
frames. -/
theorem allocLoop_spec (hman : ∀ q, managed q → higherHalf ≤ q) {fuel done n : ℕ}
    (h : Maps managed s (fun q => owned q ∨ Within a done q) (fun _ => False) [])
    (hfree : ∀ q, s.free q = true ↔ managed q ∧ ¬ owned q ∧ ¬ Within a (done + n) q)
    (hnew : ∀ q, Within a (done + n) q → managed q ∧ ¬ owned q) (hfuel : n < fuel) :
    (allocLoop (a * pageSize) (done + n) fuel done s = .error .outOfMemory ∧
        s.frames.length < 4 * n) ∨
      (∃ s', allocLoop (a * pageSize) (done + n) fuel done s = .ok (true, s') ∧
        Agree managed s' fun q => owned q ∨ Within a (done + n) q) ∨
      ∃ s', allocLoop (a * pageSize) (done + n) fuel done s = .ok (false, s') ∧
        Agree managed s' owned := by
  induction fuel generalizing done n s with
  | zero => omega
  | succ fuel ih =>
      rw [allocLoop]
      by_cases hn : n = 0
      · subst hn
        refine Or.inr (Or.inl ⟨s, by rw [if_neg (by omega)], h, fun q => ?_⟩)
        rw [hfree, not_or]
      · obtain ⟨b, m, hb, rfl, hmin⟩ : ∃ b m, 0 < b ∧ n = b + m ∧ min n 16 = b :=
          ⟨min n 16, n - min n 16, by omega, by omega, rfl⟩
        rw [if_pos (by omega), Nat.add_sub_cancel_left, hmin]
        by_cases hlen : s.frames.length < b
        · -- there are not enough frames for the batch
          obtain ⟨s', hundo, hagree⟩ := undo_spec hman (Nat.le_add_right done (b + m)) h hfree hnew
          refine Or.inr (Or.inr ⟨s', ?_, hagree⟩)
          simp only [allocMany, if_pos hlen, hundo, ok_bind]
        · have htake : (s.frames.take b).length = b := by
            rw [List.length_take]
            omega
          have hbatch : ∀ q, Within (a + done) (s.frames.take b).length q →
              managed q ∧ ¬ (owned q ∨ Within a done q) ∧ ¬ False := by
            intro q hq
            rw [htake] at hq
            obtain ⟨hm, ho⟩ := hnew q (within_add.mpr (Or.inr (within_add.mpr (Or.inl hq))))
            refine ⟨hm, ?_, not_false⟩
            rintro (ho' | hw)
            · exact ho ho'
            · simp only [Within] at hq hw
              omega
          have hmany : allocMany s b =
              some (s.frames.take b, { s with frames := s.frames.drop b }) := by
            rw [allocMany, if_neg hlen]
          simp only [hmany]
          rcases mapFrames_spec hman (h.take b) hbatch with
            ⟨herr, hlt⟩ | ⟨s₁, hok, hmaps, hfree₁, hlen₁⟩
          · refine Or.inl ⟨by simp only [herr, error_bind], ?_⟩
            simp only [htake, List.length_drop] at hlt
            omega
          simp only [htake, List.length_drop] at hlen₁
          rw [htake] at hmaps
          have hmaps' : Maps managed s₁ (fun q => owned q ∨ Within a (done + b) q) (fun _ => False)
              [] := by
            refine hmaps.congr (fun _ => rfl) rfl (fun q => ?_) (fun _ => Iff.rfl)
              (List.Perm.refl _)
            rw [within_add, or_assoc]
          simp only [hok, ok_bind]
          rw [← Nat.add_assoc] at hfree hnew ⊢
          have hfree' : ∀ q, s₁.free q = true ↔
              managed q ∧ ¬ owned q ∧ ¬ Within a (done + b + m) q := by
            rw [hfree₁]
            exact hfree
          rcases ih hmaps' hfree' hnew (by omega) with ⟨herr, hlt⟩ | hrest
          · exact Or.inl ⟨herr, by omega⟩
          · exact Or.inr hrest

/-- A layout that is not empty needs a page. -/
theorem numPages_pos {layout : Layout} (h : layout.size ≠ 0) : 0 < layout.numPages := by
  have hpos : 0 < layout.size := Nat.pos_of_ne_zero h
  rw [Layout.numPages, Nat.div_pos_iff]
  exact ⟨by decide, by simp only [pageSize]; omega⟩

/-- **`allocate` keeps the stores in step.** It fails only for lack of frames for page tables. -/
theorem allocate_spec (pol : Policy) (hman : ∀ q, managed q → higherHalf ≤ q)
    (h : Agree managed s owned) (layout : Layout) :
    (allocate pol s layout = .error .outOfMemory ∧ s.frames.length < 4 * layout.numPages) ∨
      (∃ s', allocate pol s layout = .ok (none, s') ∧ Agree managed s' owned) ∨
      (layout.numPages = 0 ∧ allocate pol s layout = .ok (some dangling, s)) ∨
      ∃ a s', allocate pol s layout = .ok (some (a * pageSize), s') ∧
        (∀ q, Within a layout.numPages q → ¬ owned q) ∧
        Agree managed s' fun q => owned q ∨ Within a layout.numPages q := by
  rw [allocate]
  by_cases hsize : layout.size = 0
  · refine Or.inr (Or.inr (Or.inl ⟨?_, by rw [if_pos hsize]⟩))
    rw [Layout.numPages, hsize]
    decide
  by_cases halign : pageSize < layout.align
  · exact Or.inr (Or.inl ⟨s, by rw [if_neg hsize, if_pos halign], h⟩)
  rw [if_neg hsize, if_neg halign]
  cases hchoose : pol.choose s.free layout.numPages with
  | none => exact Or.inr (Or.inl ⟨s, by simp only [virtAlloc, hchoose], h⟩)
  | some a =>
      have hfresh : ∀ q, Within a layout.numPages q → managed q ∧ ¬ owned q := by
        intro q hq
        rw [← h.free_iff]
        have hfree := pol.sound hchoose (q - a) (by simp only [Within] at hq; omega)
        rwa [Nat.add_sub_cancel' hq.1] at hfree
      simp only [virtAlloc, hchoose]
      generalize hs₁ : ({ s with free := fun q =>
        if a ≤ q ∧ q < a + layout.numPages then false else s.free q } : State) = s₁
      have hmaps : Maps managed s₁ (fun q => owned q ∨ Within a 0 q) (fun _ => False) [] := by
        subst hs₁
        exact h.maps.congr (fun _ => rfl) rfl (by simp) (fun _ => Iff.rfl) (List.Perm.refl _)
      have hfree : ∀ q, s₁.free q = true ↔
          managed q ∧ ¬ owned q ∧ ¬ Within a (0 + layout.numPages) q := by
        intro q
        subst hs₁
        rw [Nat.zero_add, ← and_assoc, ← h.free_iff, Within]
        by_cases hw : a ≤ q ∧ q < a + layout.numPages
        · simp [hw]
        · simp [hw]
      have hframes : s₁.frames = s.frames := by rw [← hs₁]
      have hnew : ∀ q, Within a (0 + layout.numPages) q → managed q ∧ ¬ owned q := by
        rwa [Nat.zero_add]
      have hloop := allocLoop_spec hman hmaps hfree hnew (Nat.lt_succ_self layout.numPages)
      rw [Nat.zero_add, hframes] at hloop
      rcases hloop with ⟨herr, hlt⟩ | ⟨s', hok, hagree⟩ | ⟨s', hok, hagree⟩
      · exact Or.inl ⟨by rw [herr, error_bind], hlt⟩
      · refine Or.inr (Or.inr (Or.inr ⟨a, s', by rw [hok]; rfl,
          fun q hq => (hfresh q hq).2, hagree⟩))
      · exact Or.inr (Or.inl ⟨s', by rw [hok]; rfl, hagree⟩)

/-- **`deallocate` keeps the stores in step.** -/
theorem deallocate_spec (hman : ∀ q, managed q → higherHalf ≤ q) (h : Agree managed s owned)
    {layout : Layout} (ho : ∀ q, Within a layout.numPages q → owned q) :
    ∃ s', deallocate s (a * pageSize) layout = .ok s' ∧
      Agree managed s' fun q => owned q ∧ ¬ Within a layout.numPages q := by
  obtain ⟨s₁, hrel, hmaps, hfree⟩ := release_spec hman true h.maps ho
  have hnot : ∀ q, Within a layout.numPages q → s₁.free q = false := fun q hq => by
    rw [hfree, ← Bool.not_eq_true, h.free_iff]
    exact fun hc => hc.2 (ho q hq)
  obtain ⟨s', hvirt, hl, hfr, hfree'⟩ := virtFree_spec hnot
  refine ⟨s', ?_, ⟨hmaps.congr hl hfr (fun _ => Iff.rfl) (by simp) (List.Perm.refl _),
    fun q => ?_⟩⟩
  · rw [deallocate, hrel, ok_bind, hvirt]
  · rw [hfree', hfree, h.free_iff]
    constructor
    · rintro (⟨hm, hno⟩ | hw)
      · exact ⟨hm, fun hc => hno hc.1⟩
      · exact ⟨h.maps.managed_of q (Or.inl (ho q hw)), fun hc => hc.2 hw⟩
    · rintro ⟨hm, hno⟩
      by_cases hw : Within a layout.numPages q
      · exact Or.inr hw
      · exact Or.inl ⟨hm, fun hq => hno ⟨hq, hw⟩⟩

/-! ### Live blocks -/

variable {sys sys' : System} {b : Block} {live : List Block}

/-- A page lies inside a live block. -/
def Owned (live : List Block) (q : ℕ) : Prop := ∃ b ∈ live, b.HasPage q

/-- The pages of a block are those from its address on. -/
theorem hasPage_iff {q : ℕ} :
    b.HasPage q ↔ Within (b.ptr / pageSize) b.layout.numPages q := by
  constructor
  · rintro ⟨k, hk, rfl⟩
    exact ⟨Nat.le_add_right _ _, Nat.add_lt_add_left hk _⟩
  · rintro ⟨hle, hlt⟩
    exact ⟨q - b.ptr / pageSize, by omega, by omega⟩

/-- The stores agree with the live blocks, which have no pages in common. -/
structure Inv (managed : ℕ → Prop) (sys : System) : Prop where
  agree : Agree managed sys.mem (Owned sys.live)
  aligned : ∀ b ∈ sys.live, b.layout.numPages ≠ 0 → b.ptr % pageSize = 0
  apart : sys.live.Pairwise fun b b' => ∀ q, b.HasPage q → ¬ b'.HasPage q

/-- The blocks besides a live block own no page of it. -/
theorem Inv.apart_erase (h : Inv managed sys) (hb : b ∈ sys.live) :
    (∀ b' ∈ sys.live.erase b, ∀ q, b.HasPage q → ¬ b'.HasPage q) ∧
      (sys.live.erase b).Pairwise fun b b' => ∀ q, b.HasPage q → ¬ b'.HasPage q := by
  have hsymm : ∀ {b b' : Block}, (∀ q, b.HasPage q → ¬ b'.HasPage q) →
      ∀ q, b'.HasPage q → ¬ b.HasPage q := fun hbb q hq hq' => hbb q hq' hq
  exact List.pairwise_cons.mp (((List.perm_cons_erase hb).pairwise_iff hsymm).mp h.apart)

/-- The pages of the other blocks. -/
theorem Inv.owned_erase (h : Inv managed sys) (hb : b ∈ sys.live) (q : ℕ) :
    Owned (sys.live.erase b) q ↔ Owned sys.live q ∧ ¬ b.HasPage q := by
  constructor
  · rintro ⟨b', hb', hq⟩
    exact ⟨⟨b', List.mem_of_mem_erase hb', hq⟩, fun hq' => (h.apart_erase hb).1 b' hb' q hq' hq⟩
  · rintro ⟨⟨b', hb', hq⟩, hnot⟩
    have hne : b' ≠ b := fun heq => hnot (heq ▸ hq)
    exact ⟨b', (List.mem_erase_of_ne hne).mpr hb', hq⟩

/-- A new block. -/
theorem Inv.cons {mem : State} (hagree : Agree managed mem (Owned (b :: live)))
    (haligned : ∀ b' ∈ b :: live, b'.layout.numPages ≠ 0 → b'.ptr % pageSize = 0)
    (hlive : live.Pairwise fun b b' => ∀ q, b.HasPage q → ¬ b'.HasPage q)
    (hfresh : ∀ q, b.HasPage q → ¬ Owned live q) : Inv managed ⟨mem, b :: live⟩ := by
  refine ⟨hagree, haligned, List.pairwise_cons.mpr ⟨fun b' hb' q hq hq' => ?_, hlive⟩⟩
  exact hfresh q hq ⟨b', hb', hq'⟩

/-- A page inside the first block, or inside another. -/
theorem owned_cons {q : ℕ} : Owned (b :: live) q ↔ b.HasPage q ∨ Owned live q := by
  simp [Owned]

/-- Only the set of owned pages matters. -/
theorem Agree.congr {owned' : ℕ → Prop} (h : Agree managed s owned)
    (ho : ∀ q, owned' q ↔ owned q) : Agree managed s owned' := by
  obtain rfl : owned' = owned := funext fun q => propext (ho q)
  exact h

/-- A block gets another layout with the same number of pages. -/
theorem Inv.relayout (h : Inv managed sys) (hb : b ∈ sys.live) {layout : Layout}
    (hn : layout.numPages = b.layout.numPages) :
    Inv managed ⟨sys.mem, ⟨b.ptr, layout⟩ :: sys.live.erase b⟩ := by
  have hpage : ∀ q, (⟨b.ptr, layout⟩ : Block).HasPage q ↔ b.HasPage q := fun q => by
    rw [hasPage_iff, hasPage_iff, hn]
  refine Inv.cons (h.agree.congr fun q => ?_) ?_ (h.apart_erase hb).2 fun q hq => ?_
  · rw [owned_cons, hpage, h.owned_erase hb]
    constructor
    · rintro (hq | hq)
      · exact ⟨b, hb, hq⟩
      · exact hq.1
    · intro hq
      by_cases hqb : b.HasPage q
      · exact Or.inl hqb
      · exact Or.inr ⟨hq, hqb⟩
  · rintro b' hb' hne
    rcases List.mem_cons.mp hb' with rfl | hb'
    · exact h.aligned b hb (hn ▸ hne)
    · exact h.aligned b' (List.mem_of_mem_erase hb') hne
  · rw [h.owned_erase hb]
    exact fun hc => hc.2 ((hpage q).mp hq)

/-! ### Calls -/

/-- What a call must not be for the stores to stay in step: a `shrink` to fewer pages, or a
call that gives back a block of size zero whose pointer is not page-aligned. -/
def Op.Harmless : Op → Prop
  | .allocate _ => True
  | .deallocate b => b.layout.size = 0 → b.ptr % pageSize = 0
  | .grow b layout =>
      b.layout.size = 0 → layout.size ≠ 0 → layout.align < pageSize → b.ptr % pageSize = 0
  | .shrink b layout => layout.align < pageSize → layout.numPages = b.layout.numPages

/-- The number of pages that a call may have to map. -/
def Op.newPages : Op → ℕ
  | .allocate layout => layout.numPages
  | .grow _ layout => layout.numPages
  | _ => 0

/-- A block that can be given back starts at the address of a page. -/
theorem Inv.ptr_eq (h : Inv managed sys) (hb : b ∈ sys.live)
    (h0 : b.layout.size = 0 → b.ptr % pageSize = 0) :
    b.ptr / pageSize * pageSize = b.ptr := by
  refine Nat.div_mul_cancel (Nat.dvd_of_mod_eq_zero ?_)
  by_cases hsize : b.layout.size = 0
  · exact h0 hsize
  · exact h.aligned b hb (numPages_pos hsize).ne'

/-- `allocate` keeps the invariant, or there are too few frames for the tables and pages. -/
theorem exec_allocate (hman : ∀ q, managed q → higherHalf ≤ q) (h : Inv managed sys)
    (layout : Layout) :
    (∃ sys', exec pol sys (.allocate layout) = .ok sys' ∧ Inv managed sys') ∨
      (exec pol sys (.allocate layout) = .error .outOfMemory ∧
        sys.mem.frames.length < 4 * layout.numPages) := by
  rcases allocate_spec pol hman h.agree layout with
    ⟨herr, hlt⟩ | ⟨s', hok, hagree⟩ | ⟨hzero, hok⟩ | ⟨a, s', hok, hfresh, hagree⟩
  · exact Or.inr ⟨by rw [exec, herr, error_bind], hlt⟩
  · exact Or.inl ⟨⟨s', sys.live⟩, by rw [exec, hok, ok_bind]; rfl, hagree, h.aligned, h.apart⟩
  · refine Or.inl ⟨⟨sys.mem, ⟨dangling, layout⟩ :: sys.live⟩, by rw [exec, hok, ok_bind]; rfl, ?_⟩
    have hnone : ∀ q, ¬ (⟨dangling, layout⟩ : Block).HasPage q := fun q hq => by
      rw [hasPage_iff] at hq
      exact not_within_zero _ _ (hzero ▸ hq)
    refine Inv.cons (h.agree.congr fun q => ?_) ?_ h.apart fun q hq => absurd hq (hnone q)
    · rw [owned_cons]
      exact or_iff_right (hnone q)
    · rintro b' hb' hne
      rcases List.mem_cons.mp hb' with rfl | hb'
      · exact absurd hzero hne
      · exact h.aligned b' hb' hne
  · refine Or.inl ⟨⟨s', ⟨a * pageSize, layout⟩ :: sys.live⟩, by rw [exec, hok, ok_bind]; rfl, ?_⟩
    have hpage : ∀ q, (⟨a * pageSize, layout⟩ : Block).HasPage q ↔ Within a layout.numPages q :=
      fun q => by rw [hasPage_iff, page_div]
    refine Inv.cons (hagree.congr fun q => ?_) ?_ h.apart fun q hq => hfresh q ((hpage q).mp hq)
    · rw [owned_cons, hpage, or_comm]
    · rintro b' hb' hne
      rcases List.mem_cons.mp hb' with rfl | hb'
      · exact Nat.mul_mod_left _ _
      · exact h.aligned b' hb' hne

/-- `deallocate` keeps the invariant. -/
theorem exec_deallocate (hman : ∀ q, managed q → higherHalf ≤ q) (h : Inv managed sys)
    (hb : b ∈ sys.live) (h0 : b.layout.size = 0 → b.ptr % pageSize = 0) :
    ∃ sys', exec pol sys (.deallocate b) = .ok sys' ∧ Inv managed sys' := by
  have hptr := h.ptr_eq hb h0
  obtain ⟨s', hok, hagree⟩ := deallocate_spec (a := b.ptr / pageSize) hman h.agree
    fun q hq => ⟨b, hb, hasPage_iff.mpr hq⟩
  rw [hptr] at hok
  refine ⟨⟨s', sys.live.erase b⟩, by rw [exec, hok, ok_bind], ?_,
    fun b' hb' => h.aligned b' (List.mem_of_mem_erase hb'), (h.apart_erase hb).2⟩
  refine hagree.congr fun q => ?_
  rw [h.owned_erase hb, hasPage_iff]

/-- `grow` keeps the invariant, or there are too few frames for the tables and pages. -/
theorem exec_grow (hman : ∀ q, managed q → higherHalf ≤ q) (h : Inv managed sys)
    (hb : b ∈ sys.live) {layout : Layout} (hle : b.layout.size ≤ layout.size)
    (h0 : b.layout.size = 0 → layout.size ≠ 0 → layout.align < pageSize → b.ptr % pageSize = 0) :
    (∃ sys', exec pol sys (.grow b layout) = .ok sys' ∧ Inv managed sys') ∨
      (exec pol sys (.grow b layout) = .error .outOfMemory ∧
        sys.mem.frames.length < 4 * layout.numPages) := by
  by_cases halign : pageSize ≤ layout.align
  · exact Or.inl ⟨sys, by simp only [exec, grow, if_pos halign, ok_bind]; rfl, h⟩
  by_cases hn : layout.numPages = b.layout.numPages
  · exact Or.inl ⟨_, by simp only [exec, grow, if_neg halign, if_pos hn, ok_bind]; rfl,
      h.relayout hb hn⟩
  have hsize : layout.size ≠ 0 := fun hs => by
    have hb0 : b.layout.size = 0 := by omega
    exact hn (by rw [Layout.numPages, Layout.numPages, hs, hb0])
  have hptr := h.ptr_eq hb fun hb0 => h0 hb0 hsize (not_le.mp halign)
  rcases allocate_spec pol hman h.agree layout with
    ⟨herr, hlt⟩ | ⟨s', hok, hagree⟩ | ⟨hzero, -⟩ | ⟨a, s₁, hok, hfresh, hagree⟩
  · refine Or.inr ⟨?_, hlt⟩
    simp only [exec, grow, if_neg halign, if_neg hn, herr, error_bind]
  · refine Or.inl ⟨⟨s', sys.live⟩, ?_, hagree, h.aligned, h.apart⟩
    simp only [exec, grow, if_neg halign, if_neg hn, hok, ok_bind]
    rfl
  · exact absurd hzero (numPages_pos hsize).ne'
  · obtain ⟨s', hde, hagree'⟩ := deallocate_spec (a := b.ptr / pageSize) hman hagree
      fun q hq => Or.inl ⟨b, hb, hasPage_iff.mpr hq⟩
    rw [hptr] at hde
    refine Or.inl ⟨⟨s', ⟨a * pageSize, layout⟩ :: sys.live.erase b⟩, ?_, ?_⟩
    · simp only [exec, grow, if_neg halign, if_neg hn, hok, ok_bind, hde]
      rfl
    have hpage : ∀ q, (⟨a * pageSize, layout⟩ : Block).HasPage q ↔ Within a layout.numPages q :=
      fun q => by rw [hasPage_iff, page_div]
    refine Inv.cons (hagree'.congr fun q => ?_) ?_ (h.apart_erase hb).2 fun q hq => ?_
    · have hnot : Within a layout.numPages q → ¬ b.HasPage q := fun hq hqb =>
        hfresh q hq ⟨b, hb, hqb⟩
      rw [owned_cons, hpage, h.owned_erase hb, ← hasPage_iff]
      tauto
    · rintro b' hb' hne
      rcases List.mem_cons.mp hb' with rfl | hb'
      · exact Nat.mul_mod_left _ _
      · exact h.aligned b' (List.mem_of_mem_erase hb') hne
    · rw [h.owned_erase hb]
      exact fun hc => hfresh q ((hpage q).mp hq) hc.1

/-- `shrink` keeps the invariant. -/
theorem exec_shrink (h : Inv managed sys) (hb : b ∈ sys.live) {layout : Layout}
    (hn : layout.align < pageSize → layout.numPages = b.layout.numPages) :
    ∃ sys', exec pol sys (.shrink b layout) = .ok sys' ∧ Inv managed sys' := by
  by_cases halign : pageSize ≤ layout.align
  · exact ⟨sys, by simp only [exec, shrink, if_pos halign, ok_bind]; rfl, h⟩
  · have hpages := hn (not_le.mp halign)
    exact ⟨_, by simp only [exec, shrink, if_neg halign, if_pos hpages, ok_bind]; rfl,
      h.relayout hb hpages⟩

/-- **A call keeps the stores in step.** It fails only for lack of frames. -/
theorem exec_spec (pol : Policy) (hman : ∀ q, managed q → higherHalf ≤ q)
    (h : Inv managed sys) {op : Op} (hv : op.Valid sys) (hop : op.Harmless) :
    (∃ sys', exec pol sys op = .ok sys' ∧ Inv managed sys') ∨
      (exec pol sys op = .error .outOfMemory ∧ sys.mem.frames.length < 4 * op.newPages) := by
  cases op with
  | allocate layout => exact exec_allocate hman h layout
  | deallocate b => exact Or.inl (exec_deallocate hman h hv hop)
  | grow b layout => exact exec_grow hman h hv.1 hv.2 hop
  | shrink b layout => exact Or.inl (exec_shrink h hv.1 hop)

/-! ### Calls that are not harmless -/

/-- The pages that `shrink` cuts off are free and stay mapped. -/
theorem shrink_spec (hman : ∀ q, managed q → higherHalf ≤ q) (h : Inv managed sys)
    (hb : b ∈ sys.live) {layout : Layout} (halign : layout.align < pageSize)
    (hlt : layout.numPages < b.layout.numPages) :
    ∃ s', shrink sys.mem b.ptr b.layout layout = .ok (some b.ptr, s') ∧
      ∀ q, b.HasPage q → b.ptr / pageSize + layout.numPages ≤ q →
        s'.free q = true ∧ (getPage s' (q * pageSize)).isSome := by
  have haligned := h.aligned b hb (by omega)
  have hend : b.ptr + layout.numPages * pageSize =
      (b.ptr / pageSize + layout.numPages) * pageSize := by
    rw [Nat.add_mul, Nat.div_mul_cancel (Nat.dvd_of_mod_eq_zero haligned)]
  have hcut : ∀ q, Within (b.ptr / pageSize + layout.numPages)
      (b.layout.numPages - layout.numPages) q → Owned sys.live q := by
    intro q hq
    refine ⟨b, hb, hasPage_iff.mpr ?_⟩
    simp only [Within] at hq ⊢
    omega
  obtain ⟨s₁, hrel, hmaps, hfree⟩ := release_spec hman false h.agree.maps hcut
  have hnot : ∀ q, Within (b.ptr / pageSize + layout.numPages)
      (b.layout.numPages - layout.numPages) q → s₁.free q = false := fun q hq => by
    rw [hfree, ← Bool.not_eq_true, h.agree.free_iff]
    exact fun hc => hc.2 (hcut q hq)
  obtain ⟨s', hvirt, hl, -, hfree'⟩ := virtFree_spec hnot
  refine ⟨s', ?_, fun q hq hle => ?_⟩
  · simp only [shrink, if_neg (not_le.mpr halign), if_neg hlt.ne, hend, hrel, ok_bind, hvirt]
  · have hw : Within (b.ptr / pageSize + layout.numPages)
        (b.layout.numPages - layout.numPages) q := by
      rw [hasPage_iff] at hq
      simp only [Within] at hq ⊢
      omega
    refine ⟨(hfree' q).mpr (Or.inr hw), ?_⟩
    rw [getPage_page, hl,
      hmaps.mapped q (h.agree.maps.managed_of q (Or.inl (hcut q hw)))]
    exact Or.inr (Or.inr ⟨rfl, hw⟩)

/-- A block of size zero that is not at the address of a page cannot be given back. -/
theorem deallocate_unaligned {ptr : ℕ} {layout : Layout} (hsize : layout.size = 0)
    (hptr : ptr % pageSize ≠ 0) : deallocate s ptr layout = .error .unaligned := by
  have hzero : layout.numPages = 0 := by
    rw [Layout.numPages, hsize]
    decide
  rw [deallocate, hzero]
  simp only [release, releaseLoop, Nat.lt_irrefl, if_false, ok_bind]
  rw [virtFree, ensure_neg hptr, error_bind]

/-! ### Runs -/

/-- A call that respects the contract and returns. -/
def Step (pol : Policy) (sys : System) (op : Op) (sys' : System) : Prop :=
  op.Valid sys ∧ exec pol sys op = .ok sys'

/-- The allocator before the first call: the free pages lie in the higher half and are not
mapped, and no frame is twice on the stack. -/
structure Init (s : State) : Prop where
  higher : ∀ q, s.free q = true → higherHalf ≤ q
  unmapped : ∀ q, s.free q = true → getPage s (q * pageSize) = none
  nodup : s.frames.Nodup

/-- The stores of the allocator agree about the pages that the virtual allocator manages. -/
structure Sound (managed : ℕ → Prop) (sys : System) : Prop where
  mapped_iff : ∀ q, managed q →
    ((getPage sys.mem (q * pageSize)).isSome ↔ ∃ b ∈ sys.live, b.HasPage q)
  free_unmapped : ∀ q, sys.mem.free q = true → getPage sys.mem (q * pageSize) = none
  distinct : ∀ b ∈ sys.live, ∀ b' ∈ sys.live, ∀ q q' f, b.HasPage q → b'.HasPage q' →
    getPage sys.mem (q * pageSize) = some f → getPage sys.mem (q' * pageSize) = some f → q = q'
  off_stack : ∀ b ∈ sys.live, ∀ q f, b.HasPage q →
    getPage sys.mem (q * pageSize) = some f → f ∉ sys.mem.frames

/-- Before the first call there are no blocks. -/
theorem Init.inv (h : Init s) : Inv (fun q => s.free q = true) ⟨s, []⟩ := by
  have hnone : ∀ q, ¬ Owned [] q := by simp [Owned]
  refine ⟨⟨⟨fun q hq => ?_, ?_, fun q hq => absurd hq (hnone q),
    fun q _ _ hq => absurd hq (hnone q), h.nodup, fun q _ hq => absurd hq (hnone q)⟩,
    fun q => ?_⟩, by simp, List.Pairwise.nil⟩
  · rw [← getPage_page, h.unmapped q hq]
    simp [hnone]
  · rintro q (hq | hq)
    · exact absurd hq (hnone q)
    · exact absurd hq id
  · simp [hnone]

/-- The invariant says that the stores agree. -/
theorem Inv.sound (h : Inv managed sys) : Sound managed sys := by
  have hmaps := h.agree.maps
  refine ⟨fun q hq => ?_, fun q hq => ?_, fun b hb b' hb' q q' f hq hq' hf hf' => ?_,
    fun b hb q f hq hf => ?_⟩
  · rw [getPage_page, hmaps.mapped q hq, or_false, Owned]
  · obtain ⟨hm, hno⟩ := (h.agree.free_iff q).mp hq
    rw [getPage_page, ← Option.not_isSome_iff_eq_none, hmaps.mapped q hm, or_false]
    exact hno
  · rw [getPage_page] at hf hf'
    exact hmaps.inj q q' f ⟨b, hb, hq⟩ ⟨b', hb', hq'⟩ hf hf'
  · rw [getPage_page] at hf
    exact hmaps.off q f ⟨b, hb, hq⟩ hf

/-- The invariant holds in every run of harmless calls. -/
theorem inv_of_runs (hinit : Init s) {ops : List Op} (h : Runs (Step pol) ⟨s, []⟩ ops sys)
    (hops : ∀ op ∈ ops, op.Harmless) : Inv (fun q => s.free q = true) sys := by
  induction h with
  | refl => exact hinit.inv
  | @snoc ops op sys sys' hrun hstep ih =>
      have hinv := ih fun op hop => hops op (List.mem_append_left _ hop)
      have hop : op.Harmless := hops op (by simp)
      rcases exec_spec pol hinit.higher hinv hstep.1 hop with
        ⟨sys₁, hok, hinv'⟩ | ⟨herr, -⟩
      · obtain rfl : sys' = sys₁ := Except.ok.inj (hstep.2.symm.trans hok)
        exact hinv'
      · exact absurd (hstep.2.symm.trans herr) (by simp)

/-- **The stores agree in every run** without a `shrink` to fewer pages and without a call
that gives back a block of size zero at a dangling pointer, and the next such call does not
panic unless the frames run out. -/
theorem sound_of_runs (hinit : Init s) {ops : List Op}
    (h : Runs (Step pol) ⟨s, []⟩ ops sys) (hops : ∀ op ∈ ops, op.Harmless) :
    Sound (fun q => s.free q = true) sys ∧
      ∀ op : Op, op.Valid sys → op.Harmless →
        (∃ sys', exec pol sys op = .ok sys') ∨
          (exec pol sys op = .error .outOfMemory ∧
            sys.mem.frames.length < 4 * op.newPages) := by
  have hinv := inv_of_runs hinit h hops
  refine ⟨hinv.sound, fun op hv hop => ?_⟩
  rcases exec_spec pol hinit.higher hinv hv hop with ⟨sys', hok, -⟩ | herr
  · exact Or.inl ⟨sys', hok⟩
  · exact Or.inr herr

/-- The virtual allocator of the example hands out the lowest of its two pages that fits. -/
def lowestFit : Policy where
  choose free n := [higherHalf, higherHalf + 1].find? fun page =>
    decide (∀ k < n, free (page + k) = true)
  sound h := by
    have hfits := List.find?_some h
    simpa using hfits

/-- Two free pages and twelve frames. -/
def twoPages : State where
  free q := q == higherHalf || q == higherHalf + 1
  frames := [4096, 8192, 12288, 16384, 20480, 24576, 28672, 32768, 36864, 40960, 45056, 49152]
  tables _ _ := false
  entries _ := none
  flags _ := writeable

/-- The state of the example is initial. -/
theorem init_twoPages : Init twoPages := by
  refine ⟨fun q hq => ?_, fun q _ => rfl, by decide⟩
  simp only [twoPages, Bool.or_eq_true, beq_iff_eq] at hq
  omega

/-- The state after a call. -/
def after (pol : Policy) (sys : System) (op : Op) : System :=
  (exec pol sys op).toOption.getD sys

/-- An operation of the example that returns is a step. -/
theorem step_after (op : Op) (hv : op.Valid sys) (hok : (exec pol sys op).isOk = true) :
    Step pol sys op (after pol sys op) :=
  ⟨hv, eq_ok_of_isOk hok sys⟩

/-- The address of the first page. -/
def firstPage : ℕ := higherHalf * pageSize

/-- Some calls after which one block of two is left. -/
theorem sound_of_runs_shrink :
    ∃ sys, Runs (Step lowestFit) ⟨twoPages, []⟩
        [.allocate ⟨4096, 8⟩, .shrink ⟨firstPage, ⟨4096, 8⟩⟩ ⟨100, 8⟩, .allocate ⟨8, 8⟩,
          .deallocate ⟨firstPage, ⟨100, 8⟩⟩] sys ∧
      sys.live = [⟨firstPage + pageSize, ⟨8, 8⟩⟩] ∧
      Sound (fun q => twoPages.free q = true) sys := by
  have hrun : Runs (Step lowestFit) ⟨twoPages, []⟩ _ _ :=
    Runs.cons (step_after (.allocate ⟨4096, 8⟩) trivial rfl)
      (Runs.cons (step_after (.shrink ⟨firstPage, ⟨4096, 8⟩⟩ ⟨100, 8⟩)
          ⟨List.mem_singleton.mpr rfl, by decide⟩ rfl)
        (Runs.cons (step_after (.allocate ⟨8, 8⟩) trivial rfl)
          (Runs.cons (step_after (.deallocate ⟨firstPage, ⟨100, 8⟩⟩)
            (List.mem_cons_of_mem _ (List.mem_singleton.mpr rfl)) rfl) Runs.refl)))
  refine ⟨_, hrun, rfl, (sound_of_runs init_twoPages hrun fun op hop => ?_).1⟩
  simp only [List.mem_cons, List.not_mem_nil, or_false] at hop
  rcases hop with rfl | rfl | rfl | rfl
  · exact trivial
  · exact fun _ => rfl
  · exact trivial
  · exact fun h => absurd h (by decide)

/-- **A page that `shrink` cuts off stays mapped.** The next allocation that gets the page
runs into the assertion of `allocate`, although there are enough frames. A block of size zero
cannot be given back at all. -/
theorem shrink_leaves_mapping :
    Init twoPages ∧
      (∃ sys, Runs (Step lowestFit) ⟨twoPages, []⟩
          [.allocate ⟨8192, 8⟩, .shrink ⟨firstPage, ⟨8192, 8⟩⟩ ⟨4096, 8⟩] sys ∧
        ¬ Sound (fun q => twoPages.free q = true) sys ∧
        exec lowestFit sys (.allocate ⟨4096, 8⟩) = .error .alreadyMapped ∧
        sys.mem.frames.length = 8) ∧
      ∃ sys, Runs (Step lowestFit) ⟨twoPages, []⟩ [.allocate ⟨0, 1⟩] sys ∧
        (Op.deallocate ⟨dangling, ⟨0, 1⟩⟩).Valid sys ∧
        exec lowestFit sys (.deallocate ⟨dangling, ⟨0, 1⟩⟩) = .error .unaligned := by
  refine ⟨init_twoPages,
    ⟨after lowestFit (after lowestFit ⟨twoPages, []⟩ (.allocate ⟨8192, 8⟩))
        (.shrink ⟨firstPage, ⟨8192, 8⟩⟩ ⟨4096, 8⟩), ?_, ?_, rfl, rfl⟩,
    ⟨after lowestFit ⟨twoPages, []⟩ (.allocate ⟨0, 1⟩), ?_, ?_, rfl⟩⟩
  · refine Runs.cons (step_after (.allocate ⟨8192, 8⟩) trivial rfl)
      (Runs.cons (step_after _ ⟨?_, ?_⟩ rfl) Runs.refl)
    · exact List.mem_singleton.mpr rfl
    · decide
  · intro hsound
    have hnone := hsound.free_unmapped (higherHalf + 1) rfl
    exact absurd (congrArg Option.isSome hnone) Bool.noConfusion
  · exact Runs.cons (step_after (.allocate ⟨0, 1⟩) trivial rfl) Runs.refl
  · exact List.mem_singleton.mpr rfl

end HydroxKernel.PageAlloc
