import HydroxKernel.Lib.Runs
import HydroxKernel.Arch.Page

/-!
# All Address Spaces Agree on the Kernel's Half

The page tables fall into regions: those that hang below the upper entries of the kernel's
L4 table, which all address spaces share, and for every user address space its L4 table with
those that hang below its lower entries. No frame is a table of two regions or of two levels,
so what an operation writes for one region is seen by no other.

## Main results

* `Within.link` and `Within.setEntry`: making a table and writing an L1 entry stay in one
  region.
* `setPageInternal_good`: so does setting a page.
* `inv_initKernelAddrspace`: the invariant holds when the kernel has started.
* `kernel_half_coherent`: in every run, all address spaces agree on the upper half, the upper
  entries of L4 tables never change, and setting a user page changes no other address space.
-/

namespace HydroxKernel.Page

/-! ### Tables and regions -/

/-- The kernel's tables, or those of the user address space that was made as the `k`-th. -/
inductive Region
  | kernel
  | user (k : ℕ)
  deriving DecidableEq

/-- The entries of an L4 table that belong to its region. -/
def Region.Owns : Region → Fin 512 → Prop
  | .kernel, i => 256 ≤ i.val
  | .user _, i => i.val < 256

/-- The entry points to a table of the next level. Huge pages are not expected in the L4
table. -/
def Entry.Follows (level : ℕ) (e : Entry) : Prop :=
  e.flags.present = true ∧ (level = 4 ∨ e.flags.hugePage = false)

/-- The frame is a page table of the region, of the given level. -/
inductive IsTable (s : State) : Region → ℕ → ℕ → Prop
  | kernel : IsTable s .kernel 4 s.kernel.pageTable
  | user {k : ℕ} {space : AddressSpace} (hk : s.users[k]? = some space) :
      IsTable s (.user k) 4 space.pageTable
  | next {r : Region} {level table : ℕ} {i : Fin 512} (htable : IsTable s r (level + 1) table)
      (hlevel : 1 ≤ level) (hi : level + 1 = 4 → r.Owns i)
      (he : (s.tables table i).Follows (level + 1)) :
      IsTable s r level (s.tables table i).frame

/-- The frame is a page table. -/
def InUse (s : State) (frame : ℕ) : Prop := ∃ r level, IsTable s r level frame

/-- What is assumed of the frames that `alloc_one` returns: none of them is in use, and none
is returned twice. -/
structure Fresh (s : State) (frames : List ℕ) : Prop where
  nodup : frames.Nodup
  unused : ∀ frame ∈ frames, ¬ InUse s frame

/-- A step: an operation on an address space that exists, with frames that are not in use. -/
def Step (s : State) (op : Op) (t : State) : Prop :=
  op.Exists s ∧ Fresh s op.frames ∧ t = finalState (perform s op)

/-- No frame is a table of two regions, or of two levels. -/
def Levels (s : State) : Prop :=
  ∀ {r r' level level' frame}, IsTable s r level frame → IsTable s r' level' frame →
    r = r' ∧ level = level'

/-- The invariant of the address spaces. -/
structure Inv (s : State) : Prop where
  levels : Levels s
  kernel : s.kernel.isKernel = true
  users : ∀ space ∈ s.users, space.isKernel = false
  lower : ∀ i : Fin 512, i.val < 256 → (s.tables s.kernel.pageTable i).flags.present = false
  upper : ∀ i : Fin 512, 256 ≤ i.val → (s.tables s.kernel.pageTable i).flags.present = true
  shared : ∀ space ∈ s.users, ∀ i : Fin 512, 256 ≤ i.val →
    s.tables space.pageTable i = s.tables s.kernel.pageTable i

/-- What an operation on a region does: it keeps the address spaces and the tables, it makes
tables only for its region and only of frames that were not in use, and it writes only to
these and to the region's entries, of which those of an L4 table were not present. -/
structure Within (r : Region) (s t : State) : Prop where
  kernel : t.kernel = s.kernel
  users : t.users = s.users
  keeps : ∀ {r' level frame}, IsTable s r' level frame → IsTable t r' level frame
  makes : ∀ {r' level frame}, IsTable t r' level frame →
    IsTable s r' level frame ∨ (r' = r ∧ ¬ InUse s frame)
  writes : ∀ {frame i}, t.tables frame i ≠ s.tables frame i →
    ¬ InUse s frame ∨ ∃ level, IsTable s r level frame ∧
      (level = 4 → r.Owns i ∧ (s.tables frame i).flags.present = false)

/-- An operation may do nothing. -/
theorem Within.refl (r : Region) (s : State) : Within r s s :=
  ⟨rfl, rfl, id, .inl, fun h => absurd rfl h⟩

/-- Operations on a region compose. -/
theorem Within.trans {r : Region} {s t u : State} (h : Within r s t) (h' : Within r t u) :
    Within r s u where
  kernel := h'.kernel.trans h.kernel
  users := h'.users.trans h.users
  keeps := fun ht => h'.keeps (h.keeps ht)
  makes := by
    intro r' level frame ht
    rcases h'.makes ht with ht | ⟨rfl, hnot⟩
    · exact h.makes ht
    · exact .inr ⟨rfl, fun ⟨r'', l, hs⟩ => hnot ⟨r'', l, h.keeps hs⟩⟩
  writes := by
    intro frame i hne
    by_cases heq : t.tables frame i = s.tables frame i
    · rw [← heq] at hne
      rcases h'.writes hne with hnot | ⟨level, ht, hi⟩
      · exact .inl fun ⟨r'', l, hs⟩ => hnot ⟨r'', l, h.keeps hs⟩
      · rcases h.makes ht with hs | ⟨-, hnot⟩
        · rw [heq] at hi
          exact .inr ⟨level, hs, hi⟩
        · exact .inl hnot
    · exact h.writes heq

/-! ### Writing entries -/

/-- Reads an entry after an entry was written. -/
theorem setEntry_tables (s : State) (table : ℕ) (i : Fin 512) (e : Entry) (table' : ℕ)
    (i' : Fin 512) :
    (s.setEntry table i e).tables table' i' =
      if table' = table ∧ i' = i then e else s.tables table' i' := by
  rw [State.setEntry]
  by_cases ht : table' = table
  · subst ht
    by_cases hi : i' = i
    · simp [hi]
    · simp [hi]
  · simp [ht]

/-- Reads an entry after a table was emptied. -/
theorem clear_tables (s : State) (table table' : ℕ) (i' : Fin 512) :
    (s.clear table).tables table' i' =
      if table' = table then .unused else s.tables table' i' := by
  rw [State.clear]
  by_cases ht : table' = table
  · simp [ht]
  · simp [ht]

/-- Empties a frame and makes an entry point to it. -/
def State.link (s : State) (table : ℕ) (i : Fin 512) (frame : ℕ) (flags : PageTableFlags) :
    State :=
  (s.clear frame).setEntry table i ⟨frame, flags⟩

section Link

variable {s : State} {r : Region} {level table : ℕ} {i : Fin 512} {frame : ℕ}
  {flags : PageTableFlags}

/-- Reads an entry of a table after `link`. -/
theorem link_tables (hframe : ¬ InUse s frame) {table' : ℕ} (h : InUse s table') (i' : Fin 512) :
    (s.link table i frame flags).tables table' i' =
      if table' = table ∧ i' = i then ⟨frame, flags⟩ else s.tables table' i' := by
  have hne : table' ≠ frame := by
    rintro rfl
    exact hframe h
  rw [State.link, setEntry_tables, clear_tables, if_neg hne]

/-- The table that is made is empty. -/
theorem link_tables_frame (hframe : ¬ InUse s frame) (h : InUse s table) (i' : Fin 512) :
    (s.link table i frame flags).tables frame i' = .unused := by
  have hne : frame ≠ table := by
    rintro rfl
    exact hframe h
  rw [State.link, setEntry_tables, if_neg fun hand => hne hand.1, clear_tables, if_pos rfl]

/-- `link` keeps the tables. -/
theorem IsTable.link (hframe : ¬ InUse s frame)
    (habsent : (s.tables table i).flags.present = false) {r' : Region} {level' frame' : ℕ}
    (h : IsTable s r' level' frame') :
    IsTable (s.link table i frame flags) r' level' frame' := by
  induction h with
  | kernel => exact .kernel
  | user hk => exact .user hk
  | @next r' level' table' i' htable hlevel hi he ih =>
      have heq : (s.link table i frame flags).tables table' i' = s.tables table' i' := by
        rw [link_tables hframe ⟨_, _, htable⟩, if_neg]
        rintro ⟨rfl, rfl⟩
        rw [he.1] at habsent
        exact Bool.noConfusion habsent
      rw [← heq] at he ⊢
      exact .next ih hlevel hi he

/-- `link` makes one table. -/
theorem isTable_link (hl : Levels s) (hframe : ¬ InUse s frame)
    (htable : IsTable s r (level + 1) table) {r' : Region} {level' frame' : ℕ}
    (h : IsTable (s.link table i frame flags) r' level' frame') :
    IsTable s r' level' frame' ∨ (r' = r ∧ level' = level ∧ frame' = frame) := by
  induction h with
  | kernel => exact .inl .kernel
  | user hk => exact .inl (.user hk)
  | @next r' level' table' i' _ hlevel hi he ih =>
      rcases ih with hold | ⟨-, -, rfl⟩
      · rw [link_tables hframe ⟨_, _, hold⟩] at he ⊢
        split
        · rename_i hand
          obtain ⟨rfl, rfl⟩ := hand
          obtain ⟨hr, hlev⟩ := hl hold htable
          exact .inr ⟨hr, by omega, rfl⟩
        · rename_i hand
          rw [if_neg hand] at he
          exact .inl (.next hold hlevel hi he)
      · rw [link_tables_frame hframe ⟨_, _, htable⟩] at he
        exact absurd he.1 Bool.false_ne_true

/-- After `link`, still no frame is a table of two regions or levels. -/
theorem Levels.link (hl : Levels s) (hframe : ¬ InUse s frame)
    (htable : IsTable s r (level + 1) table) : Levels (s.link table i frame flags) := by
  intro r₁ r₂ level₁ level₂ frame' h₁ h₂
  rcases isTable_link hl hframe htable h₁ with hold₁ | ⟨hr₁, hlevel₁, heq₁⟩
  · rcases isTable_link hl hframe htable h₂ with hold₂ | ⟨-, -, heq₂⟩
    · exact hl hold₁ hold₂
    · rw [heq₂] at hold₁
      exact absurd ⟨_, _, hold₁⟩ hframe
  · rcases isTable_link hl hframe htable h₂ with hold₂ | ⟨hr₂, hlevel₂, -⟩
    · rw [heq₁] at hold₂
      exact absurd ⟨_, _, hold₂⟩ hframe
    · exact ⟨hr₁.trans hr₂.symm, hlevel₁.trans hlevel₂.symm⟩

/-- `link` stays in the region of the table. -/
theorem Within.link (hl : Levels s) (hframe : ¬ InUse s frame)
    (htable : IsTable s r (level + 1) table) (hi : level + 1 = 4 → r.Owns i)
    (habsent : (s.tables table i).flags.present = false) :
    Within r s (s.link table i frame flags) where
  kernel := rfl
  users := rfl
  keeps := fun h => h.link hframe habsent
  makes := by
    intro r' level' frame' h
    rcases isTable_link hl hframe htable h with h | ⟨rfl, -, rfl⟩
    · exact .inl h
    · exact .inr ⟨rfl, hframe⟩
  writes := by
    intro frame' i' hne
    by_cases huse : InUse s frame'
    · rw [link_tables hframe huse] at hne
      split at hne
      · rename_i hand
        obtain ⟨rfl, rfl⟩ := hand
        exact .inr ⟨level + 1, htable, fun h => ⟨hi h, habsent⟩⟩
      · exact absurd rfl hne
    · exact .inl huse

/-- The frame that is linked is a table. -/
theorem isTable_link_frame (hframe : ¬ InUse s frame)
    (htable : IsTable s r (level + 1) table) (hlevel : 1 ≤ level)
    (hi : level + 1 = 4 → r.Owns i) (habsent : (s.tables table i).flags.present = false)
    (hflags : (Entry.mk frame flags).Follows (level + 1)) :
    IsTable (s.link table i frame flags) r level frame := by
  have heq : (s.link table i frame flags).tables table i = ⟨frame, flags⟩ := by
    rw [link_tables hframe ⟨_, _, htable⟩, if_pos ⟨rfl, rfl⟩]
  have htable' : IsTable (s.link table i frame flags) r (level + 1) table :=
    htable.link hframe habsent
  have h := IsTable.next (i := i) htable' hlevel hi (by rw [heq]; exact hflags)
  rwa [heq] at h

/-- The frames that are left after `link` are not in use. -/
theorem Fresh.link {frames : List ℕ} (hl : Levels s) (hf : Fresh s (frame :: frames))
    (htable : IsTable s r (level + 1) table) : Fresh (s.link table i frame flags) frames where
  nodup := (List.nodup_cons.mp hf.nodup).2
  unused := by
    rintro frame' hmem ⟨r', level', h⟩
    rcases isTable_link hl (hf.unused frame List.mem_cons_self) htable h with h | ⟨-, -, rfl⟩
    · exact hf.unused frame' (List.mem_cons_of_mem _ hmem) ⟨r', level', h⟩
    · exact (List.nodup_cons.mp hf.nodup).1 hmem

end Link

/-! ### Writing an L1 entry -/

section SetEntry

variable {s : State} {r : Region} {table : ℕ} {i : Fin 512} {e : Entry}

/-- Writing an L1 entry makes and removes no tables: L1 entries do not point to tables, and
the table is of no other level. -/
theorem isTable_setEntry (hl : Levels s) (htable : IsTable s r 1 table) {r' : Region}
    {level' frame' : ℕ} :
    IsTable (s.setEntry table i e) r' level' frame' ↔ IsTable s r' level' frame' := by
  have hkeep : ∀ {r' : Region} {level' table' : ℕ} (i' : Fin 512),
      IsTable s r' (level' + 1) table' → 1 ≤ level' →
      (s.setEntry table i e).tables table' i' = s.tables table' i' := by
    intro r' level' table' i' h hlevel
    rw [setEntry_tables, if_neg]
    rintro ⟨rfl, -⟩
    have := (hl h htable).2
    omega
  constructor
  · intro h
    induction h with
    | kernel => exact .kernel
    | user hk => exact .user hk
    | next _ hlevel hi he ih =>
        rw [hkeep _ ih hlevel] at he ⊢
        exact .next ih hlevel hi he
  · intro h
    induction h with
    | kernel => exact .kernel
    | user hk => exact .user hk
    | @next r' level' table' i' htable' hlevel hi he ih =>
        rw [← hkeep i' htable' hlevel] at he ⊢
        exact .next ih hlevel hi he

/-- Writing an L1 entry stays in the region of the table. -/
theorem Within.setEntry (hl : Levels s) (htable : IsTable s r 1 table) :
    Within r s (s.setEntry table i e) where
  kernel := rfl
  users := rfl
  keeps := (isTable_setEntry hl htable).mpr
  makes := fun h => .inl ((isTable_setEntry hl htable).mp h)
  writes := by
    intro frame' i' hne
    rw [setEntry_tables] at hne
    split at hne
    · rename_i hand
      obtain ⟨rfl, rfl⟩ := hand
      exact .inr ⟨1, htable, fun h => absurd h (by decide)⟩
    · exact absurd rfl hne

/-- After writing an L1 entry, still no frame is a table of two regions or levels. -/
theorem Levels.setEntry (hl : Levels s) (htable : IsTable s r 1 table) :
    Levels (s.setEntry table i e) := by
  intro r₁ r₂ level₁ level₂ frame' h₁ h₂
  exact hl ((isTable_setEntry hl htable).mp h₁) ((isTable_setEntry hl htable).mp h₂)

end SetEntry

/-! ### The invariant -/

/-- The region of an address space. -/
inductive RegionOf (s : State) : AddressSpace → Region → Prop
  | kernel : RegionOf s s.kernel .kernel
  | user {k : ℕ} {space : AddressSpace} (hk : s.users[k]? = some space) :
      RegionOf s space (.user k)

/-- Every address space has a region. -/
theorem exists_regionOf {s : State} {space : AddressSpace} (h : space ∈ s.kernel :: s.users) :
    ∃ r, RegionOf s space r := by
  rcases List.mem_cons.mp h with rfl | h
  · exact ⟨_, .kernel⟩
  · obtain ⟨k, hk⟩ := List.getElem?_of_mem h
    exact ⟨_, .user hk⟩

/-- The L4 table of an address space is a table of its region. -/
theorem RegionOf.isTable {s : State} {space : AddressSpace} {r : Region}
    (h : RegionOf s space r) : IsTable s r 4 space.pageTable := by
  cases h with
  | kernel => exact .kernel
  | user hk => exact .user hk

/-- An operation on one region writes no upper entry of an L4 table. -/
theorem Inv.upper_eq {s t : State} {r : Region} (h : Inv s) (hw : Within r s t)
    {space : AddressSpace} (hspace : space ∈ s.kernel :: s.users) {i : Fin 512}
    (hi : 256 ≤ i.val) : t.tables space.pageTable i = s.tables space.pageTable i := by
  obtain ⟨r', hr'⟩ := exists_regionOf hspace
  by_contra hne
  rcases hw.writes hne with hnot | ⟨level, htable, hfour⟩
  · exact hnot ⟨_, _, hr'.isTable⟩
  · obtain ⟨rfl, rfl⟩ := h.levels htable hr'.isTable
    obtain ⟨howns, habsent⟩ := hfour rfl
    cases hr' with
    | kernel =>
        rw [h.upper i hi] at habsent
        exact Bool.noConfusion habsent
    | user hk => exact absurd howns (Nat.not_lt.mpr hi)

/-- An operation on one region writes no lower entry of the kernel's L4 table. -/
theorem Inv.lower_eq {s t : State} {r : Region} (h : Inv s) (hw : Within r s t) {i : Fin 512}
    (hi : i.val < 256) :
    t.tables s.kernel.pageTable i = s.tables s.kernel.pageTable i := by
  by_contra hne
  rcases hw.writes hne with hnot | ⟨level, htable, hfour⟩
  · exact hnot ⟨_, _, .kernel⟩
  · obtain ⟨rfl, rfl⟩ := h.levels htable .kernel
    exact absurd (hfour rfl).1 (Nat.not_le.mpr hi)

/-- An operation on one region keeps the invariant. -/
theorem Inv.within {s t : State} {r : Region} (h : Inv s) (hw : Within r s t)
    (hl : Levels t) : Inv t where
  levels := hl
  kernel := by
    rw [hw.kernel]
    exact h.kernel
  users := by
    rw [hw.users]
    exact h.users
  lower := by
    intro i hi
    rw [hw.kernel, h.lower_eq hw hi]
    exact h.lower i hi
  upper := by
    intro i hi
    rw [hw.kernel, h.upper_eq hw List.mem_cons_self hi]
    exact h.upper i hi
  shared := by
    intro space hspace i hi
    rw [hw.users] at hspace
    rw [hw.kernel, h.upper_eq hw List.mem_cons_self hi,
      h.upper_eq hw (List.mem_cons_of_mem _ hspace) hi]
    exact h.shared space hspace i hi

/-! ### Setting a page -/

/-- An operation on a region that returns or panics in a state where no frame is a table of
two regions or levels. -/
def Good (r : Region) (s : State) (x : Except (Panic × State) State) : Prop :=
  Levels (finalState x) ∧ Within r s (finalState x)

/-- Operations on a region compose. -/
theorem Good.of_within {r : Region} {s t : State} {x : Except (Panic × State) State}
    (h : Good r t x) (hw : Within r s t) : Good r s x :=
  ⟨h.1, hw.trans h.2⟩

/-- A state that is left as it is. -/
theorem Good.refl (r : Region) {s : State} (hl : Levels s) {x : Except (Panic × State) State}
    (hx : finalState x = s) : Good r s x := by
  rw [Good, hx]
  exact ⟨hl, .refl r s⟩

/-- An assertion of an operation on a region. -/
theorem Good.ensure {r : Region} {s : State} (hl : Levels s) {c : Prop} [Decidable c]
    {p : Panic} {x : Except (Panic × State) State} (h : c → Good r s x) :
    Good r s (ensure c (p, s) >>= fun _ => x) := by
  by_cases hc : c
  · rw [ensure_pos hc, ok_bind]
    exact h hc
  · rw [ensure_neg hc, error_bind]
    exact .refl r hl rfl

section SetPage

variable {s : State} {r : Region} {level table : ℕ} {i : Fin 512} {frames : List ℕ}

/-- Going from an entry of a table to the table it points to: there is nothing to do, or there
is no frame, or the state stays good and the entry, unless it is a huge page, points to a
table of the next level. -/
theorem enterTable_cases (hl : Levels s) (hf : Fresh s frames)
    (htable : IsTable s r (level + 1) table) (hlevel : 1 ≤ level)
    (hi : level + 1 = 4 → r.Owns i) (isSome : Bool) :
    enterTable s frames table i isSome = .ok none ∨
    enterTable s frames table i isSome = .error (.outOfMemory, s) ∨
    ∃ t frames' e, enterTable s frames table i isSome = .ok (some (t, frames', e)) ∧
      Levels t ∧ Within r s t ∧ Fresh t frames' ∧ e.flags.present = true ∧
      (e.Follows (level + 1) → IsTable t r level e.frame) := by
  unfold enterTable
  split
  · rename_i hpresent
    exact .inr (.inr ⟨s, frames, _, rfl, hl, .refl r s, hf, hpresent,
      fun he => .next htable hlevel hi he⟩)
  · rename_i habsent
    rw [Bool.not_eq_true] at habsent
    split
    · cases frames with
      | nil => exact .inr (.inl rfl)
      | cons frame frames =>
          have hframe := hf.unused frame List.mem_cons_self
          exact .inr (.inr ⟨s.link table i frame .newTable, frames, _, rfl,
            hl.link hframe htable, .link hl hframe htable hi habsent, hf.link hl htable, rfl,
            fun he => isTable_link_frame hframe htable hlevel hi habsent he⟩)
    · exact .inl rfl

/-- What goes on at the table of the next level stays in the region, if it does so from there. -/
theorem Good.enterTable (hl : Levels s) (hf : Fresh s frames)
    (htable : IsTable s r (level + 1) table) (hlevel : 1 ≤ level)
    (hi : level + 1 = 4 → r.Owns i) {isSome : Bool}
    {next : Option (State × List ℕ × Entry) → Except (Panic × State) State}
    (hnone : next none = .ok s)
    (hsome : ∀ t frames' e, Levels t → Fresh t frames' → e.flags.present = true →
      (e.Follows (level + 1) → IsTable t r level e.frame) →
        Good r t (next (some (t, frames', e)))) :
    Good r s (Page.enterTable s frames table i isSome >>= next) := by
  rcases enterTable_cases hl hf htable hlevel hi isSome with
    heq | heq | ⟨t, frames', e, heq, hl', hw, hf', hpresent, hnext⟩
  · rw [heq, ok_bind, hnone]
    exact .refl r hl rfl
  · rw [heq, error_bind]
    exact .refl r hl rfl
  · rw [heq, ok_bind]
    exact (hsome t frames' e hl' hf' hpresent hnext).of_within hw

/-- Setting an L1 entry stays in the region. -/
theorem setL1_good (hl : Levels s) (htable : IsTable s r 1 table) (addr : VirtAddr)
    (mapping : Option (ℕ × PageFlags)) : Good r s (setL1 s table addr mapping) := by
  rw [setL1]
  cases mapping with
  | none => exact ⟨hl.setEntry htable, .setEntry hl htable⟩
  | some m =>
      by_cases hm : m.1 % pageSize = 0
      · simp only [mappingEntry, ensure_pos hm, ok_bind]
        exact ⟨hl.setEntry htable, .setEntry hl htable⟩
      · simp only [mappingEntry, ensure_neg hm, error_bind]
        exact .refl r hl rfl

/-- Setting a page through an L2 table stays in the region. -/
theorem setL2_good (hl : Levels s) (hf : Fresh s frames) (htable : IsTable s r 2 table)
    (addr : VirtAddr) (mapping : Option (ℕ × PageFlags)) :
    Good r s (setL2 s frames table addr mapping) := by
  rw [setL2]
  refine .enterTable hl hf htable (le_refl 1) (fun h => absurd h (by decide)) rfl ?_
  intro t frames' e hl' _ hpresent hnext
  refine .ensure hl' fun hhuge => ?_
  exact setL1_good hl' (hnext ⟨hpresent, .inr hhuge⟩) addr mapping

/-- Setting a page through an L3 table stays in the region. -/
theorem setL3_good (hl : Levels s) (hf : Fresh s frames) (htable : IsTable s r 3 table)
    (addr : VirtAddr) (mapping : Option (ℕ × PageFlags)) :
    Good r s (setL3 s frames table addr mapping) := by
  rw [setL3]
  refine .enterTable hl hf htable (by decide) (fun h => absurd h (by decide)) rfl ?_
  intro t frames' e hl' hf' hpresent hnext
  refine .ensure hl' fun hhuge => ?_
  exact setL2_good hl' hf' (hnext ⟨hpresent, .inr hhuge⟩) addr mapping

/-- **Setting a page** stays in the region of the address space, if the L4 entry belongs to
it. -/
theorem setPageInternal_good (hl : Levels s) (hf : Fresh s frames) {space : AddressSpace}
    (hspace : RegionOf s space r) {addr : VirtAddr} (howns : r.Owns addr.p4Index)
    (mapping : Option (ℕ × PageFlags)) :
    Good r s (setPageInternal s frames space addr mapping) := by
  refine .ensure hl fun _ => ?_
  refine .enterTable hl hf hspace.isTable (by decide) (fun _ => howns) rfl ?_
  intro t frames' e hl' hf' hpresent hnext
  exact setL3_good hl' hf' (hnext ⟨hpresent, .inl rfl⟩) addr mapping

end SetPage

/-! ### The operations -/

/-- The L4 entry of a lower address belongs to a user address space. -/
theorem p4Index_lt {addr : VirtAddr} (h : addr.val < 0x0000800000000000) :
    addr.p4Index.val < 256 := by
  simp only [VirtAddr.p4Index, Fin.val_ofNat]
  omega

/-- The L4 entry of an upper address belongs to the kernel. -/
theorem le_p4Index {addr : VirtAddr} (h : 0xffff800000000000 ≤ addr.val) :
    256 ≤ addr.p4Index.val := by
  have hcan := addr.canonical
  simp only [VirtAddr.p4Index, Fin.val_ofNat]
  omega

/-- An address space that is not the kernel's is a user address space. -/
theorem Inv.regionOf_user {s : State} (h : Inv s) {space : AddressSpace} {r : Region}
    (hspace : RegionOf s space r) (hk : space.isKernel = false) : ∃ k, r = .user k := by
  cases hspace with
  | kernel =>
      rw [h.kernel] at hk
      exact Bool.noConfusion hk
  | user hu => exact ⟨_, rfl⟩

/-- The kernel's address space has the kernel's region. -/
theorem Inv.regionOf_kernel {s : State} (h : Inv s) {space : AddressSpace} {r : Region}
    (hspace : RegionOf s space r) (hk : space.isKernel = true) : r = .kernel := by
  cases hspace with
  | kernel => rfl
  | user hu =>
      rw [h.users _ (List.mem_of_getElem? hu)] at hk
      exact Bool.noConfusion hk

/-- Setting a user page stays in the region of the address space. -/
theorem Inv.setPageUser {s : State} (h : Inv s) {frames : List ℕ} (hf : Fresh s frames)
    {space : AddressSpace} {r : Region} (hspace : RegionOf s space r) (addr : VirtAddr)
    (mapping : Option (ℕ × PageFlags)) :
    Good r s (setPageUser s frames space addr mapping) := by
  refine .ensure h.levels fun hk => .ensure h.levels fun hlow => ?_
  obtain ⟨k, rfl⟩ := h.regionOf_user hspace hk
  exact setPageInternal_good h.levels hf hspace (p4Index_lt hlow) mapping

/-- Setting a kernel page stays in the region of the address space. -/
theorem Inv.setPageKernel {s : State} (h : Inv s) {frames : List ℕ} (hf : Fresh s frames)
    {space : AddressSpace} {r : Region} (hspace : RegionOf s space r) (addr : VirtAddr)
    (mapping : Option (ℕ × PageFlags)) :
    Good r s (setPageKernel s frames space addr mapping) := by
  refine .ensure h.levels fun hk => .ensure h.levels fun hupper => ?_
  obtain rfl := h.regionOf_kernel hspace hk
  exact setPageInternal_good h.levels hf hspace (le_p4Index hupper) mapping

/-- The state after `AddressSpace::new` took a frame. -/
def State.addUser (s : State) (frame : ℕ) : State :=
  { s with
    tables := Function.update s.tables frame (newL4Table s)
    users := s.users ++ [⟨frame, false⟩] }

section AddUser

variable {s : State} {frame : ℕ}

/-- The tables that are in use stay as they are. -/
theorem addUser_tables (hframe : ¬ InUse s frame) {table : ℕ} (h : InUse s table) :
    (s.addUser frame).tables table = s.tables table := by
  have hne : table ≠ frame := by
    rintro rfl
    exact hframe h
  exact Function.update_of_ne hne _ _

/-- A new address space adds its L4 table, of which no entry of its own is present. -/
theorem isTable_addUser (hframe : ¬ InUse s frame) {r : Region} {level table : ℕ}
    (h : IsTable (s.addUser frame) r level table) :
    IsTable s r level table ∨ (r = .user s.users.length ∧ level = 4 ∧ table = frame) := by
  induction h with
  | kernel => exact .inl .kernel
  | @user k space hk =>
      change (s.users ++ [⟨frame, false⟩])[k]? = some space at hk
      rcases Nat.lt_trichotomy k s.users.length with hlt | rfl | hgt
      · rw [List.getElem?_append_left hlt] at hk
        exact .inl (.user hk)
      · rw [List.getElem?_concat_length] at hk
        cases hk
        exact .inr ⟨rfl, rfl, rfl⟩
      · rw [List.getElem?_eq_none (by simp; omega)] at hk
        cases hk
  | @next r level table i htable hlevel hi he ih =>
      rcases ih with hold | ⟨rfl, hlev, rfl⟩
      · rw [addUser_tables hframe ⟨_, _, hold⟩] at he ⊢
        exact .inl (.next hold hlevel hi he)
      · have hlow : i.val < 256 := hi hlev
        have hunused : (s.addUser table).tables table i = .unused := by
          simp [State.addUser, newL4Table, hlow]
        rw [hunused] at he
        exact absurd he.1 Bool.false_ne_true

/-- **A new address space** keeps the invariant. -/
theorem Inv.addUser (h : Inv s) (hframe : ¬ InUse s frame) : Inv (s.addUser frame) where
  levels := by
    intro r₁ r₂ level₁ level₂ table h₁ h₂
    rcases isTable_addUser hframe h₁ with hold₁ | ⟨hr₁, hlevel₁, heq₁⟩
    · rcases isTable_addUser hframe h₂ with hold₂ | ⟨-, -, heq₂⟩
      · exact h.levels hold₁ hold₂
      · rw [heq₂] at hold₁
        exact absurd ⟨_, _, hold₁⟩ hframe
    · rcases isTable_addUser hframe h₂ with hold₂ | ⟨hr₂, hlevel₂, -⟩
      · rw [heq₁] at hold₂
        exact absurd ⟨_, _, hold₂⟩ hframe
      · exact ⟨hr₁.trans hr₂.symm, hlevel₁.trans hlevel₂.symm⟩
  kernel := h.kernel
  users := by
    intro space hspace
    rcases List.mem_append.mp hspace with hspace | hspace
    · exact h.users space hspace
    · rw [List.mem_singleton.mp hspace]
  lower := by
    intro i hi
    change ((s.addUser frame).tables s.kernel.pageTable i).flags.present = false
    rw [addUser_tables hframe ⟨_, _, .kernel⟩]
    exact h.lower i hi
  upper := by
    intro i hi
    change ((s.addUser frame).tables s.kernel.pageTable i).flags.present = true
    rw [addUser_tables hframe ⟨_, _, .kernel⟩]
    exact h.upper i hi
  shared := by
    intro space hspace i hi
    change _ = (s.addUser frame).tables s.kernel.pageTable i
    rw [addUser_tables hframe ⟨_, _, .kernel⟩]
    rcases List.mem_append.mp hspace with hspace | hspace
    · obtain ⟨k, hk⟩ := List.getElem?_of_mem hspace
      rw [addUser_tables hframe ⟨_, _, .user hk⟩]
      exact h.shared space hspace i hi
    · rw [List.mem_singleton.mp hspace]
      simp [State.addUser, newL4Table, Nat.not_lt.mpr hi]

end AddUser

/-- **Every step keeps the invariant.** -/
theorem Inv.step {s t : State} {op : Op} (h : Inv s) (hs : Step s op t) : Inv t := by
  obtain ⟨hex, hf, rfl⟩ := hs
  cases op with
  | new frames =>
      cases frames with
      | nil => exact h
      | cons frame frames => exact h.addUser (hf.unused frame List.mem_cons_self)
  | setPageKernel frames space addr mapping =>
      obtain ⟨r, hr⟩ := exists_regionOf hex
      obtain ⟨hl, hw⟩ := h.setPageKernel hf hr addr mapping
      exact h.within hw hl
  | setPageUser frames space addr mapping =>
      obtain ⟨r, hr⟩ := exists_regionOf hex
      obtain ⟨hl, hw⟩ := h.setPageUser hf hr addr mapping
      exact h.within hw hl

/-! ### Looking up a page -/

/-- The L4 entries of an address space lead to its own tables or to the kernel's. -/
theorem Inv.isTable_three {s : State} (h : Inv s) {space : AddressSpace} {r : Region}
    (hspace : RegionOf s space r) {i : Fin 512}
    (hpresent : (s.tables space.pageTable i).flags.present = true) :
    ∃ r', (r' = r ∨ r' = .kernel) ∧ IsTable s r' 3 (s.tables space.pageTable i).frame := by
  rcases Nat.lt_or_ge i.val 256 with hi | hi
  · cases hspace with
    | kernel =>
        rw [h.lower i hi] at hpresent
        exact Bool.noConfusion hpresent
    | user hk => exact ⟨_, .inl rfl, .next (.user hk) (by decide) (fun _ => hi)
        ⟨hpresent, .inl rfl⟩⟩
  · have hkernel : IsTable s .kernel 3 (s.tables s.kernel.pageTable i).frame :=
      .next .kernel (by decide) (fun _ => hi) ⟨h.upper i hi, .inl rfl⟩
    cases hspace with
    | kernel => exact ⟨_, .inl rfl, hkernel⟩
    | user hk =>
        rw [h.shared _ (List.mem_of_getElem? hk) i hi]
        exact ⟨_, .inr rfl, hkernel⟩

/-- Looking up a page of an address space reads its own tables and the kernel's. -/
theorem Inv.getPage_congr {s t : State} (h : Inv s) {space : AddressSpace} {r : Region}
    (hspace : RegionOf s space r)
    (heq : ∀ {r' level table}, r' = r ∨ r' = .kernel → IsTable s r' level table →
      ∀ i, t.tables table i = s.tables table i) (addr : VirtAddr) :
    getPage t space addr = getPage s space addr := by
  unfold getPage
  rw [heq (.inl rfl) hspace.isTable]
  dsimp only
  split
  · rfl
  · rename_i hfour
    rw [Bool.not_eq_false] at hfour
    obtain ⟨r', hr', hthree⟩ := h.isTable_three hspace hfour
    rw [heq hr' hthree]
    split
    · rfl
    · rename_i hpresent
      split
      · rfl
      · rename_i hhuge
        have htwo := IsTable.next hthree (by decide) (fun h => absurd h (by decide))
          ⟨Bool.not_eq_false _ ▸ hpresent, .inr (Bool.not_eq_true _ ▸ hhuge)⟩
        rw [heq hr' htwo]
        split
        · rfl
        · rename_i hpresent'
          split
          · rfl
          · rename_i hhuge'
            have hone := IsTable.next htwo (by decide) (fun h => absurd h (by decide))
              ⟨Bool.not_eq_false _ ▸ hpresent', .inr (Bool.not_eq_true _ ▸ hhuge')⟩
            rw [heq hr' hone]

/-- All address spaces agree on upper addresses. -/
theorem Inv.getPage_upper {s : State} (h : Inv s) {space : AddressSpace}
    (hspace : space ∈ s.users) {addr : VirtAddr} (haddr : addr.Upper) :
    getPage s space addr = getPage s s.kernel addr := by
  unfold getPage
  rw [h.shared space hspace addr.p4Index (le_p4Index haddr)]

/-! ### The start of the kernel -/

/-- What is assumed of the page tables that the bootloader leaves, with the L4 table in the
frame `cr3`. The bootloader is built without its recursive mapping, so no frame is a table of
two levels; and the entries of the upper half that are not empty are present. -/
structure Boot (tables : ℕ → Fin 512 → Entry) (cr3 : ℕ) : Prop where
  notRecursive : Levels (bootState tables cr3)
  present : ∀ i : Fin 512, 256 ≤ i.val → tables cr3 i ≠ .unused →
    (tables cr3 i).flags.present = true

/-- What holds while the kernel starts. -/
structure Booting (s : State) : Prop where
  levels : Levels s
  kernel : s.kernel.isKernel = true
  users : s.users = []
  present : ∀ i : Fin 512, 256 ≤ i.val → s.tables s.kernel.pageTable i ≠ .unused →
    (s.tables s.kernel.pageTable i).flags.present = true

/-- The bootloader leaves such a state. -/
theorem Boot.booting {tables : ℕ → Fin 512 → Entry} {cr3 : ℕ} (h : Boot tables cr3) :
    Booting (bootState tables cr3) :=
  ⟨h.notRecursive, rfl, rfl, h.present⟩

section Start

variable {s : State} {i : Fin 512}

/-- Emptying a lower entry of the kernel's L4 table makes and removes no tables. -/
theorem isTable_clearEntry (hl : Levels s) (hi : i.val < 256) {r : Region} {level frame : ℕ} :
    IsTable (s.setEntry s.kernel.pageTable i .unused) r level frame ↔ IsTable s r level frame := by
  have hkeep : ∀ {r : Region} {level table : ℕ} (i' : Fin 512), IsTable s r (level + 1) table →
      (level + 1 = 4 → r.Owns i') →
      (s.setEntry s.kernel.pageTable i .unused).tables table i' = s.tables table i' := by
    intro r level table i' htable hi'
    rw [setEntry_tables, if_neg]
    rintro ⟨rfl, rfl⟩
    obtain ⟨rfl, hlevel⟩ := hl htable .kernel
    exact absurd (hi' hlevel) (Nat.not_le.mpr hi)
  constructor
  · intro h
    induction h with
    | kernel => exact .kernel
    | user hk => exact .user hk
    | next _ hlevel hi' he ih =>
        rw [hkeep _ ih hi'] at he ⊢
        exact .next ih hlevel hi' he
  · intro h
    induction h with
    | kernel => exact .kernel
    | user hk => exact .user hk
    | @next r level table i' htable hlevel hi' he ih =>
        rw [← hkeep i' htable hi'] at he ⊢
        exact .next ih hlevel hi' he

/-- Emptying a lower entry keeps what holds while the kernel starts. -/
theorem Booting.clearEntry (h : Booting s) (hi : i.val < 256) :
    Booting (s.setEntry s.kernel.pageTable i .unused) where
  levels := by
    intro r₁ r₂ level₁ level₂ frame h₁ h₂
    exact h.levels ((isTable_clearEntry h.levels hi).mp h₁) ((isTable_clearEntry h.levels hi).mp h₂)
  kernel := h.kernel
  users := h.users
  present := by
    intro i' hi'
    change (s.setEntry _ i .unused).tables s.kernel.pageTable i' ≠ _ →
      ((s.setEntry _ i .unused).tables s.kernel.pageTable i').flags.present = true
    rw [setEntry_tables, if_neg]
    · exact h.present i' hi'
    · rintro ⟨-, rfl⟩
      exact absurd hi (Nat.not_lt.mpr hi')

/-- The loop that empties the lower entries. -/
theorem clearEntries_spec {is : List (Fin 512)} (h : Booting s) (his : ∀ i ∈ is, i.val < 256) :
    Booting (clearEntries s is) ∧ (clearEntries s is).kernel = s.kernel ∧
    (∀ {r level frame}, IsTable (clearEntries s is) r level frame → IsTable s r level frame) ∧
    ∀ i, i ∈ is ∨ s.tables s.kernel.pageTable i = .unused →
      (clearEntries s is).tables s.kernel.pageTable i = .unused := by
  induction is generalizing s with
  | nil =>
      refine ⟨h, rfl, id, fun i hi => ?_⟩
      rcases hi with hi | hi
      · cases hi
      · exact hi
  | cons j is ih =>
      have hj := his j List.mem_cons_self
      obtain ⟨hboot, hkernel, htables, hempty⟩ :=
        ih (h.clearEntry hj) fun i hi => his i (List.mem_cons_of_mem _ hi)
      refine ⟨hboot, hkernel, fun ht => (isTable_clearEntry h.levels hj).mp (htables ht), ?_⟩
      intro i hi
      refine hempty i ?_
      change _ ∨ (s.setEntry _ j .unused).tables s.kernel.pageTable i = .unused
      rw [setEntry_tables]
      rcases hi with hi | hi
      · rcases List.mem_cons.mp hi with rfl | hi
        · exact .inr (if_pos ⟨rfl, rfl⟩)
        · exact .inl hi
      · right
        split
        · rfl
        · exact hi

/-- Making an L3 table for an empty upper entry keeps what holds while the kernel starts. -/
theorem Booting.link (h : Booting s) {frame : ℕ} (hframe : ¬ InUse s frame) :
    Booting (s.link s.kernel.pageTable i frame .kernelTable) where
  levels := Levels.link h.levels hframe .kernel
  kernel := h.kernel
  users := h.users
  present := by
    intro i' hi'
    change (s.link _ i frame _).tables s.kernel.pageTable i' ≠ _ →
      ((s.link _ i frame _).tables s.kernel.pageTable i').flags.present = true
    rw [link_tables hframe ⟨_, _, .kernel⟩]
    split
    · exact fun _ => rfl
    · exact h.present i' hi'

/-- The loop that fills the upper entries: it makes tables only of the frames it takes, it
leaves the lower entries as they are, and all entries it goes through are present in the
end. -/
theorem fillEntries_spec {is : List (Fin 512)} {frames : List ℕ} {t : State} (h : Booting s)
    (hf : Fresh s frames) (his : ∀ i ∈ is, 256 ≤ i.val) (ht : fillEntries s frames is = .ok t) :
    Booting t ∧ t.kernel = s.kernel ∧
    (∀ {r level frame}, IsTable t r level frame → IsTable s r level frame ∨ frame ∈ frames) ∧
    (∀ i : Fin 512, i.val < 256 →
      t.tables s.kernel.pageTable i = s.tables s.kernel.pageTable i) ∧
    ∀ i, i ∈ is ∨ (s.tables s.kernel.pageTable i).flags.present = true →
      (t.tables s.kernel.pageTable i).flags.present = true := by
  induction is generalizing s frames with
  | nil =>
      cases ht
      refine ⟨h, rfl, .inl, fun _ _ => rfl, fun i hi => ?_⟩
      rcases hi with hi | hi
      · cases hi
      · exact hi
  | cons j is ih =>
      have hj := his j List.mem_cons_self
      have his' : ∀ i ∈ is, 256 ≤ i.val := fun i hi => his i (List.mem_cons_of_mem _ hi)
      unfold fillEntries at ht
      split at ht
      · rename_i hempty
        cases frames with
        | nil => cases ht
        | cons frame frames =>
            have hframe := hf.unused frame List.mem_cons_self
            have hroot : InUse s s.kernel.pageTable := ⟨_, _, .kernel⟩
            obtain ⟨hboot, hkernel, htables, hlower, hfull⟩ :=
              ih (h.link hframe) (hf.link h.levels .kernel) his' ht
            refine ⟨hboot, hkernel, ?_, ?_, ?_⟩
            · intro r level frame' hframe'
              rcases htables hframe' with hold | hmem
              · rcases isTable_link h.levels hframe .kernel hold with hold | ⟨-, -, rfl⟩
                · exact .inl hold
                · exact .inr List.mem_cons_self
              · exact .inr (List.mem_cons_of_mem _ hmem)
            · intro i hi
              refine (hlower i hi).trans ?_
              change (s.link _ j frame _).tables s.kernel.pageTable i = _
              rw [link_tables hframe hroot, if_neg]
              rintro ⟨-, rfl⟩
              exact absurd hi (Nat.not_lt.mpr hj)
            · intro i hi
              refine hfull i ?_
              change _ ∨ ((s.link _ j frame _).tables s.kernel.pageTable i).flags.present = true
              rw [link_tables hframe hroot]
              rcases hi with hi | hi
              · rcases List.mem_cons.mp hi with rfl | hi
                · right
                  rw [if_pos ⟨rfl, rfl⟩]
                  rfl
                · exact .inl hi
              · right
                split
                · rfl
                · exact hi
      · rename_i hused
        obtain ⟨hboot, hkernel, htables, hlower, hfull⟩ := ih h hf his' ht
        refine ⟨hboot, hkernel, htables, hlower, fun i hi => hfull i ?_⟩
        rcases hi with hi | hi
        · rcases List.mem_cons.mp hi with rfl | hi
          · exact .inr (h.present i hj hused)
          · exact .inl hi
        · exact .inr hi

/-- The loop that fills the upper entries ends, if there are enough frames. -/
theorem fillEntries_isOk {is : List (Fin 512)} {frames : List ℕ}
    (hlen : is.length ≤ frames.length) : ∃ t, fillEntries s frames is = .ok t := by
  induction is generalizing s frames with
  | nil => exact ⟨s, rfl⟩
  | cons j is ih =>
      rw [List.length_cons] at hlen
      unfold fillEntries
      split
      · cases frames with
        | nil => simp at hlen
        | cons frame frames => exact ih (by simpa using hlen)
      · exact ih (by omega)

end Start

/-- **When the kernel has started, the invariant holds**, and its tables are those of the
bootloader and the frames that were taken. -/
theorem inv_initKernelAddrspace {tables : ℕ → Fin 512 → Entry} {cr3 fnAddr : ℕ}
    {frames : List ℕ} {s : State} (hboot : Boot tables cr3)
    (hf : Fresh (bootState tables cr3) frames)
    (hs : initKernelAddrspace tables cr3 fnAddr frames = .ok s) :
    Inv s ∧ ∀ frame, InUse s frame → InUse (bootState tables cr3) frame ∨ frame ∈ frames := by
  obtain ⟨-, hs⟩ := ensure_bind_eq_ok.mp hs
  have hlow : ∀ i ∈ lowerIndices, i.val < 256 := by
    intro i hi
    simpa [lowerIndices] using hi
  have hup : ∀ i ∈ upperIndices, 256 ≤ i.val := by
    intro i hi
    simpa [upperIndices] using hi
  obtain ⟨hboot', hkernel, htables, hempty⟩ := clearEntries_spec hboot.booting hlow
  have hf' : Fresh (clearEntries (bootState tables cr3) lowerIndices) frames :=
    ⟨hf.nodup, fun frame hmem ⟨r, level, h⟩ => hf.unused frame hmem ⟨r, level, htables h⟩⟩
  obtain ⟨hboot'', hkernel', htables', hlower, hfull⟩ := fillEntries_spec hboot' hf' hup hs
  rw [hkernel] at hkernel' hlower hfull
  refine ⟨⟨hboot''.levels, hboot''.kernel, ?_, ?_, ?_, ?_⟩, ?_⟩
  · rw [hboot''.users]
    exact fun space hspace => nomatch hspace
  · intro i hi
    rw [hkernel', hlower i hi, hempty i (.inl (by simpa [lowerIndices] using hi))]
    rfl
  · intro i hi
    rw [hkernel']
    exact hfull i (.inl (by simpa [upperIndices] using hi))
  · rw [hboot''.users]
    exact fun space hspace => nomatch hspace
  · rintro frame ⟨r, level, h⟩
    rcases htables' h with h | h
    · exact .inl ⟨r, level, htables h⟩
    · exact .inr h

/-! ### Every run -/

/-- The operation sets a page. -/
def Op.SetsPage : Op → Prop
  | .new _ => False
  | .setPageKernel _ _ _ _ => True
  | .setPageUser _ _ _ _ => True

/-- What holds of the address spaces in every state that a run reaches. -/
structure Coherent (s : State) : Prop where
  /-- All address spaces agree on the upper half. -/
  upper : ∀ space ∈ s.users, ∀ addr : VirtAddr, addr.Upper →
    getPage s space addr = getPage s s.kernel addr
  /-- Setting a page changes no upper entry of an L4 table. -/
  l4Fixed : ∀ {op t}, Step s op t → op.SetsPage → ∀ space ∈ s.kernel :: s.users,
    ∀ i : Fin 512, 256 ≤ i.val → t.tables space.pageTable i = s.tables space.pageTable i
  /-- Setting a user page changes no page of another address space. -/
  isolated : ∀ {frames space addr mapping t},
    Step s (.setPageUser frames space addr mapping) t →
    ∀ other ∈ s.kernel :: s.users, other ≠ space → ∀ addr' : VirtAddr,
      getPage t other addr' = getPage s other addr'

/-- Setting a page stays in a region. -/
theorem Inv.within_of_setsPage {s t : State} (h : Inv s) {op : Op} (hs : Step s op t)
    (hop : op.SetsPage) : ∃ r, Within r s t := by
  obtain ⟨hex, hf, rfl⟩ := hs
  cases op with
  | new frames => exact hop.elim
  | setPageKernel frames space addr mapping =>
      obtain ⟨r, hr⟩ := exists_regionOf hex
      exact ⟨r, (h.setPageKernel hf hr addr mapping).2⟩
  | setPageUser frames space addr mapping =>
      obtain ⟨r, hr⟩ := exists_regionOf hex
      exact ⟨r, (h.setPageUser hf hr addr mapping).2⟩

/-- Setting a user page changes no page of another address space: on the kernel's address
space it panics, and a user's region is read by no other address space. -/
theorem Inv.isolated {s t : State} (h : Inv s) {frames : List ℕ} {space : AddressSpace}
    {addr : VirtAddr} {mapping : Option (ℕ × PageFlags)}
    (hs : Step s (.setPageUser frames space addr mapping) t) {other : AddressSpace}
    (hother : other ∈ s.kernel :: s.users) (hne : other ≠ space) (addr' : VirtAddr) :
    getPage t other addr' = getPage s other addr' := by
  obtain ⟨hex, hf, rfl⟩ := hs
  obtain ⟨r, hr⟩ := exists_regionOf hex
  obtain ⟨r', hr'⟩ := exists_regionOf hother
  cases hr with
  | kernel =>
      have hpanic : ¬ s.kernel.isKernel = false := by
        rw [h.kernel]
        exact Bool.noConfusion
      simp only [perform, Page.setPageUser, ensure_neg hpanic, error_bind, finalState]
  | @user k _ hk =>
      have hw := (h.setPageUser hf (.user hk) addr mapping).2
      refine h.getPage_congr hr' ?_ addr'
      intro r'' level table hr'' htable i
      by_contra hchange
      rcases hw.writes hchange with hnot | ⟨level', htable', -⟩
      · exact hnot ⟨_, _, htable⟩
      · obtain ⟨rfl, -⟩ := h.levels htable' htable
        rcases hr'' with rfl | hr''
        · cases hr' with
          | user hk' =>
              rw [hk] at hk'
              cases hk'
              exact hne rfl
        · cases hr''

/-- The invariant gives the properties. -/
theorem Inv.coherent {s : State} (h : Inv s) : Coherent s where
  upper := fun _ hspace _ haddr => h.getPage_upper hspace haddr
  l4Fixed := by
    intro op t hs hop space hspace i hi
    obtain ⟨r, hw⟩ := h.within_of_setsPage hs hop
    exact h.upper_eq hw hspace hi
  isolated := fun hs _ hother hne addr' => h.isolated hs hother hne addr'

/-- **All address spaces agree on the kernel's half**, in every run after the kernel has
started: setting a page changes no upper entry of an L4 table, and setting a user page
changes no other address space. -/
theorem kernel_half_coherent {tables : ℕ → Fin 512 → Entry} {cr3 fnAddr : ℕ} {frames : List ℕ}
    {s₀ s : State} {ops : List Op} (hboot : Boot tables cr3)
    (hf : Fresh (bootState tables cr3) frames)
    (hinit : initKernelAddrspace tables cr3 fnAddr frames = .ok s₀) (hruns : Runs Step s₀ ops s) :
    Coherent s :=
  (hruns.invariant (inv_initKernelAddrspace hboot hf hinit).1 fun _ _ _ h hs => h.step hs).coherent

/-! ### A run -/

/-- Emptying entries of the L4 table leaves the other entries as they are. -/
theorem clearEntries_tables {s : State} {is : List (Fin 512)} {table : ℕ} {i : Fin 512}
    (h : table = s.kernel.pageTable → i ∉ is) :
    (clearEntries s is).tables table i = s.tables table i := by
  induction is generalizing s with
  | nil => rfl
  | cons j is ih =>
      refine (ih (s := s.setEntry s.kernel.pageTable j .unused) fun htable hi =>
        h htable (List.mem_cons_of_mem _ hi)).trans ?_
      rw [setEntry_tables, if_neg]
      rintro ⟨htable, rfl⟩
      exact h htable List.mem_cons_self

/-- Emptying entries of the L4 table changes no address space. -/
theorem kernel_clearEntries (s : State) (is : List (Fin 512)) :
    (clearEntries s is).kernel = s.kernel := by
  induction is generalizing s with
  | nil => rfl
  | cons j is ih => exact ih _

/-- Making L3 tables leaves the entries as they are that are used, or are no entries of the L4
table. -/
theorem fillEntries_tables {s t : State} {frames : List ℕ} {is : List (Fin 512)} {table : ℕ}
    {i : Fin 512} (hframes : table ∉ frames)
    (h : table = s.kernel.pageTable → s.tables table i ≠ .unused)
    (ht : fillEntries s frames is = .ok t) : t.tables table i = s.tables table i := by
  induction is generalizing s frames with
  | nil =>
      cases ht
      rfl
  | cons j is ih =>
      unfold fillEntries at ht
      split at ht
      · rename_i hempty
        cases frames with
        | nil => cases ht
        | cons frame frames =>
            rw [List.mem_cons, not_or] at hframes
            have heq : (s.link s.kernel.pageTable j frame .kernelTable).tables table i =
                s.tables table i := by
              rw [State.link, setEntry_tables, clear_tables, if_neg hframes.1, if_neg]
              rintro ⟨htable, rfl⟩
              exact h htable (htable ▸ hempty)
            refine (ih hframes.2 ?_ ht).trans heq
            intro htable
            rw [← State.link, heq]
            exact h htable
      · exact ih hframes h ht

/-- Making L3 tables changes no address space. -/
theorem kernel_fillEntries {s t : State} {frames : List ℕ} {is : List (Fin 512)}
    (ht : fillEntries s frames is = .ok t) : t.kernel = s.kernel := by
  induction is generalizing s frames with
  | nil =>
      cases ht
      rfl
  | cons j is ih =>
      unfold fillEntries at ht
      split at ht
      · cases frames with
        | nil => cases ht
        | cons frame frames =>
            exact ih (s := s.link s.kernel.pageTable j frame .kernelTable) ht
      · exact ih ht

/-- The kernel's address space is that of the bootloader. -/
theorem kernel_initKernelAddrspace {tables : ℕ → Fin 512 → Entry} {cr3 fnAddr : ℕ}
    {frames : List ℕ} {s : State} (hs : initKernelAddrspace tables cr3 fnAddr frames = .ok s) :
    s.kernel = ⟨cr3, true⟩ := by
  obtain ⟨-, hs⟩ := ensure_bind_eq_ok.mp hs
  rw [kernel_fillEntries hs, kernel_clearEntries]
  rfl

/-- The start of the kernel leaves the entries as they are that are used upper entries, or are
no entries of the L4 table. -/
theorem initKernelAddrspace_tables {tables : ℕ → Fin 512 → Entry} {cr3 fnAddr : ℕ}
    {frames : List ℕ} {s : State} (hs : initKernelAddrspace tables cr3 fnAddr frames = .ok s)
    {table : ℕ} {i : Fin 512} (hframes : table ∉ frames)
    (h : table = cr3 → 256 ≤ i.val ∧ tables table i ≠ .unused) :
    s.tables table i = tables table i := by
  obtain ⟨-, hs⟩ := ensure_bind_eq_ok.mp hs
  have hclear : (clearEntries (bootState tables cr3) lowerIndices).tables table i =
      tables table i := by
    refine clearEntries_tables fun htable hi => ?_
    have hlow : i.val < 256 := by simpa [lowerIndices] using hi
    exact absurd hlow (Nat.not_lt.mpr (h htable).1)
  refine (fillEntries_tables hframes ?_ hs).trans hclear
  intro htable
  rw [hclear]
  rw [kernel_clearEntries] at htable
  exact (h htable).2

/-- An entry that is present leads to its table. -/
theorem enterTable_of_present {s : State} {table : ℕ} {i : Fin 512} (frames : List ℕ)
    (isSome : Bool) (h : (s.tables table i).flags.present = true) :
    enterTable s frames table i isSome = .ok (some (s, frames, s.tables table i)) := by
  unfold enterTable
  rw [if_pos h]

/-- For an entry that is not present, a table is made. -/
theorem enterTable_of_absent {s : State} {table : ℕ} {i : Fin 512} (frame : ℕ)
    (frames : List ℕ) (h : (s.tables table i).flags.present = false) :
    enterTable s (frame :: frames) table i true =
      .ok (some (s.link table i frame .newTable, frames, ⟨frame, .newTable⟩)) := by
  simp only [enterTable, h, Bool.false_eq_true, if_false, if_true]
  rfl

/-- Memory in which the bootloader has mapped its own code, below the first entry of the L4
table, and a page of the kernel, below the last entry. -/
def bootTables (table : ℕ) (i : Fin 512) : Entry :=
  if table = 0 ∧ i = 0 then ⟨1004, .kernelTable⟩
  else if table = 0 ∧ i = 511 then ⟨1001, .kernelTable⟩
  else if table = 1001 ∧ i = 511 then ⟨1002, .kernelTable⟩
  else if table = 1002 ∧ i = 511 then ⟨1003, .kernelTable⟩
  else if table = 1003 ∧ i = 510 then ⟨1005, .kernelTable⟩
  else .unused

/-- The entries that are present in this memory. -/
theorem bootTables_cases {table : ℕ} {i : Fin 512}
    (h : (bootTables table i).flags.present = true) :
    table = 0 ∧ i = 0 ∨ table = 0 ∧ (bootTables table i).frame = 1001 ∨
      table = 1001 ∧ (bootTables table i).frame = 1002 ∨
      table = 1002 ∧ (bootTables table i).frame = 1003 ∨ table = 1003 := by
  unfold bootTables at h ⊢
  split_ifs at h ⊢ <;> simp_all [Entry.unused, PageTableFlags.empty]

/-- The tables of the kernel in this memory. -/
theorem isTable_bootTables {r : Region} {level frame : ℕ}
    (h : IsTable (bootState bootTables 0) r level frame) :
    r = .kernel ∧ (level = 4 ∧ frame = 0 ∨ level = 3 ∧ frame = 1001 ∨
      level = 2 ∧ frame = 1002 ∨ level = 1 ∧ frame = 1003) := by
  induction h with
  | kernel => exact ⟨rfl, .inl ⟨rfl, rfl⟩⟩
  | user hk => cases hk
  | @next r level table i _ hlevel hi he ih =>
      obtain ⟨rfl, ih⟩ := ih
      refine ⟨rfl, ?_⟩
      change level = 4 ∧ (bootTables table i).frame = 0 ∨
        level = 3 ∧ (bootTables table i).frame = 1001 ∨
        level = 2 ∧ (bootTables table i).frame = 1002 ∨
        level = 1 ∧ (bootTables table i).frame = 1003
      rcases bootTables_cases he.1 with ⟨rfl, rfl⟩ | hcase | hcase | hcase | hcase
      · -- The first entry of the L4 table is not the kernel's.
        have hlow : Region.kernel.Owns 0 := hi (by omega)
        exact absurd hlow (Nat.not_le.mpr (by decide))
      · omega
      · omega
      · omega
      · omega

/-- The bootloader can leave this memory. -/
theorem boot_bootTables : Boot bootTables 0 where
  notRecursive := by
    intro r r' level level' frame h h'
    obtain ⟨rfl, h⟩ := isTable_bootTables h
    obtain ⟨rfl, h'⟩ := isTable_bootTables h'
    exact ⟨rfl, by omega⟩
  present := by
    intro i hi hne
    unfold bootTables at hne ⊢
    split_ifs at hne ⊢ <;> simp_all [PageTableFlags.kernelTable]

/-- The frames after the L4 table are not in use then. -/
theorem fresh_bootTables : Fresh (bootState bootTables 0) (List.range' 1 512) where
  nodup := List.nodup_range'
  unused := by
    rintro frame hmem ⟨r, level, h⟩
    have hframe := (isTable_bootTables h).2
    rw [List.mem_range'_1] at hmem
    omega

/-- The kernel starts on this memory. -/
theorem exists_initKernelAddrspace_bootTables : ∃ s,
    initKernelAddrspace bootTables 0 0xffff800000000000 (List.range' 1 512) = .ok s := by
  have hlen : upperIndices.length ≤ (List.range' 1 512).length := by
    rw [List.length_range']
    exact (List.length_filter_le _ _).trans (by rw [List.length_finRange])
  obtain ⟨s, hs⟩ := fillEntries_isOk (s := clearEntries (bootState bootTables 0) lowerIndices) hlen
  exact ⟨s, ensure_bind_eq_ok.mpr ⟨le_refl _, hs⟩⟩

/-- A page of the lower half. -/
def userPage : VirtAddr := ⟨0x1000, .inl (by decide)⟩

/-- The last page of the upper half. -/
def kernelPage : VirtAddr := ⟨0xfffffffffffff000, .inr (by decide)⟩

/-- What is made for a page of the first user address space, whose L4 table is empty below. -/
def State.mapUserPage (s : State) : State :=
  (((s.link 600 0 603 .newTable).link 603 0 604 .newTable).link 604 0 605 .newTable).setEntry
    605 1 ⟨7, toX8664Flags ⟨true, true, false⟩⟩

/-- Mapping a user page in an empty lower half makes three tables. -/
theorem setPageUser_userPage {s : State} (h : (s.tables 600 0).flags.present = false) :
    setPageUser s [603, 604, 605] ⟨600, false⟩ userPage (some (28672, ⟨true, true, false⟩)) =
      .ok s.mapUserPage := by
  have hempty : ∀ {t : State} {table frame : ℕ} {i j : Fin 512}, frame ≠ table →
      ((t.link table i frame .newTable).tables frame j).flags.present = false := by
    intro t table frame i j hne
    rw [State.link, setEntry_tables, if_neg fun h => hne h.1, clear_tables, if_pos rfl]
    rfl
  rw [setPageUser, ensure_pos rfl, ok_bind, ensure_pos (by decide), ok_bind, setPageInternal,
    ensure_pos (by decide), ok_bind]
  have h₄ : (s.tables (AddressSpace.mk 600 false).pageTable userPage.p4Index).flags.present =
      false := h
  rw [Option.isSome_some, enterTable_of_absent 603 [604, 605] h₄, ok_bind]
  change setL3 (s.link 600 0 603 .newTable) [604, 605] 603 userPage _ = _
  rw [setL3, Option.isSome_some, enterTable_of_absent 604 [605] (hempty (by decide)), ok_bind]
  change (ensure (false = false) _ >>= fun _ =>
    setL2 ((s.link 600 0 603 .newTable).link 603 0 604 .newTable) [605] 604 userPage _) = _
  rw [ensure_pos rfl, ok_bind]
  rw [setL2, Option.isSome_some, enterTable_of_absent 605 [] (hempty (by decide)), ok_bind]
  rfl

/-- Mapping a page next to that of the bootloader makes no table. -/
theorem setPageKernel_kernelPage {s : State}
    (h : ∀ table ∈ [0, 1001, 1002], s.tables table 511 = bootTables table 511) :
    setPageKernel s [] ⟨0, true⟩ kernelPage (some (32768, ⟨false, true, false⟩)) =
      .ok (s.setEntry 1003 511 ⟨8, toX8664Flags ⟨false, true, false⟩⟩) := by
  have henter : ∀ table ∈ [0, 1001, 1002], (bootTables table 511).flags.present = true →
      enterTable s [] table 511 true = .ok (some (s, [], bootTables table 511)) := by
    intro table htable hpresent
    rw [enterTable_of_present _ _ (by rw [h table htable, hpresent]), h table htable]
  have h₄ : enterTable s [] (AddressSpace.mk 0 true).pageTable kernelPage.p4Index true =
      .ok (some (s, [], ⟨1001, .kernelTable⟩)) := henter 0 (by decide) rfl
  have h₃ : enterTable s [] 1001 kernelPage.p3Index true =
      .ok (some (s, [], ⟨1002, .kernelTable⟩)) := henter 1001 (by decide) rfl
  have h₂ : enterTable s [] 1002 kernelPage.p2Index true =
      .ok (some (s, [], ⟨1003, .kernelTable⟩)) := henter 1002 (by decide) rfl
  rw [setPageKernel, ensure_pos rfl, ok_bind, ensure_pos (by decide), ok_bind, setPageInternal,
    ensure_pos (by decide), ok_bind, Option.isSome_some, h₄, ok_bind]
  change setL3 s [] 1001 kernelPage _ = _
  rw [setL3, Option.isSome_some, h₃, ok_bind]
  change (ensure (false = false) _ >>= fun _ => setL2 s [] 1002 kernelPage _) = _
  rw [ensure_pos rfl, ok_bind, setL2, Option.isSome_some, h₂, ok_bind]
  rfl

/-- Looking up a page that lies in no huge page. -/
theorem getPage_of_entries {s : State} (space : AddressSpace) (addr : VirtAddr)
    {e₄ e₃ e₂ e₁ : Entry} (h₄ : s.tables space.pageTable addr.p4Index = e₄)
    (h₃ : s.tables e₄.frame addr.p3Index = e₃) (h₂ : s.tables e₃.frame addr.p2Index = e₂)
    (h₁ : s.tables e₂.frame addr.p1Index = e₁) (hpresent₄ : e₄.flags.present = true)
    (hpresent₃ : e₃.flags.present = true) (hhuge₃ : e₃.flags.hugePage = false)
    (hpresent₂ : e₂.flags.present = true) (hhuge₂ : e₂.flags.hugePage = false)
    (hpresent₁ : e₁.flags.present = true) :
    getPage s space addr =
      some (e₁.frame * pageSize + addr.val % 2 ^ 12, toGenericFlags e₁.flags) := by
  simp [getPage, h₄, h₃, h₂, h₁, hpresent₄, hpresent₃, hhuge₃, hpresent₂, hhuge₂, hpresent₁]

/-- The page that is mapped in the kernel's half. -/
theorem getPage_kernelPage {s : State}
    (h : ∀ table ∈ [0, 1001, 1002], s.tables table 511 = bootTables table 511) :
    getPage (s.setEntry 1003 511 ⟨8, toX8664Flags ⟨false, true, false⟩⟩) ⟨0, true⟩ kernelPage =
      some (32768, ⟨false, true, false⟩) := by
  have hread : ∀ table ∈ [0, 1001, 1002],
      (s.setEntry 1003 511 ⟨8, toX8664Flags ⟨false, true, false⟩⟩).tables table 511 =
        bootTables table 511 := by
    intro table htable
    rw [setEntry_tables, if_neg, h table htable]
    rintro ⟨rfl, -⟩
    exact absurd htable (by decide)
  have hlast : (s.setEntry 1003 511 ⟨8, toX8664Flags ⟨false, true, false⟩⟩).tables 1003 511 =
      ⟨8, toX8664Flags ⟨false, true, false⟩⟩ := by
    rw [setEntry_tables, if_pos ⟨rfl, rfl⟩]
  have h := getPage_of_entries ⟨0, true⟩ kernelPage (hread 0 (by decide))
    (hread 1001 (by decide)) (hread 1002 (by decide)) hlast rfl rfl rfl rfl rfl rfl
  exact h

/-- The page that is mapped in the user address space. -/
theorem getPage_userPage (s : State) (e : Entry) :
    getPage (s.mapUserPage.setEntry 1003 511 e) ⟨600, false⟩ userPage =
      some (28672, ⟨true, true, false⟩) := by
  have h₄ : (s.mapUserPage.setEntry 1003 511 e).tables 600 0 = ⟨603, .newTable⟩ := by
    simp [State.mapUserPage, State.link, setEntry_tables, clear_tables]
  have h₃ : (s.mapUserPage.setEntry 1003 511 e).tables 603 0 = ⟨604, .newTable⟩ := by
    simp [State.mapUserPage, State.link, setEntry_tables, clear_tables]
  have h₂ : (s.mapUserPage.setEntry 1003 511 e).tables 604 0 = ⟨605, .newTable⟩ := by
    simp [State.mapUserPage, State.link, setEntry_tables]
  have h₁ : (s.mapUserPage.setEntry 1003 511 e).tables 605 1 =
      ⟨7, toX8664Flags ⟨true, true, false⟩⟩ := by
    simp [State.mapUserPage, setEntry_tables]
  exact getPage_of_entries ⟨600, false⟩ userPage h₄ h₃ h₂ h₁ rfl rfl rfl rfl rfl rfl

/-- Frames between those for the kernel and the tables of the bootloader are not in use after the
start. -/
theorem not_inUse_bootTables {s₀ : State}
    (hs₀ : initKernelAddrspace bootTables 0 0xffff800000000000 (List.range' 1 512) = .ok s₀)
    {frame : ℕ} (hlow : 512 < frame) (hhigh : frame < 1001) : ¬ InUse s₀ frame := by
  intro hframe
  obtain ⟨-, huse⟩ := inv_initKernelAddrspace boot_bootTables fresh_bootTables hs₀
  rcases huse frame hframe with ⟨r, level, h⟩ | h
  · have hboot := (isTable_bootTables h).2
    omega
  · rw [List.mem_range'_1] at h
    omega

/-- The entries on the way to the page next to that of the bootloader are as it left them, after
the start and after a page was mapped in a user address space. -/
theorem tables_mapUserPage {s₀ : State}
    (hs₀ : initKernelAddrspace bootTables 0 0xffff800000000000 (List.range' 1 512) = .ok s₀) :
    ∀ table ∈ [0, 1001, 1002],
      (s₀.addUser 600).mapUserPage.tables table 511 = bootTables table 511 := by
  intro table htable
  have hstart : s₀.tables table 511 = bootTables table 511 := by
    simp only [List.mem_cons, List.not_mem_nil, or_false] at htable
    refine initKernelAddrspace_tables hs₀ ?_ ?_
    · rw [List.mem_range'_1]
      omega
    · rintro rfl
      exact ⟨by decide, by decide⟩
  rw [← hstart]
  simp only [List.mem_cons, List.not_mem_nil, or_false] at htable
  rcases htable with rfl | rfl | rfl <;>
    simp [State.mapUserPage, State.link, setEntry_tables, clear_tables, State.addUser]

/-- After the start, a user address space is made, a page is mapped in it, and a page next to
that of the bootloader is mapped in the kernel's half. The user address space sees both, the
kernel sees its own. -/
theorem kernel_half_coherent_bootTables :
    ∃ s₀ s : State,
      initKernelAddrspace bootTables 0 0xffff800000000000 (List.range' 1 512) = .ok s₀ ∧
      Runs Step s₀
        [.new [600],
         .setPageUser [603, 604, 605] ⟨600, false⟩ userPage (some (28672, ⟨true, true, false⟩)),
         .setPageKernel [] s₀.kernel kernelPage (some (32768, ⟨false, true, false⟩))] s ∧
      getPage s ⟨600, false⟩ userPage = some (28672, ⟨true, true, false⟩) ∧
      getPage s ⟨600, false⟩ kernelPage = some (32768, ⟨false, true, false⟩) ∧
      Coherent s := by
  obtain ⟨s₀, hs₀⟩ := exists_initKernelAddrspace_bootTables
  have hnew : Step s₀ (.new [600]) (s₀.addUser 600) := by
    refine ⟨trivial, ⟨List.nodup_singleton _, ?_⟩, rfl⟩
    intro frame hmem
    obtain rfl := List.mem_singleton.mp hmem
    exact not_inUse_bootTables hs₀ (by decide) (by decide)
  have hmap := setPageUser_userPage (s := s₀.addUser 600) rfl
  have huser : Step (s₀.addUser 600) (.setPageUser [603, 604, 605] ⟨600, false⟩ userPage
      (some (28672, ⟨true, true, false⟩))) (s₀.addUser 600).mapUserPage := by
    refine ⟨List.mem_cons_of_mem _ (List.mem_append_right _ List.mem_cons_self), ⟨by decide, ?_⟩,
      (congrArg finalState hmap).symm⟩
    rintro frame hmem ⟨r, level, h⟩
    change frame ∈ [603, 604, 605] at hmem
    have hframe : 512 < frame ∧ frame < 1001 ∧ frame ≠ 600 := by
      simp only [List.mem_cons, List.not_mem_nil, or_false] at hmem
      omega
    have hnot : ¬ InUse s₀ 600 := not_inUse_bootTables hs₀ (by decide) (by decide)
    rcases isTable_addUser hnot h with h | ⟨-, -, rfl⟩
    · exact not_inUse_bootTables hs₀ hframe.1 hframe.2.1 ⟨r, level, h⟩
    · exact hframe.2.2 rfl
  have hroot : s₀.kernel = ⟨0, true⟩ := kernel_initKernelAddrspace hs₀
  have hentries := tables_mapUserPage hs₀
  have hkernel : Step (s₀.addUser 600).mapUserPage (.setPageKernel [] s₀.kernel kernelPage
      (some (32768, ⟨false, true, false⟩))) _ :=
    ⟨List.mem_cons_self, ⟨List.nodup_nil, fun _ hmem => absurd hmem List.not_mem_nil⟩, rfl⟩
  rw [hroot, perform, setPageKernel_kernelPage hentries, finalState] at hkernel
  have hruns := Runs.cons hnew (Runs.cons huser (Runs.cons hkernel .refl))
  have hcoherent := kernel_half_coherent boot_bootTables fresh_bootTables hs₀ hruns
  refine ⟨s₀, _, hs₀, hroot ▸ hruns, getPage_userPage _ _, ?_, hcoherent⟩
  refine (hcoherent.upper _ (List.mem_append_right _ List.mem_cons_self) _ ?_).trans ?_
  · decide
  · exact (congrArg (getPage _ · kernelPage) hroot).trans (getPage_kernelPage hentries)

end HydroxKernel.Page
