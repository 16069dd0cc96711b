import HydroxKernel.Lib.Runs
import HydroxKernel.Lib.Tables
import HydroxKernel.Arch.Page

/-!
# The Map of an Address Space

To its users an address space is a map from pages to frames and flags: `get_page` reads it and
`set_page_internal` writes it. Pages share tables, and writing a page makes the tables that
are missing, so that the map is that of a tree: no table may be reached in two ways.

## Main results

* `getPage_eq`: `get_page` reads the entry at which the walk for the address stops.
* `setPageInternal_outcome`: what setting a page does, from any address space whose tables
  form a tree.
* `page_map_law`: in every run, setting a page to a frame makes it map to the frame with the
  flags, removing a page makes it map to nothing and allocates no frame, and no other page
  changes.
-/

namespace HydroxKernel.Page

open Tables

/-! ### Walks -/

/-- The table that an entry of a table of height `k` points to. The L1 tables have height
zero. -/
def Entry.child (k : ℕ) (e : Entry) : Option ℕ :=
  if 0 < k ∧ e.flags.present = true ∧ (k = 3 ∨ e.flags.hugePage = false) then some e.frame
  else none

/-- The indices of an address below its L4 index. -/
def VirtAddr.lowerIndices (addr : VirtAddr) : List (Fin 512) :=
  [addr.p3Index, addr.p2Index, addr.p1Index]

/-- The entry at which the walk for an address stops, with its height. -/
def lookup (s : State) (space : AddressSpace) (addr : VirtAddr) : ℕ × Entry :=
  stop Entry.child s.tables space.pageTable addr.p4Index addr.lowerIndices

/-- What an entry at which a walk stops says about an address. -/
def Entry.mapped (k : ℕ) (e : Entry) (addr : VirtAddr) : Option (ℕ × PageFlags) :=
  if e.flags.present = false then none
  else some (e.frame * pageSize + addr.val % 2 ^ (12 + 9 * k), toGenericFlags e.flags)

/-- The walk along a path from the L4 table leads to a table. -/
def TableAt (s : State) (space : AddressSpace) (path : List (Fin 512)) (table : ℕ) : Prop :=
  Reaches Entry.child s.tables 3 space.pageTable path table

/-- The tables of the address space form a tree. -/
def FormsTree (s : State) (space : AddressSpace) : Prop :=
  IsTree Entry.child s.tables 3 space.pageTable

/-- The walk for the address meets no huge page. -/
def NoHugePage (s : State) (space : AddressSpace) (addr : VirtAddr) : Prop :=
  (lookup s space addr).2.flags.present = true → (lookup s space addr).1 = 0

/-- What is assumed of the frames that `alloc_one` returns: they are outside the tree, and none
is returned twice. -/
structure OutsideTree (s : State) (space : AddressSpace) (frames : List ℕ) : Prop where
  nodup : frames.Nodup
  unreached : ∀ frame ∈ frames, ∀ path, ¬ TableAt s space path frame

/-- The addresses lie in the same page. -/
def SamePage (a b : VirtAddr) : Prop := a.val / pageSize = b.val / pageSize

/-- An entry that is not present points to no table. -/
theorem child_of_absent {e : Entry} (k : ℕ) (he : e.flags.present = false) :
    e.child k = none := by
  rw [Entry.child, if_neg]
  rintro ⟨-, hp, -⟩
  rw [he] at hp
  exact Bool.noConfusion hp

/-- A present entry that is not a huge page points to a table. -/
theorem child_of_present {e : Entry} {k : ℕ} (hk : 0 < k) (he : e.flags.present = true)
    (hhuge : k = 3 ∨ e.flags.hugePage = false) : e.child k = some e.frame :=
  if_pos ⟨hk, he, hhuge⟩

/-- A huge page points to no table. -/
theorem child_of_hugePage {e : Entry} {k : ℕ} (hk : k ≠ 3) (he : e.flags.hugePage = true) :
    e.child k = none := by
  rw [Entry.child, if_neg]
  rintro ⟨-, -, h3 | hnot⟩
  · exact hk h3
  · rw [he] at hnot
    exact Bool.noConfusion hnot

/-- An entry that is not present maps nothing. -/
theorem mapped_of_absent {e : Entry} (k : ℕ) {addr : VirtAddr}
    (he : e.flags.present = false) : e.mapped k addr = none :=
  if_pos he

/-- **`get_page` reads the entry at which the walk stops.** -/
theorem getPage_eq (s : State) (space : AddressSpace) (addr : VirtAddr) :
    getPage s space addr = (lookup s space addr).2.mapped (lookup s space addr).1 addr := by
  rw [lookup, VirtAddr.lowerIndices]
  dsimp only [getPage]
  split
  · rename_i h4
    rw [stop_of_none (child_of_absent _ h4), mapped_of_absent _ h4]
  · rename_i h4
    rw [stop_of_some (child_of_present (Nat.succ_pos _) (Bool.not_eq_false _ ▸ h4) (.inl rfl))]
    split
    · rename_i h3
      rw [stop_of_none (child_of_absent _ h3), mapped_of_absent _ h3]
    · rename_i h3
      split
      · rename_i hhuge
        rw [stop_of_none (child_of_hugePage (by simp) hhuge), Entry.mapped, if_neg h3]
        rfl
      · rename_i hhuge
        rw [stop_of_some (child_of_present (Nat.succ_pos _) (Bool.not_eq_false _ ▸ h3)
          (.inr (Bool.not_eq_true _ ▸ hhuge)))]
        split
        · rename_i h2
          rw [stop_of_none (child_of_absent _ h2), mapped_of_absent _ h2]
        · rename_i h2
          split
          · rename_i hhuge
            rw [stop_of_none (child_of_hugePage (by simp) hhuge), Entry.mapped, if_neg h2]
            rfl
          · rename_i hhuge
            rw [stop_of_some (child_of_present (Nat.succ_pos _) (Bool.not_eq_false _ ▸ h2)
              (.inr (Bool.not_eq_true _ ▸ hhuge))), stop, Entry.mapped]
            rfl

/-- Addresses of one page have the same indices. -/
theorem SamePage.indices {a b : VirtAddr} (h : SamePage a b) :
    a.p4Index = b.p4Index ∧ a.lowerIndices = b.lowerIndices := by
  have hdiv : a.val / 4096 = b.val / 4096 := h
  simp only [VirtAddr.lowerIndices, VirtAddr.p4Index, VirtAddr.p3Index, VirtAddr.p2Index,
    VirtAddr.p1Index, Fin.ext_iff, Fin.val_ofNat, List.cons.injEq, and_true]
  omega

/-- Addresses with the same indices are of one page. -/
theorem samePage_of_indices {a b : VirtAddr} (h4 : a.p4Index = b.p4Index)
    (h : a.lowerIndices = b.lowerIndices) : SamePage a b := by
  have ha := a.canonical
  have hb := b.canonical
  simp only [VirtAddr.lowerIndices, VirtAddr.p4Index, VirtAddr.p3Index, VirtAddr.p2Index,
    VirtAddr.p1Index, Fin.ext_iff, Fin.val_ofNat, List.cons.injEq, and_true] at h4 h
  change a.val / 4096 = b.val / 4096
  omega

/-- The walks for addresses of one page stop at the same entry. -/
theorem SamePage.lookup {a b : VirtAddr} (h : SamePage a b) (s : State) (space : AddressSpace) :
    lookup s space a = lookup s space b := by
  obtain ⟨h4, hlow⟩ := h.indices
  rw [Page.lookup, Page.lookup, h4, hlow]

/-! ### Making tables -/

/-- What happens on the way to the L1 table: the tables form a tree still, no page has changed,
no huge page was made, and the frames that are left are outside the tree. -/
structure OnTheWay (s t : State) (space : AddressSpace) (frames : List ℕ) : Prop where
  tree : FormsTree t space
  outside : OutsideTree t space frames
  pages : ∀ addr, getPage t space addr = getPage s space addr
  noHugePage : ∀ {addr}, NoHugePage s space addr → NoHugePage t space addr

/-- Nothing has happened. -/
theorem OnTheWay.refl {s : State} {space : AddressSpace} {frames : List ℕ}
    (htree : FormsTree s space) (hout : OutsideTree s space frames) :
    OnTheWay s s space frames :=
  ⟨htree, hout, fun _ => rfl, id⟩

section Enter

variable {s : State} {space : AddressSpace} {addr : VirtAddr} {frames : List ℕ}
  {path rest : List (Fin 512)} {table : ℕ} {i : Fin 512}

/-- There are four tables on the walk for an address. -/
theorem length_add_length (hpath : path ++ i :: rest = addr.p4Index :: addr.lowerIndices) :
    path.length + rest.length = 3 := by
  have hlength := congrArg List.length hpath
  simp only [List.length_append, List.length_cons, VirtAddr.lowerIndices,
    List.length_nil] at hlength
  omega

/-- The walk for an address goes through the tables on its path. -/
theorem lookup_of_tableAt (ht : TableAt s space path table)
    (hpath : path ++ i :: rest = addr.p4Index :: addr.lowerIndices) :
    lookup s space addr = stop Entry.child s.tables table i rest := by
  have hlen := length_add_length hpath
  obtain ⟨j, rest', heq, hstop⟩ := stop_append (i := i) ht hlen
  rw [hpath, List.cons.injEq] at heq
  obtain ⟨rfl, rfl⟩ := heq
  exact hstop

/-- Making a table for an entry that is not present. -/
theorem onTheWay_link {frame : ℕ} (htree : FormsTree s space)
    (hout : OutsideTree s space (frame :: frames)) (ht : TableAt s space path table)
    (hlen : path.length < 3) (habsent : (s.tables table i).flags.present = false) :
    OnTheWay s ((s.clear frame).setEntry table i ⟨frame, .newTable⟩) space frames ∧
      TableAt ((s.clear frame).setEntry table i ⟨frame, .newTable⟩) space (path ++ [i]) frame := by
  have hlink : Linkable Entry.child s.tables 3 space.pageTable .unused frame path table i
      ⟨frame, .newTable⟩ :=
    { tree := htree
      unreached := hout.unreached frame List.mem_cons_self
      reaches := ht
      length_lt := hlen
      pointsNowhere := child_of_absent _ habsent
      pointsToNew := child_of_present (Nat.sub_pos_of_lt hlen) rfl (.inr rfl)
      empty := fun k => child_of_absent k rfl }
  have hlookup : ∀ addr : VirtAddr,
      lookup ((s.clear frame).setEntry table i ⟨frame, .newTable⟩) space addr =
        lookup s space addr ∨
      (lookup s space addr).2.flags.present = false ∧
        (lookup ((s.clear frame).setEntry table i ⟨frame, .newTable⟩) space addr).2 = .unused := by
    intro addr
    rcases stop_link hlink (j := addr.p4Index) (rfl : addr.lowerIndices.length = 3) with
      h | ⟨h, -, h'⟩
    · exact .inl h
    · refine .inr ⟨?_, h'⟩
      rw [lookup, h]
      exact habsent
  refine ⟨⟨IsTree.link hlink, ⟨(List.nodup_cons.mp hout.nodup).2, ?_⟩, ?_, ?_⟩,
    (reaches_link hlink).mpr (.inr ⟨rfl, rfl⟩)⟩
  · intro frame' hmem path' ht'
    rcases (reaches_link hlink).mp ht' with hold | ⟨-, rfl⟩
    · exact hout.unreached frame' (List.mem_cons_of_mem _ hmem) path' hold
    · exact (List.nodup_cons.mp hout.nodup).1 hmem
  · intro addr
    rw [getPage_eq, getPage_eq]
    rcases hlookup addr with h | ⟨h, h'⟩
    · rw [h]
    · rw [h', mapped_of_absent _ rfl, mapped_of_absent _ h]
  · intro addr hno
    rw [NoHugePage]
    rcases hlookup addr with h | ⟨-, h'⟩
    · rw [h]
      exact hno
    · rw [h']
      exact fun hp => Bool.noConfusion hp

/-- **Going from an entry on the path to the table it points to**: there is nothing to remove,
or there is no frame for a table, or the walk goes on. -/
theorem enterTable_outcome (htree : FormsTree s space) (hout : OutsideTree s space frames)
    (ht : TableAt s space path table)
    (hpath : path ++ i :: rest = addr.p4Index :: addr.lowerIndices) (hrest : rest ≠ [])
    (isSome : Bool) :
    (isSome = false ∧ enterTable s frames table i isSome = .ok none ∧
      (lookup s space addr).2.flags.present = false) ∨
    (isSome = true ∧ frames = [] ∧ enterTable s frames table i isSome = .error (.outOfMemory, s)) ∨
    ∃ t frames' e, enterTable s frames table i isSome = .ok (some (t, frames', e)) ∧
      OnTheWay s t space frames' ∧ (isSome = true → frames.length ≤ frames'.length + 1) ∧
      (path = [] ∨ e.flags.hugePage = false → TableAt t space (path ++ [i]) e.frame) ∧
      (path ≠ [] → NoHugePage t space addr → e.flags.hugePage = false) := by
  have hlen := length_add_length hpath
  have hpos : 0 < rest.length := List.length_pos_iff.mpr hrest
  have hheight : 3 - path.length = rest.length := by omega
  have hlookup := lookup_of_tableAt ht hpath
  cases hpresent : (s.tables table i).flags.present with
  | true =>
      refine .inr (.inr ⟨s, frames, s.tables table i, if_pos hpresent, .refl htree hout,
        fun _ => Nat.le_succ _, ?_, ?_⟩)
      · intro hor
        refine .child ht (by omega) (child_of_present (by omega) hpresent ?_)
        refine hor.imp (fun hnil => ?_) id
        rw [hnil, List.length_nil]
      · intro hne hno
        by_contra hhuge
        rw [Bool.not_eq_false] at hhuge
        have hplen : 0 < path.length := List.length_pos_iff.mpr hne
        rw [NoHugePage, hlookup, stop_of_none (child_of_hugePage (by omega) hhuge)] at hno
        have := hno hpresent
        omega
  | false =>
      have habsent : ¬ (s.tables table i).flags.present = true := by
        rw [hpresent]
        exact Bool.false_ne_true
      cases isSome with
      | false =>
          refine .inl ⟨rfl, if_neg habsent, ?_⟩
          rw [hlookup, stop_of_none (child_of_absent _ hpresent)]
          exact hpresent
      | true =>
          cases frames with
          | nil => exact .inr (.inl ⟨rfl, rfl, if_neg habsent⟩)
          | cons frame frames =>
              obtain ⟨hway, htable⟩ := onTheWay_link htree hout ht (by omega) hpresent
              exact .inr (.inr ⟨_, frames, _, if_neg habsent, hway, fun _ => Nat.le_refl _,
                fun _ => htable, fun _ _ => rfl⟩)

end Enter

/-! ### Setting a page -/

/-- The mapping as it is read at an address of the page. -/
def mappingAt (mapping : Option (ℕ × PageFlags)) (addr : VirtAddr) : Option (ℕ × PageFlags) :=
  mapping.map fun m => (m.1 + addr.val % pageSize, m.2)

/-- The page of the address is mapped as given, and all other pages are as they were. -/
structure SetsPage (s t : State) (space : AddressSpace) (addr : VirtAddr)
    (mapping : Option (ℕ × PageFlags)) : Prop where
  hit : ∀ a, SamePage a addr → getPage t space a = mappingAt mapping a
  miss : ∀ a, ¬ SamePage a addr → getPage t space a = getPage s space a

/-- What setting a page does, when there are `n` tables to go through: the tables form a tree,
the page is set if the operation returns, and it returns unless it is asked to map a frame that
is not aligned, there are no frames for the tables, or the page lies in a huge page. -/
structure Outcome (s : State) (space : AddressSpace) (addr : VirtAddr)
    (mapping : Option (ℕ × PageFlags)) (frames : List ℕ) (n : ℕ)
    (x : Except (Panic × State) State) : Prop where
  tree : FormsTree (finalState x) space
  sets : ∀ {t}, x = .ok t → SetsPage s t space addr mapping
  returns : NoHugePage s space addr → (∀ m ∈ mapping, m.1 % pageSize = 0) →
    (mapping.isSome = true → n ≤ frames.length) → ∃ t, x = .ok t

section SetPage

variable {s : State} {space : AddressSpace} {addr : VirtAddr} {frames : List ℕ}
  {mapping : Option (ℕ × PageFlags)}

/-- The flags that are written are read. -/
theorem toGenericFlags_toX8664Flags (flags : PageFlags) :
    toGenericFlags (toX8664Flags flags) = flags := by
  simp only [toGenericFlags, toX8664Flags, Bool.not_not]

/-- The entry that is written for a mapping is read as the mapping. -/
theorem mapped_mappingEntry {e : Entry} (he : mappingEntry s mapping = .ok e) (a : VirtAddr) :
    e.mapped 0 a = mappingAt mapping a := by
  cases mapping with
  | none =>
      cases he
      exact mapped_of_absent 0 rfl
  | some m =>
      obtain ⟨halign, he⟩ := ensure_bind_eq_ok.mp he
      cases he
      have hframe : m.1 / pageSize * pageSize = m.1 :=
        Nat.div_mul_cancel (Nat.dvd_of_mod_eq_zero halign)
      rw [Entry.mapped, if_neg (by exact Bool.true_eq_false_eq_False), hframe,
        toGenericFlags_toX8664Flags]
      rfl

/-- Writing an L1 entry makes and removes no tables. -/
theorem tableAt_setEntry {table : ℕ} {e : Entry} (htree : FormsTree s space)
    (ht : TableAt s space [addr.p4Index, addr.p3Index, addr.p2Index] table)
    {path : List (Fin 512)} {frame : ℕ} :
    TableAt (s.setEntry table addr.p1Index e) space path frame ↔ TableAt s space path frame :=
  reaches_write htree ht (fun h => absurd h (lt_irrefl 3)) fun h => absurd h (lt_irrefl 3)

/-- Setting an L1 entry sets the page. -/
theorem setL1_outcome {table : ℕ} (htree : FormsTree s space)
    (ht : TableAt s space [addr.p4Index, addr.p3Index, addr.p2Index] table) :
    Outcome s space addr mapping frames 0 (setL1 s table addr mapping) := by
  have hmiss : ∀ {e : Entry} {a : VirtAddr}, ¬ SamePage a addr →
      lookup (s.setEntry table addr.p1Index e) space a = lookup s space a := by
    intro e a hne
    refine stop_write htree ht rfl fun hpre => hne ?_
    obtain ⟨h4, hlow⟩ := List.cons.inj (hpre.eq_of_length rfl)
    exact samePage_of_indices h4.symm hlow.symm
  have htree' : ∀ e : Entry, FormsTree (s.setEntry table addr.p1Index e) space := by
    intro e p q t hp hq
    exact htree ((tableAt_setEntry htree ht).mp hp) ((tableAt_setEntry htree ht).mp hq)
  have hhit : ∀ e : Entry, lookup (s.setEntry table addr.p1Index e) space addr = (0, e) := by
    intro e
    have ht' := (tableAt_setEntry (e := e) htree ht).mpr ht
    have hpath : [addr.p4Index, addr.p3Index, addr.p2Index] ++ [addr.p1Index] =
        addr.p4Index :: addr.lowerIndices := rfl
    rw [lookup_of_tableAt ht' hpath, stop]
    refine congrArg (Prod.mk 0) ((write_apply s.tables table addr.p1Index e _ _).trans ?_)
    exact if_pos ⟨rfl, rfl⟩
  cases he : mappingEntry s mapping with
  | error p =>
      have hset : setL1 s table addr mapping = .error p := by
        rw [setL1, he, error_bind]
      rw [hset]
      cases mapping with
      | none => cases he
      | some m =>
          by_cases hm : m.1 % pageSize = 0
          · simp only [mappingEntry, ensure_pos hm, ok_bind] at he
            cases he
          · simp only [mappingEntry, ensure_neg hm, error_bind] at he
            cases he
            exact ⟨htree, fun h => (by cases h), fun _ hall _ => absurd (hall m rfl) hm⟩
  | ok e =>
      have hset : setL1 s table addr mapping = .ok (s.setEntry table addr.p1Index e) := by
        rw [setL1, he, ok_bind]
        rfl
      rw [hset]
      refine ⟨htree' e, ?_, fun _ _ _ => ⟨_, rfl⟩⟩
      intro t ht
      cases ht
      refine ⟨fun a ha => ?_, fun a ha => ?_⟩
      · rw [getPage_eq, ha.lookup, hhit]
        exact mapped_mappingEntry he a
      · rw [getPage_eq, getPage_eq, hmiss ha]

/-- The operation goes on from where the way to the L1 table has led. -/
theorem Outcome.of_onTheWay {t : State} {frames' : List ℕ} {n : ℕ}
    {x : Except (Panic × State) State} (h : Outcome t space addr mapping frames' n x)
    (hway : OnTheWay s t space frames')
    (hlen : mapping.isSome = true → frames.length ≤ frames'.length + 1) :
    Outcome s space addr mapping frames (n + 1) x where
  tree := h.tree
  sets := by
    intro u hu
    obtain ⟨hhit, hmiss⟩ := h.sets hu
    exact ⟨hhit, fun a ha => (hmiss a ha).trans (hway.pages a)⟩
  returns := by
    intro hno hall hframes
    refine h.returns (hway.noHugePage hno) hall fun hsome => ?_
    have := hframes hsome
    have := hlen hsome
    omega

/-- There is nothing to remove. -/
theorem Outcome.of_absent {n : ℕ} (htree : FormsTree s space) (hsome : mapping.isSome = false)
    (habsent : (lookup s space addr).2.flags.present = false) :
    Outcome s space addr mapping frames n (.ok s) where
  tree := htree
  sets := by
    intro t ht
    cases ht
    rw [Option.isSome_eq_false_iff, Option.isNone_iff_eq_none] at hsome
    refine ⟨fun a ha => ?_, fun _ _ => rfl⟩
    rw [getPage_eq, ha.lookup, mapped_of_absent _ habsent, hsome]
    rfl
  returns := fun _ _ _ => ⟨s, rfl⟩

/-- There is no frame for a table. -/
theorem Outcome.of_outOfMemory {n : ℕ} (htree : FormsTree s space)
    (hsome : mapping.isSome = true) :
    Outcome s space addr mapping [] (n + 1) (.error (.outOfMemory, s)) where
  tree := htree
  sets := fun h => nomatch h
  returns := fun _ _ hframes => absurd (hframes hsome) (Nat.not_succ_le_zero n)

/-- An assertion that holds if the page does not lie in a huge page. -/
theorem Outcome.ensure {n : ℕ} {c : Prop} [Decidable c] {p : Panic}
    {x : Except (Panic × State) State} (htree : FormsTree s space)
    (hc : NoHugePage s space addr → c) (h : c → Outcome s space addr mapping frames n x) :
    Outcome s space addr mapping frames n (ensure c (p, s) >>= fun _ => x) := by
  by_cases hcond : c
  · rw [ensure_pos hcond, ok_bind]
    exact h hcond
  · rw [ensure_neg hcond, error_bind]
    exact ⟨htree, fun h => (nomatch h), fun hno _ _ => absurd (hc hno) hcond⟩

/-- Setting a page at the table of the next level, which may have to be made. -/
theorem Outcome.enterTable {n table : ℕ} {path rest : List (Fin 512)} {i : Fin 512}
    {next : Option (State × List ℕ × Entry) → Except (Panic × State) State}
    (htree : FormsTree s space) (hout : OutsideTree s space frames)
    (ht : TableAt s space path table)
    (hpath : path ++ i :: rest = addr.p4Index :: addr.lowerIndices) (hrest : rest ≠ [])
    (hnone : next none = .ok s)
    (hsome : ∀ t frames' e, OnTheWay s t space frames' →
      (path = [] ∨ e.flags.hugePage = false → TableAt t space (path ++ [i]) e.frame) →
      (path ≠ [] → NoHugePage t space addr → e.flags.hugePage = false) →
      Outcome t space addr mapping frames' n (next (some (t, frames', e)))) :
    Outcome s space addr mapping frames (n + 1)
      (Page.enterTable s frames table i mapping.isSome >>= next) := by
  rcases enterTable_outcome htree hout ht hpath hrest mapping.isSome with
    ⟨hsome', heq, habsent⟩ | ⟨hsome', rfl, heq⟩ | ⟨t, frames', e, heq, hway, hlen, hnext, hhuge⟩
  · rw [heq, ok_bind, hnone]
    exact .of_absent htree hsome' habsent
  · rw [heq, error_bind]
    exact .of_outOfMemory htree hsome'
  · rw [heq, ok_bind]
    exact (hsome t frames' e hway hnext hhuge).of_onTheWay hway hlen

/-- Setting a page through an L2 table. -/
theorem setL2_outcome {table : ℕ} (htree : FormsTree s space)
    (hout : OutsideTree s space frames)
    (ht : TableAt s space [addr.p4Index, addr.p3Index] table) :
    Outcome s space addr mapping frames 1 (setL2 s frames table addr mapping) := by
  rw [setL2]
  have hpath : [addr.p4Index, addr.p3Index] ++ addr.p2Index :: [addr.p1Index] =
      addr.p4Index :: addr.lowerIndices := rfl
  refine .enterTable htree hout ht hpath (List.cons_ne_nil _ _) rfl ?_
  intro t frames' e hway hnext hhuge
  exact .ensure hway.tree (hhuge (List.cons_ne_nil _ _)) fun h =>
    setL1_outcome hway.tree (hnext (.inr h))

/-- Setting a page through an L3 table. -/
theorem setL3_outcome {table : ℕ} (htree : FormsTree s space)
    (hout : OutsideTree s space frames) (ht : TableAt s space [addr.p4Index] table) :
    Outcome s space addr mapping frames 2 (setL3 s frames table addr mapping) := by
  rw [setL3]
  have hpath : [addr.p4Index] ++ addr.p3Index :: [addr.p2Index, addr.p1Index] =
      addr.p4Index :: addr.lowerIndices := rfl
  refine .enterTable htree hout ht hpath (List.cons_ne_nil _ _) rfl ?_
  intro t frames' e hway hnext hhuge
  exact .ensure hway.tree (hhuge (List.cons_ne_nil _ _)) fun h =>
    setL2_outcome hway.tree hway.outside (hnext (.inr h))

/-- **Setting a page**, from any address space whose tables form a tree. -/
theorem setPageInternal_outcome (htree : FormsTree s space)
    (hout : OutsideTree s space frames) (haddr : addr.val % pageSize = 0) :
    Outcome s space addr mapping frames 3 (setPageInternal s frames space addr mapping) := by
  rw [setPageInternal, ensure_pos haddr, ok_bind]
  have hpath : [] ++ addr.p4Index :: addr.lowerIndices = addr.p4Index :: addr.lowerIndices := rfl
  refine .enterTable htree hout .root hpath (List.cons_ne_nil _ _) rfl ?_
  intro t frames' e hway hnext _
  exact setL3_outcome hway.tree hway.outside (hnext (.inl rfl))

/-- Setting a page keeps the tree, also if it panics. -/
theorem FormsTree.setPageInternal (htree : FormsTree s space)
    (hout : OutsideTree s space frames) (addr : VirtAddr) (mapping : Option (ℕ × PageFlags)) :
    FormsTree (finalState (setPageInternal s frames space addr mapping)) space := by
  by_cases haddr : addr.val % pageSize = 0
  · exact (setPageInternal_outcome htree hout haddr).tree
  · rw [Page.setPageInternal, ensure_neg haddr, error_bind]
    exact htree

/-- Nothing is made for the removal of a page. -/
theorem enterTable_false (s : State) (frames : List ℕ) (table : ℕ) (i : Fin 512) :
    enterTable s frames table i false =
      .ok (if (s.tables table i).flags.present = true then some (s, frames, s.tables table i)
        else none) := by
  simp only [enterTable, Bool.false_eq_true, if_false]
  split <;> rfl

/-- The removal of a page through an L2 table allocates no frame. -/
theorem setL2_none_frames (s : State) (frames : List ℕ) (table : ℕ) (addr : VirtAddr) :
    setL2 s frames table addr none = setL2 s [] table addr none := by
  simp only [setL2, Option.isSome_none, enterTable_false, ok_bind]
  cases (s.tables table addr.p2Index).flags.present with
  | true => rfl
  | false => rfl

/-- The removal of a page through an L3 table allocates no frame. -/
theorem setL3_none_frames (s : State) (frames : List ℕ) (table : ℕ) (addr : VirtAddr) :
    setL3 s frames table addr none = setL3 s [] table addr none := by
  simp only [setL3, Option.isSome_none, enterTable_false, ok_bind]
  cases (s.tables table addr.p3Index).flags.present with
  | true => simp only [if_true, setL2_none_frames s frames]
  | false => rfl

/-- **The removal of a page allocates no frame**: it does the same when there are none. -/
theorem setPageInternal_none_frames (s : State) (frames : List ℕ) (space : AddressSpace)
    (addr : VirtAddr) :
    setPageInternal s frames space addr none = setPageInternal s [] space addr none := by
  simp only [setPageInternal, Option.isSome_none, enterTable_false, ok_bind]
  cases (s.tables space.pageTable addr.p4Index).flags.present with
  | true => simp only [if_true, setL3_none_frames s frames]
  | false => rfl

end SetPage

/-! ### Every run -/

/-- A call of `set_page_internal`: the frames that `alloc_one` returns during it, the address
and the mapping. -/
structure Call where
  frames : List ℕ
  addr : VirtAddr
  mapping : Option (ℕ × PageFlags)

/-- A call on an address space, with frames outside its tree, that returns or panics. -/
def CallStep (space : AddressSpace) (s : State) (c : Call) (t : State) : Prop :=
  OutsideTree s space c.frames ∧
    t = finalState (setPageInternal s c.frames space c.addr c.mapping)

/-- What setting and removing a page that lies in no huge page does. -/
structure MapLaw (s : State) (space : AddressSpace) : Prop where
  /-- With enough frames a page can be mapped. -/
  maps : ∀ {frames addr frame flags}, addr.val % pageSize = 0 → frame % pageSize = 0 →
    NoHugePage s space addr → OutsideTree s space frames → 3 ≤ frames.length →
    ∃ t, setPageInternal s frames space addr (some (frame, flags)) = .ok t
  /-- A page that was mapped maps to the frame, and no other page changes. -/
  mapped : ∀ {frames addr frame flags t}, OutsideTree s space frames →
    setPageInternal s frames space addr (some (frame, flags)) = .ok t →
    ∀ a, (SamePage a addr → getPage t space a = some (frame + a.val % pageSize, flags)) ∧
      (¬ SamePage a addr → getPage t space a = getPage s space a)
  /-- A page can be removed without any frames; then it maps to nothing, and no other page
  changes. -/
  unmapped : ∀ {addr}, addr.val % pageSize = 0 → NoHugePage s space addr →
    ∃ t, (∀ frames, setPageInternal s frames space addr none = .ok t) ∧
      ∀ a, (SamePage a addr → getPage t space a = none) ∧
        (¬ SamePage a addr → getPage t space a = getPage s space a)

/-- An address space whose tables form a tree obeys the law. -/
theorem FormsTree.mapLaw {s : State} {space : AddressSpace} (htree : FormsTree s space) :
    MapLaw s space where
  maps := by
    intro frames addr frame flags haddr hframe hno hout hlen
    refine (setPageInternal_outcome htree hout haddr).returns hno ?_ fun _ => hlen
    rintro m ⟨⟩
    exact hframe
  mapped := by
    intro frames addr frame flags t hout hok a
    obtain ⟨haddr, -⟩ := ensure_bind_eq_ok.mp hok
    obtain ⟨hhit, hmiss⟩ := (setPageInternal_outcome htree hout haddr).sets hok
    exact ⟨hhit a, hmiss a⟩
  unmapped := by
    intro addr haddr hno
    have hout : OutsideTree s space [] := ⟨List.nodup_nil, fun _ hmem => nomatch hmem⟩
    have hset : Outcome s space addr none [] 3 _ := setPageInternal_outcome htree hout haddr
    obtain ⟨t, hok⟩ := hset.returns hno (fun _ hm => nomatch hm) fun hsome => nomatch hsome
    obtain ⟨hhit, hmiss⟩ := hset.sets hok
    refine ⟨t, fun frames => ?_, fun a => ⟨hhit a, hmiss a⟩⟩
    rw [setPageInternal_none_frames, hok]

/-- **The map law**: in every run of calls on an address space whose tables form a tree, a page
that is set maps to its frame with its flags, a page that is removed maps to nothing, and no
other page changes. -/
theorem page_map_law {s₀ s : State} {space : AddressSpace} {calls : List Call}
    (htree : FormsTree s₀ space) (hruns : Runs (CallStep space) s₀ calls s) :
    MapLaw s space := by
  have hinv : FormsTree s space := by
    refine hruns.invariant (P := fun s => FormsTree s space) htree ?_
    rintro s c t hs ⟨hout, rfl⟩
    exact hs.setPageInternal hout c.addr c.mapping
  exact hinv.mapLaw

/-- An address space without any mapping has only its L4 table. -/
theorem tableAt_unused {space : AddressSpace} {users : List AddressSpace} {path : List (Fin 512)}
    {table : ℕ} (h : TableAt ⟨fun _ _ => .unused, space, users⟩ space path table) :
    path = [] ∧ table = space.pageTable := by
  cases h with
  | root => exact ⟨rfl, rfl⟩
  | child _ _ ht =>
      rw [child_of_absent _ rfl] at ht
      cases ht

/-- The law after a page has been mapped in an address space without any mapping. -/
theorem page_map_law_unused : ∃ s : State,
    Runs (CallStep ⟨0, true⟩) ⟨fun _ _ => .unused, ⟨0, true⟩, []⟩
      [⟨[1, 2, 3], ⟨4096, .inl (by decide)⟩, some (8192, ⟨false, true, false⟩)⟩] s ∧
      MapLaw s ⟨0, true⟩ := by
  have htree : FormsTree ⟨fun _ _ => .unused, ⟨0, true⟩, []⟩ ⟨0, true⟩ := by
    intro p q t hp hq
    rw [(tableAt_unused hp).1, (tableAt_unused hq).1]
  have hout : OutsideTree ⟨fun _ _ => .unused, ⟨0, true⟩, []⟩ ⟨0, true⟩ [1, 2, 3] := by
    refine ⟨by decide, ?_⟩
    intro frame hmem path ht
    rw [(tableAt_unused ht).2] at hmem
    exact absurd hmem (by decide)
  have hruns : Runs (CallStep ⟨0, true⟩) ⟨fun _ _ => .unused, ⟨0, true⟩, []⟩
      [⟨[1, 2, 3], ⟨4096, .inl (by decide)⟩, some (8192, ⟨false, true, false⟩)⟩] _ :=
    Runs.refl.snoc ⟨hout, rfl⟩
  exact ⟨_, hruns, page_map_law htree hruns⟩

end HydroxKernel.Page
