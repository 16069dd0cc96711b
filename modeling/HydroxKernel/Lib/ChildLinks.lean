import Mathlib.Data.List.Nodup
import Mathlib.Data.Set.Insert
import Mathlib.Logic.Function.Basic

/-!
# Parents and Lists of Children

In a tree whose nodes have a link to their parent and whose inner nodes have a list of children,
the two are stored apart. They agree if a node lists exactly those live nodes whose parent it is.

A step that takes a node off a list and one that ends its life may come at different times. Between
them the links disagree about the node, so they are complete up to two sets of exceptions: the
nodes that were taken off a list by themselves, and those whose life was ended by itself.

## Main results

* `Complete.agree_iff`: the links agree if and only if the exceptions are the same nodes.
* `Complete.add`, `Complete.putOn`, `Complete.takeOff`, `Complete.clear`, `Complete.endLife`: the
  steps.
* `Complete.contract`: a node that is in both sets is no exception any more.
-/

namespace HydroxKernel

variable {ι : Type*}

/-- The links between nodes: the parents, which nodes are live, and the lists of children. -/
structure ChildLinks (ι : Type*) where
  parent : ι → Option ι
  live : ι → Prop
  children : ι → Option (List ι)

namespace ChildLinks

/-- A node lists another. -/
def Lists (t : ChildLinks ι) (hub d : ι) : Prop := ∃ cs, t.children hub = some cs ∧ d ∈ cs

/-- A node lists another once if and only if that is live and has it as its parent. -/
def Agree [DecidableEq ι] (t : ChildLinks ι) : Prop :=
  ∀ hub cs, t.children hub = some cs →
    ∀ d, cs.count d = 1 ↔ t.live d ∧ t.parent d = some hub

/-- Where a node stands, by whether it was taken off its list by itself and whether its life was
ended by itself. -/
structure Standing (taken ended listed live : Prop) : Prop where
  listed_of_taken : taken → ¬ listed
  live_of_taken : taken → ¬ ended → live
  not_live : ended → ¬ live
  listed_of_ended : ended → ¬ taken → listed
  listed_iff : ¬ taken → ¬ ended → (listed ↔ live)

/-- The links are complete up to the nodes in the two sets. -/
structure Complete (taken ended : Set ι) (t : ChildLinks ι) : Prop where
  nodup : ∀ {hub cs}, t.children hub = some cs → cs.Nodup
  parent_of_mem : ∀ {hub cs d}, t.children hub = some cs → d ∈ cs → t.parent d = some hub
  children_of_parent : ∀ {hub d}, t.parent d = some hub → ∃ cs, t.children hub = some cs
  parent_of_live : ∀ {d}, t.live d → ∃ hub, t.parent d = some hub
  parent_of_taken : ∀ {d}, d ∈ taken → ∃ hub, t.parent d = some hub
  parent_of_ended : ∀ {d}, d ∈ ended → ∃ hub, t.parent d = some hub
  standing : ∀ {hub d}, t.parent d = some hub →
    Standing (d ∈ taken) (d ∈ ended) (t.Lists hub d) (t.live d)

variable {taken taken' ended : Set ι} {t : ChildLinks ι} {hub d : ι} {cs : List ι}

/-- A node that is listed by the parent is a child. -/
theorem lists_iff (h : t.children hub = some cs) : t.Lists hub d ↔ d ∈ cs := by
  constructor
  · rintro ⟨cs', h', hd⟩
    obtain rfl := Option.some.inj (h.symm.trans h')
    exact hd
  · intro hd
    exact ⟨cs, h, hd⟩

/-- **The links agree** if and only if the nodes that were taken off their lists are those whose
life was ended. -/
theorem Complete.agree_iff [DecidableEq ι] (h : Complete taken ended t) :
    t.Agree ↔ ∀ d, d ∈ taken ↔ d ∈ ended := by
  have hcount : ∀ {hub cs}, t.children hub = some cs → ∀ d, cs.count d = 1 ↔ d ∈ cs := by
    intro hub cs hcs d
    rw [← List.count_pos_iff]
    have := List.nodup_iff_count_le_one.mp (h.nodup hcs) d
    omega
  constructor
  · intro hagree d
    have hstanding : ∀ {hub}, t.parent d = some hub → (t.Lists hub d ↔ t.live d) := by
      intro hub hparent
      obtain ⟨cs, hcs⟩ := h.children_of_parent hparent
      rw [lists_iff hcs, ← hcount hcs, hagree hub cs hcs, and_iff_left hparent]
    constructor
    · intro hd
      obtain ⟨hub, hparent⟩ := h.parent_of_taken hd
      have hst := h.standing hparent
      by_contra hnot
      exact hst.listed_of_taken hd ((hstanding hparent).mpr (hst.live_of_taken hd hnot))
    · intro hd
      obtain ⟨hub, hparent⟩ := h.parent_of_ended hd
      have hst := h.standing hparent
      by_contra hnot
      exact hst.not_live hd ((hstanding hparent).mp (hst.listed_of_ended hd hnot))
  · intro hsame hub cs hcs d
    rw [hcount hcs]
    constructor
    · intro hd
      have hparent := h.parent_of_mem hcs hd
      have hst := h.standing hparent
      have hlists := (lists_iff hcs).mpr hd
      have hnot : d ∉ taken := fun htaken => hst.listed_of_taken htaken hlists
      exact ⟨(hst.listed_iff hnot fun hended => hnot ((hsame d).mpr hended)).mp hlists, hparent⟩
    · rintro ⟨hlive, hparent⟩
      have hst := h.standing hparent
      have hnot : d ∉ ended := fun hended => hst.not_live hended hlive
      exact (lists_iff hcs).mp
        ((hst.listed_iff (fun htaken => hnot ((hsame d).mp htaken)) hnot).mpr hlive)

/-- Ending the life of a node. -/
def endLife (t : ChildLinks ι) (d : ι) : ChildLinks ι :=
  { t with live := fun x => x ≠ d ∧ t.live x }

/-- A node that is live was not ended. -/
theorem Complete.notMem_ended (h : Complete taken ended t) (hlive : t.live d) : d ∉ ended := by
  intro hended
  obtain ⟨hub, hparent⟩ := h.parent_of_live hlive
  exact (h.standing hparent).not_live hended hlive

/-- **Ending the life** of a live node by itself. -/
theorem Complete.endLife (h : Complete taken ended t) (hlive : t.live d) :
    Complete taken (insert d ended) (t.endLife d) where
  nodup := h.nodup
  parent_of_mem := h.parent_of_mem
  children_of_parent := h.children_of_parent
  parent_of_live hx := h.parent_of_live hx.2
  parent_of_taken := h.parent_of_taken
  parent_of_ended hx := by
    rcases Set.mem_insert_iff.mp hx with rfl | hx
    · exact h.parent_of_live hlive
    · exact h.parent_of_ended hx
  standing {hub x} hparent := by
    have hst := h.standing hparent
    have hnot := h.notMem_ended hlive
    by_cases hx : x = d
    · subst hx
      exact
        { listed_of_taken := hst.listed_of_taken
          live_of_taken := fun _ hend => absurd (Set.mem_insert x ended) hend
          not_live := fun _ hl => hl.1 rfl
          listed_of_ended := fun _ htaken => (hst.listed_iff htaken hnot).mpr hlive
          listed_iff := fun _ hend => absurd (Set.mem_insert x ended) hend }
    · have hend : x ∈ insert d ended ↔ x ∈ ended := by
        rw [Set.mem_insert_iff, or_iff_right hx]
      have hl : (t.endLife d).live x ↔ t.live x := and_iff_right hx
      rw [hend, hl]
      exact hst

/-- Giving a node another list of children. -/
def relist [DecidableEq ι] (t : ChildLinks ι) (hub : ι) (cs : List ι) : ChildLinks ι :=
  { t with children := Function.update t.children hub (some cs) }

/-- **Another list of children** for a node. -/
theorem Complete.relist [DecidableEq ι] (h : Complete taken ended t) {old : List ι}
    (hold : t.children hub = some old) (hnodup : cs.Nodup)
    (hparent : ∀ d ∈ cs, t.parent d = some hub)
    (htaken : ∀ d ∈ taken', ∃ hub, t.parent d = some hub)
    (hsame : ∀ d, t.parent d ≠ some hub → (d ∈ taken' ↔ d ∈ taken))
    (hstanding : ∀ d, t.parent d = some hub →
      Standing (d ∈ taken) (d ∈ ended) (d ∈ old) (t.live d) →
      Standing (d ∈ taken') (d ∈ ended) (d ∈ cs) (t.live d)) :
    Complete taken' ended (t.relist hub cs) := by
  have hself : (t.relist hub cs).children hub = some cs := Function.update_self _ _ _
  have hother : ∀ {x}, x ≠ hub → (t.relist hub cs).children x = t.children x := fun hx =>
    Function.update_of_ne hx _ _
  refine
    { nodup := fun {x cs'} hx => ?_
      parent_of_mem := fun {x cs' d} hx hd => ?_
      children_of_parent := fun {x d} hx => ?_
      parent_of_live := h.parent_of_live
      parent_of_taken := fun {d} hd => htaken d hd
      parent_of_ended := h.parent_of_ended
      standing := fun {x d} hx => ?_ }
  · by_cases heq : x = hub
    · subst heq
      obtain rfl := Option.some.inj (hself.symm.trans hx)
      exact hnodup
    · rw [hother heq] at hx
      exact h.nodup hx
  · by_cases heq : x = hub
    · subst heq
      obtain rfl := Option.some.inj (hself.symm.trans hx)
      exact hparent d hd
    · rw [hother heq] at hx
      exact h.parent_of_mem hx hd
  · by_cases heq : x = hub
    · subst heq
      exact ⟨cs, hself⟩
    · rw [hother heq]
      exact h.children_of_parent hx
  · have hst := h.standing hx
    by_cases heq : x = hub
    · subst heq
      rw [lists_iff hold] at hst
      rw [lists_iff hself]
      exact hstanding d hx hst
    · have hne : t.parent d ≠ some hub := fun hp => heq (Option.some.inj (hx.symm.trans hp))
      have hlists : (t.relist hub cs).Lists x d ↔ t.Lists x d := by
        rw [Lists, Lists, hother heq]
      rw [hlists, hsame d hne]
      exact hst

/-- **Putting a live node on the list** of its parent. -/
theorem Complete.putOn [DecidableEq ι] (h : Complete (insert d taken) ended t) (hd : d ∉ taken)
    (hlive : t.live d) (hparent : t.parent d = some hub) (hcs : t.children hub = some cs) :
    Complete taken ended (t.relist hub (cs ++ [d])) := by
  have hmem : ∀ {x}, x ≠ d → (x ∈ insert d taken ↔ x ∈ taken) := fun hx => by
    rw [Set.mem_insert_iff, or_iff_right hx]
  have hnot : d ∉ cs := fun hin =>
    (h.standing hparent).listed_of_taken (Set.mem_insert d taken) ((lists_iff hcs).mpr hin)
  refine h.relist hcs ?_ (fun x hx => ?_) (fun x hx => h.parent_of_taken (.inr hx))
    (fun x hx => ?_) fun x _ hst => ?_
  · rw [List.nodup_append]
    refine ⟨h.nodup hcs, List.nodup_singleton d, fun x hx y hy => ?_⟩
    obtain rfl := List.mem_singleton.mp hy
    rintro rfl
    exact hnot hx
  · rcases List.mem_append.mp hx with hx | hx
    · exact h.parent_of_mem hcs hx
    · obtain rfl := List.mem_singleton.mp hx
      exact hparent
  · refine (hmem ?_).symm
    rintro rfl
    exact hx hparent
  · by_cases hx : x = d
    · subst hx
      have hend := h.notMem_ended hlive
      exact
        { listed_of_taken := fun ht => absurd ht hd
          live_of_taken := fun ht => absurd ht hd
          not_live := fun he => absurd he hend
          listed_of_ended := fun he => absurd he hend
          listed_iff := fun _ _ => iff_of_true (by simp) hlive }
    · have hin : x ∈ cs ++ [d] ↔ x ∈ cs := by simp [hx]
      rw [hin]
      rwa [hmem hx] at hst

/-- **Taking a node off the list** of its parent, by itself. -/
theorem Complete.takeOff [DecidableEq ι] (h : Complete taken ended t)
    (hcs : t.children hub = some cs) (hd : d ∈ cs) :
    Complete (insert d taken) ended (t.relist hub (cs.erase d)) := by
  have hparent := h.parent_of_mem hcs hd
  have hnodup := h.nodup hcs
  have hmem : ∀ {x}, x ≠ d → (x ∈ insert d taken ↔ x ∈ taken) := fun hx => by
    rw [Set.mem_insert_iff, or_iff_right hx]
  refine h.relist hcs (hnodup.erase d)
    (fun x hx => h.parent_of_mem hcs (List.mem_of_mem_erase hx)) (fun x hx => ?_)
    (fun x hx => hmem ?_) fun x _ hst => ?_
  · rcases Set.mem_insert_iff.mp hx with rfl | hx
    · exact ⟨hub, hparent⟩
    · exact h.parent_of_taken hx
  · rintro rfl
    exact hx hparent
  · by_cases hx : x = d
    · subst hx
      have hnot : x ∉ taken := fun ht => hst.listed_of_taken ht hd
      exact
        { listed_of_taken := fun _ => hnodup.not_mem_erase
          live_of_taken := fun _ he => (hst.listed_iff hnot he).mp hd
          not_live := hst.not_live
          listed_of_ended := fun _ ht => absurd (Set.mem_insert x taken) ht
          listed_iff := fun ht => absurd (Set.mem_insert x taken) ht }
    · rw [hmem hx, List.mem_erase_of_ne hx]
      exact hst

/-- **Clearing a list**: its nodes are taken off. -/
theorem Complete.clear [DecidableEq ι] (h : Complete taken ended t)
    (hcs : t.children hub = some cs) :
    Complete (taken ∪ {d | d ∈ cs}) ended (t.relist hub []) := by
  refine h.relist hcs List.nodup_nil (fun x hx => absurd hx List.not_mem_nil) (fun x hx => ?_)
    (fun x hx => or_iff_left fun hin => hx (h.parent_of_mem hcs hin)) fun x _ hst => ?_
  · rcases hx with hx | hx
    · exact h.parent_of_taken hx
    · exact ⟨hub, h.parent_of_mem hcs hx⟩
  · by_cases hx : x ∈ cs
    · have hnot : x ∉ taken := fun ht => hst.listed_of_taken ht hx
      exact
        { listed_of_taken := fun _ => List.not_mem_nil
          live_of_taken := fun _ he => (hst.listed_iff hnot he).mp hx
          not_live := hst.not_live
          listed_of_ended := fun _ ht => absurd (.inr hx) ht
          listed_iff := fun ht => absurd (.inr hx) ht }
    · have hmem : x ∈ taken ∪ {d | d ∈ cs} ↔ x ∈ taken := or_iff_left hx
      rw [hmem]
      rwa [iff_false_intro hx, ← iff_false_intro List.not_mem_nil] at hst

/-- A new live node, with its parent and its own list of children, if it may have any. -/
def add [DecidableEq ι] (t : ChildLinks ι) (d hub : ι) (cs : Option (List ι)) : ChildLinks ι where
  parent := Function.update t.parent d (some hub)
  live x := x = d ∨ t.live x
  children := Function.update t.children d cs

section Add

variable [DecidableEq ι] {new : Option (List ι)}

/-- The other parents after a node was added. -/
theorem add_parent_of_ne {x : ι} (hx : x ≠ d) : (t.add d hub new).parent x = t.parent x :=
  Function.update_of_ne hx _ _

/-- The parent of the node that was added. -/
theorem add_parent_self : (t.add d hub new).parent d = some hub := Function.update_self _ _ _

/-- The children of other nodes after one was added. -/
theorem add_children_of_ne {x : ι} (hx : x ≠ d) : (t.add d hub new).children x = t.children x :=
  Function.update_of_ne hx _ _

/-- The children of the node that was added. -/
theorem add_children_self : (t.add d hub new).children d = new := Function.update_self _ _ _

/-- A node that was there keeps its parent. -/
theorem add_parent_of_some {x y : ι} (hparent : t.parent d = none) (hx : t.parent x = some y) :
    x ≠ d ∧ (t.add d hub new).parent x = some y := by
  have hne : x ≠ d := by
    rintro rfl
    rw [hparent] at hx
    cases hx
  exact ⟨hne, (add_parent_of_ne hne).trans hx⟩

/-- A node that was there keeps its list. -/
theorem add_children_of_some {x : ι} (hchildren : t.children d = none)
    (hx : t.children x = some cs) : (t.add d hub new).children x = some cs := by
  have hne : x ≠ d := by
    rintro rfl
    rw [hchildren] at hx
    cases hx
  exact (add_children_of_ne hne).trans hx

/-- The list of the new node is empty, and the others are as they were. -/
theorem add_children_cases {x : ι} (hnew : ∀ cs, new = some cs → cs = [])
    (hx : (t.add d hub new).children x = some cs) : t.children x = some cs ∨ cs = [] := by
  by_cases heq : x = d
  · subst heq
    exact .inr (hnew cs (add_children_self.symm.trans hx))
  · exact .inl ((add_children_of_ne heq).symm.trans hx)

/-- A new node changes nothing about which nodes are listed. -/
theorem lists_add_iff {x y : ι} (hchildren : t.children d = none)
    (hnew : ∀ cs, new = some cs → cs = []) : (t.add d hub new).Lists x y ↔ t.Lists x y := by
  constructor
  · rintro ⟨cs, hcs, hy⟩
    rcases add_children_cases hnew hcs with hcs | rfl
    · exact ⟨cs, hcs, hy⟩
    · exact absurd hy List.not_mem_nil
  · rintro ⟨cs, hcs, hy⟩
    exact ⟨cs, add_children_of_some hchildren hcs, hy⟩

/-- The new node is on no list, and where the others stand does not change. -/
theorem Complete.standing_add (h : Complete taken ended t) (hparent : t.parent d = none)
    {x y : ι} (hy : (t.add d hub new).parent y = some x) :
    Standing (y ∈ insert d taken) (y ∈ ended) (t.Lists x y) (y = d ∨ t.live y) := by
  by_cases hyd : y = d
  · subst hyd
    have hnot : ¬ t.Lists x y := by
      rintro ⟨cs, hcs, hmem⟩
      have hlisted := h.parent_of_mem hcs hmem
      rw [hparent] at hlisted
      cases hlisted
    have hend : y ∉ ended := by
      intro he
      obtain ⟨z, hz⟩ := h.parent_of_ended he
      rw [hparent] at hz
      cases hz
    exact
      { listed_of_taken := fun _ => hnot
        live_of_taken := fun _ _ => .inl rfl
        not_live := fun he => absurd he hend
        listed_of_ended := fun he => absurd he hend
        listed_iff := fun ht => absurd (Set.mem_insert y taken) ht }
  · have hmem : y ∈ insert d taken ↔ y ∈ taken := by
      rw [Set.mem_insert_iff, or_iff_right hyd]
    rw [hmem, or_iff_right hyd]
    exact h.standing ((add_parent_of_ne hyd).symm.trans hy)

/-- **A new node** is on no list yet. -/
theorem Complete.add (h : Complete taken ended t) (hparent : t.parent d = none)
    (hchildren : t.children d = none) (hhub : ∃ cs, t.children hub = some cs)
    (hnew : ∀ cs, new = some cs → cs = []) :
    Complete (insert d taken) ended (t.add d hub new) := by
  have hgrow : ∀ {x}, (∃ y, t.parent x = some y) → ∃ y, (t.add d hub new).parent x = some y := by
    rintro x ⟨y, hy⟩
    exact ⟨y, (add_parent_of_some hparent hy).2⟩
  have hself : ∃ y, (t.add d hub new).parent d = some y := ⟨hub, add_parent_self⟩
  refine
    { nodup := fun {x cs} hcs => ?_
      parent_of_mem := fun {x cs y} hcs hy => ?_
      children_of_parent := fun {x y} hy => ?_
      parent_of_live := fun {x} hx => ?_
      parent_of_taken := fun {x} hx => ?_
      parent_of_ended := fun {x} hx => hgrow (h.parent_of_ended hx)
      standing := fun {x y} hy => ?_ }
  · rcases add_children_cases hnew hcs with hcs | rfl
    · exact h.nodup hcs
    · exact List.nodup_nil
  · rcases add_children_cases hnew hcs with hcs | rfl
    · exact (add_parent_of_some hparent (h.parent_of_mem hcs hy)).2
    · exact absurd hy List.not_mem_nil
  · have hold : ∃ cs, t.children x = some cs := by
      by_cases hyd : y = d
      · subst hyd
        obtain rfl := Option.some.inj (add_parent_self.symm.trans hy)
        exact hhub
      · exact h.children_of_parent ((add_parent_of_ne hyd).symm.trans hy)
    obtain ⟨cs, hcs⟩ := hold
    exact ⟨cs, add_children_of_some hchildren hcs⟩
  · rcases hx with rfl | hx
    · exact hself
    · exact hgrow (h.parent_of_live hx)
  · rcases Set.mem_insert_iff.mp hx with rfl | hx
    · exact hself
    · exact hgrow (h.parent_of_taken hx)
  · rw [lists_add_iff hchildren hnew]
    exact h.standing_add hparent hy

end Add

/-- **A node that is in both sets** is no exception any more. -/
theorem Complete.contract {both : Set ι} (h : Complete (taken ∪ both) (ended ∪ both) t)
    (htaken : ∀ d ∈ both, d ∉ taken) (hended : ∀ d ∈ both, d ∉ ended) :
    Complete taken ended t where
  nodup := h.nodup
  parent_of_mem := h.parent_of_mem
  children_of_parent := h.children_of_parent
  parent_of_live := h.parent_of_live
  parent_of_taken hd := h.parent_of_taken (.inl hd)
  parent_of_ended hd := h.parent_of_ended (.inl hd)
  standing {hub d} hparent := by
    have hst := h.standing hparent
    by_cases hd : d ∈ both
    · have hlisted := hst.listed_of_taken (.inr hd)
      have hlive := hst.not_live (.inr hd)
      exact
        { listed_of_taken := fun _ => hlisted
          live_of_taken := fun ht => absurd ht (htaken d hd)
          not_live := fun _ => hlive
          listed_of_ended := fun he => absurd he (hended d hd)
          listed_iff := fun _ _ => iff_of_false hlisted hlive }
    · have hmem : ∀ s : Set ι, d ∈ s ∪ both ↔ d ∈ s := fun s => or_iff_left hd
      rwa [hmem, hmem] at hst

end ChildLinks

end HydroxKernel
