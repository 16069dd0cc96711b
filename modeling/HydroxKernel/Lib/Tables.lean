import Mathlib.Data.List.Infix
import Mathlib.Logic.Function.Basic

/-!
# Trees of Tables in a Memory

A memory `mem : ν → ι → ε` holds a table of entries under every name. A table has a height,
and an entry of a table of height `k` may point to a table of height `k - 1`, by
`child k : ε → Option ν`; what a memory means is found by walking from a root along a list of
indices until an entry points no further. This module says what a write does to such walks,
over arbitrary types of names, indices and entries.

* `stop child mem t i rest`: the entry at which the walk from the entry `i` of `t` along `rest`
  stops, with its height.
* `Reaches child mem h root path t`: the walk from `root`, a table of height `h`, along `path`
  leads to the table `t`.
* `IsTree child mem h root`: no table is reached along two paths.

## Main results

* `stop_congr`: only the entries along a walk matter for it.
* `reaches_write`, `stop_write`: writing an entry that points nowhere, and that pointed nowhere
  before, changes no path and only the walks through it.
* `reaches_link`, `stop_link`: making an entry point to an empty table that was not reached
  adds that table, and changes only the walks that stopped at the entry: they now stop at an
  empty one.
-/

namespace HydroxKernel.Tables

variable {ν ι ε : Type*} {child : ℕ → ε → Option ν} {mem mem' : ν → ι → ε} {h : ℕ} {root : ν}

/-! ### Walks -/

/-- The entry at which the walk from the entry `i` of the table `t` along `rest` stops, with
its height. -/
def stop (child : ℕ → ε → Option ν) (mem : ν → ι → ε) : ν → ι → List ι → ℕ × ε
  | t, i, [] => (0, mem t i)
  | t, i, j :: rest =>
      match child (rest.length + 1) (mem t i) with
      | none => (rest.length + 1, mem t i)
      | some t' => stop child mem t' j rest

/-- The walk from `root`, a table of height `h`, along `path` leads to a table. -/
inductive Reaches (child : ℕ → ε → Option ν) (mem : ν → ι → ε) (h : ℕ) (root : ν) :
    List ι → ν → Prop
  | root : Reaches child mem h root [] root
  | child {path : List ι} {t t' : ν} {i : ι} (hpath : Reaches child mem h root path t)
      (hlen : path.length < h) (ht' : child (h - path.length) (mem t i) = some t') :
      Reaches child mem h root (path ++ [i]) t'

/-- No table is reached along two paths. -/
def IsTree (child : ℕ → ε → Option ν) (mem : ν → ι → ε) (h : ℕ) (root : ν) : Prop :=
  ∀ {p q t}, Reaches child mem h root p t → Reaches child mem h root q t → p = q

/-- The table is not reached. -/
def Unreached (child : ℕ → ε → Option ν) (mem : ν → ι → ε) (h : ℕ) (root t : ν) : Prop :=
  ∀ path, ¬ Reaches child mem h root path t

/-- A walk that stops at once. -/
theorem stop_of_none {t : ν} {i : ι} {rest : List ι} (hi : child rest.length (mem t i) = none) :
    stop child mem t i rest = (rest.length, mem t i) := by
  cases rest with
  | nil => rfl
  | cons j rest =>
      rw [List.length_cons] at hi
      simp only [stop, hi, List.length_cons]

/-- A walk that goes on. -/
theorem stop_of_some {t t' : ν} {i j : ι} {rest : List ι}
    (hi : child (rest.length + 1) (mem t i) = some t') :
    stop child mem t i (j :: rest) = stop child mem t' j rest := by
  simp only [stop, hi]

/-- A walk along a path to a table goes on from that table. -/
theorem stop_append {p : List ι} {t : ν} {i : ι} {rest : List ι}
    (ht : Reaches child mem h root p t) (hlen : p.length + rest.length = h) :
    ∃ j rest', p ++ i :: rest = j :: rest' ∧
      stop child mem root j rest' = stop child mem t i rest := by
  induction ht generalizing i rest with
  | root => exact ⟨i, rest, rfl, rfl⟩
  | @child path t t' k _ _ ht' ih =>
      rw [List.length_append, List.length_singleton] at hlen
      have hheight : h - path.length = rest.length + 1 := by omega
      rw [hheight] at ht'
      obtain ⟨j, rest', heq, hstop⟩ := @ih k (i :: rest) (by
        rw [List.length_cons]
        omega)
      refine ⟨j, rest', ?_, hstop.trans (stop_of_some ht')⟩
      rw [List.append_assoc]
      exact heq

/-- Only the entries along a walk matter for it. -/
theorem stop_congr {p : List ι} {t : ν} {i : ι} {rest : List ι}
    (ht : Reaches child mem h root p t) (hlen : p.length + rest.length = h)
    (hsame : ∀ p' t' i', Reaches child mem h root p' t' → p' ++ [i'] <+: p ++ i :: rest →
      mem' t' i' = mem t' i') :
    stop child mem' t i rest = stop child mem t i rest := by
  induction rest generalizing p t i with
  | nil => rw [stop, stop, hsame p t i ht (List.prefix_refl _)]
  | cons j rest ih =>
      have hi : mem' t i = mem t i := hsame p t i ht
        ⟨j :: rest, by rw [List.append_assoc, List.singleton_append]⟩
      rw [List.length_cons] at hlen
      cases hc : child (rest.length + 1) (mem t i) with
      | none =>
          have hnone : child (j :: rest).length (mem t i) = none := hc
          have hnone' : child (j :: rest).length (mem' t i) = none := by rw [hi]; exact hc
          rw [stop_of_none hnone, stop_of_none hnone', hi]
      | some t' =>
          rw [stop_of_some hc, stop_of_some (by rw [hi]; exact hc)]
          have hheight : h - p.length = rest.length + 1 := by omega
          refine ih (.child ht (by omega) (by rw [hheight]; exact hc)) ?_ ?_
          · rw [List.length_append, List.length_singleton]
            omega
          · intro p' t'' i' hp' hpre
            refine hsame p' t'' i' hp' ?_
            rwa [List.append_assoc, List.singleton_append] at hpre

/-! ### Writing an entry -/

section Write

variable [DecidableEq ν] [DecidableEq ι]

/-- Writes an entry. -/
def write (mem : ν → ι → ε) (t : ν) (i : ι) (e : ε) : ν → ι → ε :=
  Function.update mem t (Function.update (mem t) i e)

/-- Reads an entry after a write. -/
theorem write_apply (mem : ν → ι → ε) (t : ν) (i : ι) (e : ε) (t' : ν) (i' : ι) :
    write mem t i e t' i' = if t' = t ∧ i' = i then e else mem t' i' := by
  by_cases ht : t' = t
  · subst ht
    by_cases hi : i' = i
    · rw [write, Function.update_self, hi, Function.update_self, if_pos ⟨rfl, rfl⟩]
    · rw [write, Function.update_self, Function.update_of_ne hi, if_neg fun hand => hi hand.2]
  · rw [write, Function.update_of_ne ht, if_neg fun hand => ht hand.1]

variable {p : List ι} {t : ν} {i : ι} {e : ε}

/-- Writing an entry that points nowhere, and that pointed nowhere before, changes no path. -/
theorem reaches_write (htree : IsTree child mem h root) (ht : Reaches child mem h root p t)
    (hold : p.length < h → child (h - p.length) (mem t i) = none)
    (hnew : p.length < h → child (h - p.length) e = none) {q : List ι} {u : ν} :
    Reaches child (write mem t i e) h root q u ↔ Reaches child mem h root q u := by
  constructor
  · intro hq
    induction hq with
    | root => exact .root
    | @child path t₁ t₂ k _ hlen ht₂ ih =>
        rw [write_apply] at ht₂
        split at ht₂
        · rename_i hand
          obtain ⟨rfl, rfl⟩ := hand
          obtain rfl := htree ih ht
          rw [hnew hlen] at ht₂
          cases ht₂
        · exact .child ih hlen ht₂
  · intro hq
    induction hq with
    | root => exact .root
    | @child path t₁ t₂ k hpath hlen ht₂ ih =>
        refine .child ih hlen ?_
        rw [write_apply, if_neg]
        · exact ht₂
        · rintro ⟨rfl, rfl⟩
          obtain rfl := htree hpath ht
          rw [hold hlen] at ht₂
          cases ht₂

/-- Writing an entry changes only the walks through it. -/
theorem stop_write (htree : IsTree child mem h root) (ht : Reaches child mem h root p t) {j : ι}
    {rest : List ι} (hlen : rest.length = h) (hq : ¬ p ++ [i] <+: j :: rest) :
    stop child (write mem t i e) root j rest = stop child mem root j rest := by
  refine stop_congr .root (by rw [List.length_nil, Nat.zero_add, hlen]) ?_
  intro p' t' i' hp' hpre
  rw [write_apply, if_neg]
  rintro ⟨rfl, rfl⟩
  obtain rfl := htree hp' ht
  exact hq hpre

/-! ### Making a table -/

/-- Writes an empty table under the name `n`, and makes the entry `i` of `t` point to it. -/
def link (mem : ν → ι → ε) (empty : ε) (n t : ν) (i : ι) (e : ε) : ν → ι → ε :=
  write (Function.update mem n fun _ => empty) t i e

variable {n : ν} {empty : ε}

/-- Reads an entry of a table that was reached. -/
theorem link_apply (hn : Unreached child mem h root n) {q : List ι} {u : ν}
    (hu : Reaches child mem h root q u) (i' : ι) :
    link mem empty n t i e u i' = if u = t ∧ i' = i then e else mem u i' := by
  have hne : u ≠ n := by
    rintro rfl
    exact hn q hu
  rw [link, write_apply, Function.update_of_ne hne]

/-- Reads an entry of the table that was made. -/
theorem link_apply_new (hn : Unreached child mem h root n) (ht : Reaches child mem h root p t)
    (i' : ι) : link mem empty n t i e n i' = empty := by
  have hne : n ≠ t := by
    rintro rfl
    exact hn p ht
  rw [link, write_apply, if_neg fun hand => hne hand.1, Function.update_self]

/-- What `link` asks for: a table that was not reached, and an entry of a reached table that
pointed nowhere and will point to it. Empty entries point nowhere. -/
structure Linkable (child : ℕ → ε → Option ν) (mem : ν → ι → ε) (h : ℕ) (root : ν) (empty : ε)
    (n : ν) (p : List ι) (t : ν) (i : ι) (e : ε) : Prop where
  tree : IsTree child mem h root
  unreached : Unreached child mem h root n
  reaches : Reaches child mem h root p t
  length_lt : p.length < h
  pointsNowhere : child (h - p.length) (mem t i) = none
  pointsToNew : child (h - p.length) e = some n
  empty : ∀ k, child k empty = none

/-- `link` adds the table it makes. -/
theorem reaches_link (hl : Linkable child mem h root empty n p t i e) {q : List ι} {u : ν} :
    Reaches child (link mem empty n t i e) h root q u ↔
      Reaches child mem h root q u ∨ (q = p ++ [i] ∧ u = n) := by
  have hkeep : ∀ {q u}, Reaches child mem h root q u →
      Reaches child (link mem empty n t i e) h root q u := by
    intro q u hq
    induction hq with
    | root => exact .root
    | @child path t₁ t₂ k hpath hlen ht₂ ih =>
        refine .child ih hlen ?_
        rw [link_apply hl.unreached hpath, if_neg]
        · exact ht₂
        · rintro ⟨rfl, rfl⟩
          obtain rfl := hl.tree hpath hl.reaches
          rw [hl.pointsNowhere] at ht₂
          cases ht₂
  constructor
  · intro hq
    induction hq with
    | root => exact .inl .root
    | @child path t₁ t₂ k _ hlen ht₂ ih =>
        rcases ih with hpath | ⟨rfl, rfl⟩
        · rw [link_apply hl.unreached hpath] at ht₂
          split at ht₂
          · rename_i hand
            obtain ⟨rfl, rfl⟩ := hand
            obtain rfl := hl.tree hpath hl.reaches
            rw [hl.pointsToNew] at ht₂
            exact .inr ⟨rfl, (Option.some.inj ht₂).symm⟩
          · exact .inl (.child hpath hlen ht₂)
        · rw [link_apply_new hl.unreached hl.reaches, hl.empty] at ht₂
          cases ht₂
  · rintro (hq | ⟨rfl, rfl⟩)
    · exact hkeep hq
    · refine .child (hkeep hl.reaches) hl.length_lt ?_
      rw [link_apply hl.unreached hl.reaches, if_pos ⟨rfl, rfl⟩]
      exact hl.pointsToNew

/-- `link` keeps a tree. -/
theorem IsTree.link (hl : Linkable child mem h root empty n p t i e) :
    IsTree child (link mem empty n t i e) h root := by
  intro q q' u hq hq'
  rcases (reaches_link hl).mp hq with hold | ⟨rfl, rfl⟩
  · rcases (reaches_link hl).mp hq' with hold' | ⟨rfl, rfl⟩
    · exact hl.tree hold hold'
    · exact absurd hold (hl.unreached q)
  · rcases (reaches_link hl).mp hq' with hold' | ⟨rfl, -⟩
    · exact absurd hold' (hl.unreached q')
    · rfl

/-- `link` changes only the walks that stopped at the entry it writes: they now stop at an
empty one. -/
theorem stop_link (hl : Linkable child mem h root empty n p t i e) {j : ι} {rest : List ι}
    (hlen : rest.length = h) :
    stop child (link mem empty n t i e) root j rest = stop child mem root j rest ∨
      (stop child mem root j rest).2 = mem t i ∧
        (stop child mem root j rest).1 = h - p.length ∧
        (stop child (link mem empty n t i e) root j rest).2 = empty := by
  have hlt := hl.length_lt
  by_cases hpre : p ++ [i] <+: j :: rest
  · right
    obtain ⟨rest', heq⟩ := hpre
    rw [List.append_assoc, List.singleton_append] at heq
    have hlen' : p.length + rest'.length = h := by
      have := congrArg List.length heq
      simp only [List.length_append, List.length_cons] at this
      omega
    obtain ⟨j₁, rest₁, heq₁, hstop⟩ := stop_append (i := i) hl.reaches hlen'
    rw [heq, List.cons.injEq] at heq₁
    obtain ⟨rfl, rfl⟩ := heq₁
    have hheight : h - p.length = rest'.length := by omega
    have hold := hl.pointsNowhere
    rw [hheight] at hold
    rw [hstop, stop_of_none hold, hheight]
    refine ⟨rfl, rfl, ?_⟩
    cases rest' with
    | nil =>
        rw [List.length_nil] at hlen'
        omega
    | cons j₂ rest₂ =>
        have hnew : Reaches child (link mem empty n t i e) h root (p ++ [i]) n :=
          (reaches_link hl).mpr (.inr ⟨rfl, rfl⟩)
        rw [List.length_cons] at hlen'
        obtain ⟨j₃, rest₃, heq₃, hstop₃⟩ : ∃ j rest', p ++ [i] ++ j₂ :: rest₂ = j :: rest' ∧
            stop child (link mem empty n t i e) root j rest' =
              stop child (link mem empty n t i e) n j₂ rest₂ := by
          refine stop_append hnew ?_
          rw [List.length_append, List.length_singleton]
          omega
        rw [List.append_assoc, List.singleton_append, heq, List.cons.injEq] at heq₃
        obtain ⟨rfl, rfl⟩ := heq₃
        have hempty : link mem empty n t i e n j₂ = empty :=
          link_apply_new hl.unreached hl.reaches j₂
        rw [hstop₃, stop_of_none (by rw [hempty]; exact hl.empty _), hempty]
  · left
    refine stop_congr .root (by rw [List.length_nil, Nat.zero_add, hlen]) ?_
    intro p' t' i' hp' hpre'
    rw [link_apply hl.unreached hp', if_neg]
    rintro ⟨rfl, rfl⟩
    obtain rfl := hl.tree hp' hl.reaches
    exact hpre hpre'

end Write

end HydroxKernel.Tables
