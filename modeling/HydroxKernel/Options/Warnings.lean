import HydroxKernel.Options.Getters
import Mathlib.Data.List.Nodup
import Mathlib.Tactic.Tauto

/-!
# Warnings about Options

Once the log levels are set, asking for options does not panic. An option that is asked for as a
value that it is not is warned about, but never again, however often and as whatever it is asked
for.

## Main results

* `runs_warnings`: what a run of queries logs.
-/

namespace HydroxKernel.Options

open Log

/-- What the kernel asks its options for. -/
inductive Query : Type 1
  | get (T : Type) [KernelOptionParseable T] (key : List Char)
  | getFlag (key : List Char)
  | iterGroup (T : Type) [KernelOptionParseable T] (group : List Char)

namespace KernelOptions

/-- The state that a query leaves. -/
def query (o : KernelOptions) (s : State) : Query → Except Log.Panic State
  | @Query.get T _ key => do return (← o.get T s key).2
  | .getFlag key => do return (← o.getFlag s key).2
  | @Query.iterGroup T _ group => do return (← o.iterGroup T group s).2

/-- The state that a run of queries leaves. -/
def queries (o : KernelOptions) (s : State) (qs : List Query) : Except Log.Panic State :=
  qs.foldlM o.query s

/-- An option that is there and has no value of the type. -/
def Invalid (T : Type) [KernelOptionParseable T] (o : KernelOptions) (key : List Char) : Prop :=
  ∃ val, o.options[key]? = some val ∧ (parseValueAs T val).join = none

/-- The options that a query finds not to be of its type. A flag needs no value. -/
def Finds (o : KernelOptions) : Query → List Char → Prop
  | @Query.get T _ key, k => k = key ∧ o.Invalid T key
  | .getFlag key, k => k = key ∧ o.options[key]? ≠ some none ∧ o.Invalid Bool key
  | @Query.iterGroup T _ group, k => (∃ rest, k = group ++ '.' :: rest) ∧ o.Invalid T k

/-- The text of the warning about an option. -/
def warning (key : List Char) : List Char :=
  formatMsg .warning "options".toList
    ("Invalid value given for option '".toList ++ key ++ "'".toList)

/-- Warnings are logged. -/
def Warns (levels : LogLevelOptions) : Prop := levels.shouldLog .warning "options".toList = true

instance (levels : LogLevelOptions) : Decidable (Warns levels) :=
  inferInstanceAs (Decidable (_ = true))

/-- The state `s'` comes from `s` by warnings about the options that `found` holds of and that
were not warned about, each once. -/
def Warned (s s' : State) (found : List Char → Prop) : Prop :=
  s'.logLevels = s.logLevels ∧ ∃ keys : List (List Char), keys.Nodup ∧
    (∀ key, key ∈ keys ↔ found key ∧ key ∉ s.warnedInvalid) ∧
    (∀ key, key ∈ s'.warnedInvalid ↔ key ∈ s.warnedInvalid ∨ found key) ∧
    ∀ levels, s.logLevels = some levels →
      s'.messages = s.messages ++ if Warns levels then keys.map warning else []

variable {T : Type} [KernelOptionParseable T] {o : KernelOptions} {s s' s'' : State}
  {levels : LogLevelOptions} {key : List Char} {val : Option (List Char)}
  {found found' : List Char → Prop}

/-! ### One warning -/

/-- Finding nothing is no warning. -/
theorem Warned.refl (s : State) : Warned s s fun _ => False :=
  ⟨rfl, [], List.nodup_nil, fun key => by simp, fun key => by simp, fun levels _ => by
    rw [List.map_nil, ite_self, List.append_nil]⟩

/-- Finding the same options is being warned about the same. -/
theorem Warned.congr (h : Warned s s' found) (heq : ∀ key, found key ↔ found' key) :
    Warned s s' found' := by
  obtain rfl : found = found' := funext fun key => propext (heq key)
  exact h

/-- **Warnings after warnings** are about the options that were found first or then. -/
theorem Warned.trans (h : Warned s s' found) (h' : Warned s' s'' found') :
    Warned s s'' fun key => found key ∨ found' key := by
  obtain ⟨hlevels, keys, hnodup, hkeys, hwarned, hmessages⟩ := h
  obtain ⟨hlevels', keys', hnodup', hkeys', hwarned', hmessages'⟩ := h'
  refine ⟨hlevels'.trans hlevels, keys ++ keys', ?_, fun key => ?_, fun key => ?_, ?_⟩
  · refine List.Nodup.append hnodup hnodup' ?_
    intro key hkey hkey'
    exact ((hkeys' key).mp hkey').2 ((hwarned key).mpr (.inr ((hkeys key).mp hkey).1))
  · rw [List.mem_append, hkeys, hkeys', hwarned]
    tauto
  · rw [hwarned', hwarned, or_assoc]
  · intro levels hl
    rw [hmessages' levels (hlevels.trans hl), hmessages levels hl, List.append_assoc]
    split
    · rw [List.map_append]
    · rw [List.append_nil]

/-- **`warn_invalid_once`** warns about its option. -/
theorem warnInvalidOnce_spec (hs : s.logLevels = some levels) (hkey : key ∈ o.options) :
    ∃ s', o.warnInvalidOnce s key = .ok s' ∧ Warned s s' fun k => k = key := by
  rw [warnInvalidOnce, ensure_pos hkey, ok_bind]
  split
  · rename_i hmem
    refine ⟨s, rfl, rfl, [], List.nodup_nil, fun k => ?_, fun k => ?_, fun levels _ => ?_⟩
    · simp only [List.not_mem_nil, false_iff, not_and, not_not]
      rintro rfl
      exact hmem
    · refine ⟨.inl, fun h => h.elim id ?_⟩
      rintro rfl
      exact hmem
    · rw [List.map_nil, ite_self, List.append_nil]
  · rename_i hmem
    rw [warnInvalid, State.log, State.shouldLog, hs]
    dsimp only
    rw [ok_bind]
    have hkeys : ∀ k, k ∈ [key] ↔ k = key ∧ k ∉ s.warnedInvalid := by
      intro k
      rw [List.mem_singleton]
      refine ⟨?_, fun h => h.1⟩
      rintro rfl
      exact ⟨rfl, hmem⟩
    have hinsert : ∀ k, k ∈ s.warnedInvalid.insert key ↔ k ∈ s.warnedInvalid ∨ k = key := by
      intro k
      rw [Std.TreeSet.mem_insert, Std.LawfulEqCmp.compare_eq_iff_eq, or_comm, eq_comm]
    split
    · rename_i hwarns
      refine ⟨_, rfl, hs.symm, [key], List.nodup_singleton key, hkeys, hinsert,
        fun levels' h => ?_⟩
      obtain rfl := Option.some.inj (hs.symm.trans h)
      rw [if_pos (show Warns levels from hwarns)]
      rfl
    · rename_i hwarns
      refine ⟨_, rfl, hs.symm, [key], List.nodup_singleton key, hkeys, hinsert,
        fun levels' h => ?_⟩
      obtain rfl := Option.some.inj (hs.symm.trans h)
      rw [if_neg (show ¬ Warns levels from hwarns), List.append_nil]

/-! ### Queries -/

/-- **Reading a value** warns about the option if it is none of the type. -/
theorem readValue_spec (hs : s.logLevels = some levels) (hval : o.options[key]? = some val) :
    ∃ r s', o.readValue T s key val = .ok (r, s') ∧
      Warned s s' fun k => k = key ∧ o.Invalid T key := by
  have hinvalid : o.Invalid T key ↔ (parseValueAs T val).join = none := by
    refine ⟨?_, fun h => ⟨val, hval, h⟩⟩
    rintro ⟨val', hval', h⟩
    obtain rfl := Option.some.inj (hval.symm.trans hval')
    exact h
  cases hjoin : (parseValueAs T val).join with
  | some v =>
      refine ⟨some v, s, readValue_valid (Option.join_eq_some_iff.mp hjoin), ?_⟩
      refine (Warned.refl s).congr fun k => ⟨False.elim, fun h => ?_⟩
      rw [hinvalid, hjoin] at h
      cases h.2
  | none =>
      have hkey : key ∈ o.options := by
        rw [Std.TreeMap.mem_iff_isSome_getElem?, hval]
        rfl
      obtain ⟨s', hs', hwarned⟩ := warnInvalidOnce_spec hs hkey
      refine ⟨none, s', by rw [readValue_invalid hjoin, hs']; rfl, ?_⟩
      exact hwarned.congr fun k => ⟨fun h => ⟨h, hinvalid.mpr hjoin⟩, fun h => h.1⟩

/-- `get` warns about the option it is asked for. -/
theorem get_spec (hs : s.logLevels = some levels) (key : List Char) :
    ∃ r s', o.get T s key = .ok (r, s') ∧ Warned s s' (o.Finds (.get T key)) := by
  cases hval : o.options[key]? with
  | some val =>
      rw [get_of_some hval]
      exact readValue_spec hs hval
  | none =>
      refine ⟨none, s, get_of_none hval, (Warned.refl s).congr fun k => ⟨False.elim, ?_⟩⟩
      rintro ⟨-, val, hval', -⟩
      rw [hval] at hval'
      cases hval'

/-- `get_flag` warns about the option it is asked for, unless that has no value. -/
theorem getFlag_spec (hs : s.logLevels = some levels) (key : List Char) :
    ∃ r s', o.getFlag s key = .ok (r, s') ∧ Warned s s' (o.Finds (.getFlag key)) := by
  by_cases hval : o.options[key]? = some none
  · refine ⟨some true, s, getFlag_of_none hval, (Warned.refl s).congr fun k => ⟨False.elim, ?_⟩⟩
    rintro ⟨-, hne, -⟩
    exact hne hval
  · obtain ⟨r, s', hr, hwarned⟩ := get_spec (T := Bool) hs key
    refine ⟨r, s', (getFlag_eq_get hval).trans hr, hwarned.congr fun k => ?_⟩
    exact ⟨fun h => ⟨h.1, hval, h.2⟩, fun h => ⟨h.1, h.2.2⟩⟩

/-- An option is warned about by `iter_group` if it belongs to the group. -/
theorem groupItem_spec (hs : s.logLevels = some levels) (hval : o.options[key]? = some val)
    (group : List Char) :
    ∃ r s', o.groupItem T group s (key, val) = .ok (r, s') ∧
      Warned s s' fun k => k = key ∧ o.Finds (.iterGroup T group) k := by
  cases hrest : groupRest group key with
  | none =>
      refine ⟨none, s, groupItem_of_none hrest, (Warned.refl s).congr fun k => ⟨False.elim, ?_⟩⟩
      rintro ⟨rfl, ⟨rest, hkey⟩, -⟩
      rw [groupRest_eq_some_iff.mpr hkey] at hrest
      cases hrest
  | some rest =>
      obtain ⟨v, s', hv, hwarned⟩ := readValue_spec (T := T) hs hval
      refine ⟨some (rest, v), s', by rw [groupItem_of_rest hrest, hv]; rfl, hwarned.congr ?_⟩
      intro k
      constructor
      · rintro ⟨rfl, hinvalid⟩
        exact ⟨rfl, ⟨rest, groupRest_eq_some_iff.mp hrest⟩, hinvalid⟩
      · rintro ⟨rfl, -, hinvalid⟩
        exact ⟨rfl, hinvalid⟩

/-- The loop of `iter_group` warns about those of its options that belong to the group. -/
theorem groupItems_spec (group : List Char) {items : List (List Char × Option (List Char))}
    (hitems : ∀ kv ∈ items, o.options[kv.1]? = some kv.2) (acc : List (List Char × Option T))
    (hs : s.logLevels = some levels) :
    ∃ r s', items.foldlM (fun r kv => do
        let (item, s) ← o.groupItem T group r.2 kv
        return (r.1 ++ item.toList, s)) (acc, s) = .ok (r, s') ∧
      Warned s s' fun k => k ∈ items.map Prod.fst ∧ o.Finds (.iterGroup T group) k := by
  induction items generalizing acc s with
  | nil => exact ⟨acc, s, rfl, (Warned.refl s).congr fun k => by simp⟩
  | cons kv items ih =>
      obtain ⟨item, s₁, hitem, hwarned₁⟩ :=
        groupItem_spec (T := T) hs (hitems kv (List.mem_cons_self ..)) group
      obtain ⟨r, s₂, hr, hwarned₂⟩ := ih (fun kv' h => hitems kv' (List.mem_cons_of_mem _ h))
        (acc ++ item.toList) (hwarned₁.1.trans hs)
      refine ⟨r, s₂, ?_, (hwarned₁.trans hwarned₂).congr fun k => ?_⟩
      · rw [List.foldlM_cons]
        dsimp only
        rw [hitem]
        exact hr
      · rw [List.map_cons, List.mem_cons]
        tauto

/-- `iter_group` warns about the options of its group. -/
theorem iterGroup_spec (hs : s.logLevels = some levels) (group : List Char) :
    ∃ r s', o.iterGroup T group s = .ok (r, s') ∧ Warned s s' (o.Finds (.iterGroup T group)) := by
  have hitems : ∀ kv ∈ o.iter, o.options[kv.1]? = some kv.2 :=
    fun kv h => Std.TreeMap.mem_toList_iff_getElem?_eq_some.mp h
  obtain ⟨r, s', hr, hwarned⟩ := groupItems_spec (T := T) group hitems [] hs
  refine ⟨r, s', hr, hwarned.congr fun k => ⟨fun h => h.2, fun h => ⟨?_, h⟩⟩⟩
  obtain ⟨-, val, hval, -⟩ := h
  exact List.mem_map_of_mem (Std.TreeMap.mem_toList_iff_getElem?_eq_some.mpr hval)

/-- **A query** returns and warns about what it finds. -/
theorem query_spec (hs : s.logLevels = some levels) (q : Query) :
    ∃ s', o.query s q = .ok s' ∧ Warned s s' (o.Finds q) := by
  cases q with
  | get T key =>
      obtain ⟨r, s', hr, hwarned⟩ := get_spec (T := T) (o := o) hs key
      exact ⟨s', by rw [query, hr]; rfl, hwarned⟩
  | getFlag key =>
      obtain ⟨r, s', hr, hwarned⟩ := getFlag_spec (o := o) hs key
      exact ⟨s', by rw [query, hr]; rfl, hwarned⟩
  | iterGroup T group =>
      obtain ⟨r, s', hr, hwarned⟩ := iterGroup_spec (T := T) (o := o) hs group
      exact ⟨s', by rw [query, hr]; rfl, hwarned⟩

/-- A run of queries returns and warns about what its queries find. -/
theorem queries_spec (hs : s.logLevels = some levels) (qs : List Query) :
    ∃ s', o.queries s qs = .ok s' ∧ Warned s s' fun key => ∃ q ∈ qs, o.Finds q key := by
  induction qs generalizing s with
  | nil => exact ⟨s, rfl, (Warned.refl s).congr fun key => by simp⟩
  | cons q qs ih =>
      obtain ⟨s₁, hq, hwarned₁⟩ := query_spec (o := o) hs q
      obtain ⟨s₂, hqs, hwarned₂⟩ := ih (hwarned₁.1.trans hs)
      refine ⟨s₂, ?_, (hwarned₁.trans hwarned₂).congr fun key => ?_⟩
      · rw [queries, List.foldlM_cons, hq]
        exact hqs
      · rw [List.exists_mem_cons_iff]

/-- **What is warned about**: in a run of queries after the log levels are set, nothing panics,
and what is logged is one warning for each option that some query asked for as a value that it
is not. -/
theorem runs_warnings (o : KernelOptions) (levels : LogLevelOptions) (messages : List (List Char))
    (qs : List Query) :
    ∃ (s : State) (keys : List (List Char)),
      o.queries ⟨some levels, ∅, messages⟩ qs = .ok s ∧ keys.Nodup ∧
      (∀ key, key ∈ keys ↔ ∃ q ∈ qs, o.Finds q key) ∧
      s.messages = messages ++ if Warns levels then keys.map warning else [] := by
  obtain ⟨s, hs, -, keys, hnodup, hkeys, -, hmessages⟩ :=
    queries_spec (s := ⟨some levels, ∅, messages⟩) (o := o) rfl qs
  refine ⟨s, keys, hs, hnodup, fun key => ?_, hmessages levels rfl⟩
  rw [hkeys]
  exact and_iff_left Std.TreeSet.not_mem_emptyc

end KernelOptions

end HydroxKernel.Options
