import HydroxKernel.Options.Getters
import HydroxKernel.Options.Render

/-!
# Setting the Log Levels

`init` reads the log levels from the kernel's options: `loglevel` is the default level, and
`loglevel.m` the level of the module `m`. An option that is no level makes it warn, and the
warning asks for the levels that are not set yet.

## Main results

* `init_shouldLog`: when `init` returns, and what is logged then.
-/

namespace HydroxKernel.Log

open Str Options

/-- The key of the default level, and the group of the levels of modules. -/
def loglevel : List Char := "loglevel".toList

/-- The pairs of an iterator of a group that have a value. -/
def withValues {T : Type} (items : List (List Char × Option T)) : List (List Char × T) :=
  items.filterMap fun kv => kv.2.map fun v => (kv.1, v)

/-- `init`. -/
def init (o : KernelOptions) (s : State) : Except Panic State := do
  let (default, s) ← o.get LogLevel s loglevel
  let (group, s) ← o.iterGroup LogLevel loglevel s
  ensure (s.logLevels.isNone = true) .initializedTwice
  return { s with logLevels := some ⟨default.getD .info, .ofList (withValues group)⟩ }

/-- The key of the level of a module. -/
def moduleKey (module : List Char) : List Char := loglevel ++ '.' :: module

/-- The level that an option sets, if it sets one. -/
def optionLevel (o : KernelOptions) (key : List Char) : Option LogLevel :=
  o.options[key]?.bind fun val => (parseValueAs LogLevel val).bind id

/-- The level that the options set for a module. -/
def configuredLevel (o : KernelOptions) (module : List Char) : LogLevel :=
  (optionLevel o (moduleKey module)).getD ((optionLevel o loglevel).getD .info)

/-- An option that sets a level. -/
def IsLevelKey (key : List Char) : Prop := key = loglevel ∨ ∃ module, key = moduleKey module

/-- Every option that sets a level has a value that is one. -/
def LevelsValid (o : KernelOptions) : Prop :=
  ∀ key ∈ o.options, IsLevelKey key → (optionLevel o key).isSome = true

variable {o : KernelOptions} {key module : List Char} {val : Option (List Char)} {lvl : LogLevel}

/-- The key of the level of a module is one of the group, with the module as its rest. -/
theorem groupRest_loglevel_iff :
    KernelOptions.groupRest loglevel key = some module ↔ key = moduleKey module :=
  KernelOptions.groupRest_eq_some_iff

/-- An option that is there has its value. -/
theorem optionLevel_of_some (h : o.options[key]? = some val) :
    optionLevel o key = (parseValueAs LogLevel val).join := by
  rw [optionLevel, h, Option.bind_some]
  rfl

/-- An option that is not there sets no level. -/
theorem optionLevel_of_none (h : o.options[key]? = none) : optionLevel o key = none := by
  rw [optionLevel, h, Option.bind_none]

/-! ### Options before the levels are set -/

/-- **A warning** before the levels are set panics. -/
theorem warnInvalidOnce_new (hkey : key ∈ o.options) :
    o.warnInvalidOnce .new key = .error .uninitialized := by
  have hnew : key ∉ State.new.warnedInvalid := Std.TreeSet.not_mem_emptyc
  rw [KernelOptions.warnInvalidOnce, ensure_pos hkey, ok_bind, if_neg hnew]
  rfl

/-- An option that is a level is read. -/
theorem readValue_new_valid (h : o.options[key]? = some val) (hlvl : optionLevel o key = some lvl) :
    o.readValue LogLevel .new key val = .ok (some lvl, .new) := by
  rw [optionLevel_of_some h, Option.join_eq_some_iff] at hlvl
  exact KernelOptions.readValue_valid hlvl

/-- **Reading an option** that is no level panics. -/
theorem readValue_new_invalid (h : o.options[key]? = some val) (hlvl : optionLevel o key = none) :
    o.readValue LogLevel .new key val = .error .uninitialized := by
  have hkey : key ∈ o.options := by
    rw [Std.TreeMap.mem_iff_isSome_getElem?, h]
    rfl
  rw [optionLevel_of_some h] at hlvl
  rw [KernelOptions.readValue_invalid hlvl, warnInvalidOnce_new hkey]
  rfl

/-! ### The group of the levels of modules -/

/-- The module and the level of an option that sets one. -/
def moduleLevel (kv : List Char × Option (List Char)) : Option (List Char × LogLevel) :=
  (KernelOptions.groupRest loglevel kv.1).bind fun module =>
    (parseValueAs LogLevel kv.2).join.map fun lvl => (module, lvl)

/-- The options that set the levels of modules are levels. -/
def ModulesValid (o : KernelOptions) (items : List (List Char × Option (List Char))) : Prop :=
  ∀ kv ∈ items, ∀ module, kv.1 = moduleKey module → (optionLevel o kv.1).isSome = true

/-- The loop of `iter_group`. -/
def groupLoop (o : KernelOptions) (r : List (List Char × Option LogLevel) × State)
    (items : List (List Char × Option (List Char))) :
    Except Panic (List (List Char × Option LogLevel) × State) :=
  items.foldlM (fun r kv => do
    let (item, s) ← o.groupItem LogLevel loglevel r.2 kv
    return (r.1 ++ item.toList, s)) r

variable {items : List (List Char × Option (List Char))}

/-- The levels of modules that are collected from a list are those before the list and those in
it. -/
theorem groupLoop_valid (acc : List (List Char × Option LogLevel))
    (hitems : ∀ kv ∈ items, o.options[kv.1]? = some kv.2) (h : ModulesValid o items) :
    ∃ r, groupLoop o (acc, .new) items = .ok (r, .new) ∧
      withValues r = withValues acc ++ items.filterMap moduleLevel := by
  induction items generalizing acc with
  | nil => exact ⟨acc, rfl, by simp⟩
  | cons kv items ih =>
      have hkv := hitems kv (List.mem_cons_self ..)
      have ih' := fun acc => ih acc (fun kv' hkv' => hitems kv' (List.mem_cons_of_mem _ hkv'))
        fun kv' hkv' => h kv' (List.mem_cons_of_mem _ hkv')
      rw [groupLoop, List.foldlM_cons]
      cases hrest : KernelOptions.groupRest loglevel kv.1 with
      | none =>
          obtain ⟨r, hr, hlevels⟩ := ih' acc
          refine ⟨r, ?_, ?_⟩
          · rw [KernelOptions.groupItem_of_none hrest, ok_bind, pure_bind, Option.toList_none,
              List.append_nil]
            exact hr
          · rw [hlevels, List.filterMap_cons_none (by rw [moduleLevel, hrest, Option.bind_none])]
      | some module =>
          have hvalid := h kv (List.mem_cons_self ..) module (groupRest_loglevel_iff.mp hrest)
          obtain ⟨lvl, hlvl⟩ := Option.isSome_iff_exists.mp hvalid
          obtain ⟨r, hr, hlevels⟩ := ih' (acc ++ [(module, some lvl)])
          refine ⟨r, ?_, ?_⟩
          · rw [KernelOptions.groupItem_of_rest hrest, readValue_new_valid hkv hlvl]
            exact hr
          · rw [optionLevel_of_some hkv] at hlvl
            rw [hlevels, List.filterMap_cons_some (by
              rw [moduleLevel, hrest, Option.bind_some, hlvl, Option.map_some]), withValues,
              withValues, List.filterMap_append, List.append_assoc]
            rfl

/-- **Collecting the levels** of modules panics if an option of the group is no level. -/
theorem groupLoop_invalid (acc : List (List Char × Option LogLevel))
    (hitems : ∀ kv ∈ items, o.options[kv.1]? = some kv.2) (h : ¬ ModulesValid o items) :
    groupLoop o (acc, .new) items = .error .uninitialized := by
  induction items generalizing acc with
  | nil => exact absurd (fun kv hkv => absurd hkv List.not_mem_nil) h
  | cons kv items ih =>
      have hkv := hitems kv (List.mem_cons_self ..)
      have ih' := fun acc => ih acc fun kv' hkv' => hitems kv' (List.mem_cons_of_mem _ hkv')
      rw [groupLoop, List.foldlM_cons]
      cases hrest : KernelOptions.groupRest loglevel kv.1 with
      | none =>
          rw [KernelOptions.groupItem_of_none hrest, ok_bind, pure_bind, Option.toList_none,
            List.append_nil]
          refine ih' acc fun hvalid => h ?_
          intro kv' hkv' module hmodule
          rcases List.mem_cons.mp hkv' with rfl | hkv'
          · rw [groupRest_loglevel_iff.mpr hmodule] at hrest
            cases hrest
          · exact hvalid kv' hkv' module hmodule
      | some module =>
          rw [KernelOptions.groupItem_of_rest hrest]
          cases hlvl : optionLevel o kv.1 with
          | none =>
              rw [readValue_new_invalid hkv hlvl]
              rfl
          | some lvl =>
              rw [readValue_new_valid hkv hlvl]
              refine ih' _ fun hvalid => h ?_
              intro kv' hkv' module' hmodule
              rcases List.mem_cons.mp hkv' with rfl | hkv'
              · rw [hlvl]
                rfl
              · exact hvalid kv' hkv' module' hmodule

/-! ### The levels that are set -/

/-- An option sets the level of a module by its key and its value. -/
theorem moduleLevel_eq_some_iff {kv : List Char × Option (List Char)} :
    moduleLevel kv = some (module, lvl) ↔
      kv.1 = moduleKey module ∧ (parseValueAs LogLevel kv.2).join = some lvl := by
  rw [moduleLevel, Option.bind_eq_some_iff]
  constructor
  · rintro ⟨module', hrest, hlvl⟩
    obtain ⟨lvl', hlvl', heq⟩ := Option.map_eq_some_iff.mp hlvl
    obtain ⟨rfl, rfl⟩ := Prod.mk.inj heq
    exact ⟨groupRest_loglevel_iff.mp hrest, hlvl'⟩
  · rintro ⟨hkey, hlvl⟩
    exact ⟨module, groupRest_loglevel_iff.mpr hkey, by rw [hlvl, Option.map_some]⟩

/-- The options are those that looking up finds. -/
theorem mem_iter_iff : (key, val) ∈ o.iter ↔ o.options[key]? = some val :=
  Std.TreeMap.mem_toList_iff_getElem?_eq_some

/-- The levels of different options are of different modules. -/
theorem distinct_moduleLevels (o : KernelOptions) :
    (o.iter.filterMap moduleLevel).Pairwise fun a b => ¬ compare a.1 b.1 = .eq := by
  rw [List.pairwise_filterMap]
  refine (Std.TreeMap.distinct_keys_toList (t := o.options)).imp ?_
  rintro kv kv' hne ⟨module, lvl⟩ hlvl ⟨module', lvl'⟩ hlvl' heq
  obtain rfl : module = module' := Std.LawfulEqCmp.eq_of_compare heq
  refine hne ?_
  rw [(moduleLevel_eq_some_iff.mp hlvl).1, (moduleLevel_eq_some_iff.mp hlvl').1]
  exact Std.ReflCmp.compare_self

/-- **Looking up a module** finds the level that its option sets. -/
theorem ofList_moduleLevels (o : KernelOptions) (module : List Char) :
    (Std.TreeMap.ofList (o.iter.filterMap moduleLevel))[module]? =
      optionLevel o (moduleKey module) := by
  cases h : optionLevel o (moduleKey module) with
  | some lvl =>
      obtain ⟨val, hval, hlvl⟩ := Option.bind_eq_some_iff.mp h
      refine Std.TreeMap.getElem?_ofList_of_mem Std.ReflCmp.compare_self (distinct_moduleLevels o)
        (List.mem_filterMap.mpr ⟨_, mem_iter_iff.mpr hval, ?_⟩)
      exact moduleLevel_eq_some_iff.mpr ⟨rfl, hlvl⟩
  | none =>
      refine Std.TreeMap.getElem?_ofList_of_contains_eq_false ?_
      rw [← Bool.not_eq_true, List.contains_iff_mem, List.mem_map]
      rintro ⟨⟨module', lvl⟩, hmem, rfl⟩
      obtain ⟨⟨key, val⟩, hval, hlvl⟩ := List.mem_filterMap.mp hmem
      obtain ⟨hkey, hlvl⟩ := moduleLevel_eq_some_iff.mp hlvl
      obtain rfl : key = moduleKey module' := hkey
      rw [optionLevel_of_some (mem_iter_iff.mp hval), hlvl] at h
      cases h

/-- All options that set a level are valid if that of the default level and those of modules
are. -/
theorem levelsValid_iff :
    LevelsValid o ↔ (loglevel ∈ o.options → (optionLevel o loglevel).isSome = true) ∧
      ModulesValid o o.iter := by
  constructor
  · intro h
    refine ⟨fun hmem => h loglevel hmem (.inl rfl), ?_⟩
    rintro ⟨key, val⟩ hkv module hkey
    refine h key ?_ (.inr ⟨module, hkey⟩)
    rw [Std.TreeMap.mem_iff_isSome_getElem?, mem_iter_iff.mp hkv]
    rfl
  · rintro ⟨hdefault, hmodules⟩ key hmem (rfl | ⟨module, rfl⟩)
    · exact hdefault hmem
    · rw [Std.TreeMap.mem_iff_isSome_getElem?] at hmem
      obtain ⟨val, hval⟩ := Option.isSome_iff_exists.mp hmem
      exact hmodules _ (mem_iter_iff.mpr hval) module rfl

/-- The default level is got as the option sets it, or getting it panics. -/
theorem get_loglevel (o : KernelOptions) :
    (loglevel ∈ o.options → (optionLevel o loglevel).isSome = true) ∧
        o.get LogLevel .new loglevel = .ok (optionLevel o loglevel, .new) ∨
      ¬ (loglevel ∈ o.options → (optionLevel o loglevel).isSome = true) ∧
        o.get LogLevel .new loglevel = .error .uninitialized := by
  cases h : o.options[loglevel]? with
  | none =>
      have hmem : loglevel ∉ o.options := by
        rw [Std.TreeMap.mem_iff_isSome_getElem?, h]
        exact Bool.false_ne_true
      rw [KernelOptions.get_of_none h, optionLevel_of_none h]
      exact .inl ⟨fun hkey => absurd hkey hmem, rfl⟩
  | some val =>
      have hmem : loglevel ∈ o.options := by
        rw [Std.TreeMap.mem_iff_isSome_getElem?, h]
        rfl
      rw [KernelOptions.get_of_some h]
      cases hlvl : optionLevel o loglevel with
      | none => exact .inr ⟨fun hsome => absurd (hsome hmem) Bool.false_ne_true,
          readValue_new_invalid h hlvl⟩
      | some lvl => exact .inl ⟨fun _ => rfl, readValue_new_valid h hlvl⟩

/-- The options of the group are got by the loop. -/
theorem iterGroup_eq (o : KernelOptions) :
    o.iterGroup LogLevel loglevel .new = groupLoop o ([], .new) o.iter := rfl

/-- What `init` sets, if the options can be got. -/
theorem init_of_ok {default : Option LogLevel} {group : List (List Char × Option LogLevel)}
    (hget : o.get LogLevel .new loglevel = .ok (default, .new))
    (hgroup : o.iterGroup LogLevel loglevel .new = .ok (group, .new)) :
    init o .new = .ok ⟨some ⟨default.getD .info, .ofList (withValues group)⟩, ∅, []⟩ := by
  rw [init, hget, ok_bind]
  dsimp only
  rw [hgroup]
  rfl

/-- **The log levels**: if every option that sets a level is one, `init` returns, nothing is
logged, and a message is logged after it exactly if its level is at most the one that the
options set for its module, or for all modules. If an option is no level, `init` panics. -/
theorem init_shouldLog (o : KernelOptions) :
    (LevelsValid o ∧ ∃ s, init o .new = .ok s ∧ s.messages = [] ∧
        ∀ lvl module, s.shouldLog lvl module = .ok (decide (lvl ≤ configuredLevel o module))) ∨
      (¬ LevelsValid o ∧ init o .new = .error .uninitialized) := by
  rw [levelsValid_iff]
  rcases get_loglevel o with ⟨hdefault, hget⟩ | ⟨hdefault, hget⟩
  · by_cases hmodules : ModulesValid o o.iter
    · obtain ⟨group, hgroup, hlevels⟩ :=
        groupLoop_valid [] (fun kv => mem_iter_iff.mp) hmodules
      rw [← iterGroup_eq] at hgroup
      refine .inl ⟨⟨hdefault, hmodules⟩, _, init_of_ok hget hgroup, rfl, fun lvl module => ?_⟩
      rw [State.shouldLog]
      dsimp only
      rw [LogLevelOptions.shouldLog_eq, LogLevelOptions.level, hlevels, withValues,
        List.filterMap_nil, List.nil_append, ofList_moduleLevels, configuredLevel]
    · refine .inr ⟨fun h => hmodules h.2, ?_⟩
      rw [init, hget, ok_bind]
      dsimp only
      rw [iterGroup_eq, groupLoop_invalid _ (fun kv => mem_iter_iff.mp) hmodules, error_bind]
  · refine .inr ⟨fun h => hdefault h.1, ?_⟩
    rw [init, hget, error_bind]

end HydroxKernel.Log
