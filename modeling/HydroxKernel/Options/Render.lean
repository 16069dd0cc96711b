import HydroxKernel.Options.Parse
import Mathlib.Data.List.Induction

/-!
# Writing Kernel Options

A list of options can be written as a string in many ways: a value may be quoted or, if it has
no white space, stand without quotes, and any white space may lie between two options. All of
them parse to the same map.

## Main results

* `new_of_rendersAll`: parsing what a list of options is written as gives the map of the last
  value of every key.
-/

namespace HydroxKernel.Options

open Str

/-- What an option is written as. -/
inductive Renders : List Char × Option (List Char) → List Char → Prop
  | flag {key : List Char} : Renders (key, none) key
  | plain {key val : List Char} (hval : IsPlain val) : Renders (key, some val) (key ++ '=' :: val)
  | quoted {key val : List Char} {quote : Char} (hquote : isQuote quote = true)
      (hval : quote ∉ val) : Renders (key, some val) (key ++ '=' :: quote :: (val ++ [quote]))

/-- What a list of options is written as, with white space between them. -/
inductive RendersAll : List (List Char × Option (List Char)) → List Char → Prop
  | nil : RendersAll [] []
  | one {o : List Char × Option (List Char)} {t : List Char} (ht : Renders o t) : RendersAll [o] t
  | cons {o o' : List Char × Option (List Char)} {os : List (List Char × Option (List Char))}
      {t sep s : List Char} (ht : Renders o t) (hne : sep ≠ [])
      (hsep : ∀ c ∈ sep, isWhitespace c = true) (hs : RendersAll (o' :: os) s) :
      RendersAll (o :: o' :: os) (t ++ (sep ++ s))

/-- An option that can be written: its key is not empty and has no character that ends a key,
and its value does not have both quotes. -/
structure Writable (o : List Char × Option (List Char)) : Prop where
  ne_nil : o.1 ≠ []
  key : IsKey o.1
  quotes : ∀ v ∈ o.2, ¬ ('"' ∈ v ∧ '\'' ∈ v)

/-- The value of the last option with a key. -/
def lastValue (opts : List (List Char × Option (List Char))) (key : List Char) :
    Option (Option (List Char)) :=
  (opts.reverse.find? fun o => o.1 = key).map Prod.snd

variable {o : List Char × Option (List Char)} {opts : List (List Char × Option (List Char))}
  {s t rest : List Char}

/-- Every option that can be written is written as something. -/
theorem Writable.exists_renders (h : Writable o) : ∃ t, Renders o t := by
  obtain ⟨key, val⟩ := o
  cases val with
  | none => exact ⟨key, .flag⟩
  | some v =>
      by_cases hq : '"' ∈ v
      · have hq' : '\'' ∉ v := fun hq' => h.quotes v rfl ⟨hq, hq'⟩
        have hquote : isQuote '\'' = true := by decide
        exact ⟨_, .quoted hquote hq'⟩
      · have hquote : isQuote '"' = true := by decide
        exact ⟨_, .quoted hquote hq⟩

/-- An option that is written begins the string, if what is behind it separates it. -/
theorem Renders.begins (h : Renders o t) (ho : Writable o) (hrest : Separates rest) :
    Begins (t ++ rest) o.1 o.2 rest := by
  cases h with
  | flag => exact .flag ho.key ho.ne_nil hrest
  | plain hval =>
      rw [List.append_assoc, List.cons_append]
      exact .plain ho.key hval hrest
  | quoted hquote hval =>
      rw [List.append_assoc, List.cons_append, List.cons_append, List.append_assoc,
        List.singleton_append]
      exact .quoted ho.key hquote hval

/-- White space separates options, and so does the end. -/
theorem separates_append {sep : List Char} (hne : sep ≠ [])
    (hsep : ∀ c ∈ sep, isWhitespace c = true) (s : List Char) : Separates (sep ++ s) := by
  intro c hc
  cases sep with
  | nil => exact absurd rfl hne
  | cons d sep =>
      obtain rfl : d = c := by simpa using hc
      exact hsep d List.mem_cons_self

/-- Nothing separates. -/
theorem separates_nil : Separates [] := fun c hc => by simp at hc

/-- The last value, when an option is added at the end. -/
theorem lastValue_concat (opts : List (List Char × Option (List Char)))
    (o : List Char × Option (List Char)) (key : List Char) :
    lastValue (opts ++ [o]) key = if o.1 = key then some o.2 else lastValue opts key := by
  rw [lastValue, List.reverse_concat, List.find?_cons]
  by_cases h : o.1 = key <;> simp [h, lastValue]

/-- **Inserting options one after another** leaves the last value of every key. -/
theorem getElem?_foldl_insert (opts : List (List Char × Option (List Char))) (key : List Char) :
    (opts.foldl (fun m o => m.insert o.1 o.2)
      (∅ : Std.TreeMap (List Char) (Option (List Char))))[key]? = lastValue opts key := by
  induction opts using List.reverseRecOn with
  | nil => simp [lastValue]
  | append_singleton opts o ih =>
      rw [List.foldl_append, List.foldl_cons, List.foldl_nil, Std.TreeMap.getElem?_insert, ih,
        lastValue_concat]
      by_cases h : o.1 = key
      · simp [h]
      · have hcmp : ¬ compare o.1 key = .eq := fun heq => h (Std.LawfulEqOrd.eq_of_compare heq)
        simp [h, hcmp]

/-- A list of options that is written does not begin with white space. -/
theorem RendersAll.trimStart_eq (h : RendersAll opts s) (ho : ∀ o ∈ opts, Writable o) :
    trimStart s = s := by
  cases h with
  | nil => rfl
  | @one o t ht =>
      have hb := ht.begins (ho o List.mem_cons_self) separates_nil
      rw [List.append_nil] at hb
      exact trimStart_of_head hb.head.2
  | @cons o o' os t sep s ht hne hsep hs =>
      exact trimStart_of_head
        (ht.begins (ho o List.mem_cons_self) (separates_append hne hsep s)).head.2

/-- The loop inserts the options that are written, one after another. -/
theorem RendersAll.parseLoop_eq (h : RendersAll opts s) (ho : ∀ o ∈ opts, Writable o) {fuel : ℕ}
    (hfuel : s.length < fuel) (m : Std.TreeMap (List Char) (Option (List Char))) :
    parseLoop fuel m s = .ok (opts.foldl (fun m o => m.insert o.1 o.2) m) := by
  induction h generalizing fuel m with
  | nil =>
      obtain ⟨k, rfl⟩ : ∃ k, fuel = k + 1 := ⟨fuel - 1, by omega⟩
      rfl
  | @one o t ht =>
      have hb := ht.begins (ho o List.mem_cons_self) separates_nil
      rw [List.append_nil] at hb
      have hlt := hb.length_lt
      obtain ⟨k, rfl⟩ : ∃ k, fuel = k + 2 := ⟨fuel - 2, by omega⟩
      rw [parseLoop_begins hb]
      rfl
  | @cons o o' os t sep s ht hne hsep hs ih =>
      have hb := ht.begins (ho o List.mem_cons_self) (separates_append hne hsep s)
      have ho' : ∀ x ∈ o' :: os, Writable x := fun x hx => ho x (List.mem_cons_of_mem _ hx)
      have hlt := hb.length_lt
      rw [@List.length_append _ sep s] at hlt
      obtain ⟨k, rfl⟩ : ∃ k, fuel = k + 1 := ⟨fuel - 1, by omega⟩
      rw [parseLoop_begins hb, trimStart_append hsep, hs.trimStart_eq ho', ih ho' (by omega)]
      rfl

/-- **Parsing undoes writing**: what a list of options is written as parses to the map in which
every key has the value of its last option, in the order of the keys, and nothing else. -/
theorem new_of_rendersAll (h : RendersAll opts s) (ho : ∀ o ∈ opts, Writable o) :
    ∃ k, KernelOptions.new s = .ok k ∧ (∀ key, k.options[key]? = lastValue opts key) ∧
      (∀ key val, (key, val) ∈ k.iter ↔ lastValue opts key = some val) ∧
      k.iter.Pairwise fun a b => compare a.1 b.1 = .lt := by
  have hloop := h.parseLoop_eq ho (Nat.lt_succ_self s.length) ∅
  refine ⟨⟨_⟩, ?_, getElem?_foldl_insert opts, fun key val => ?_, ?_⟩
  · rw [KernelOptions.new, h.trimStart_eq ho, hloop]
    rfl
  · rw [KernelOptions.iter, Std.TreeMap.mem_toList_iff_getElem?_eq_some, getElem?_foldl_insert]
  · exact Std.TreeMap.ordered_keys_toList

/-- `a b="x y" a=`: the second value of `a` replaces the first, which was none. -/
theorem new_of_rendersAll_three :
    ∃ k, KernelOptions.new ['a', ' ', 'b', '=', '"', 'x', ' ', 'y', '"', '\t', 'a', '='] = .ok k ∧
      (∀ key, k.options[key]? = lastValue
        [(['a'], none), (['b'], some ['x', ' ', 'y']), (['a'], some [])] key) ∧
      (∀ key val, (key, val) ∈ k.iter ↔ lastValue
        [(['a'], none), (['b'], some ['x', ' ', 'y']), (['a'], some [])] key = some val) ∧
      k.iter.Pairwise fun a b => compare a.1 b.1 = .lt := by
  have hquote : isQuote '"' = true := by decide
  have hflag : Renders (['a'], none) ['a'] := .flag
  have hquoted : Renders (['b'], some ['x', ' ', 'y']) ['b', '=', '"', 'x', ' ', 'y', '"'] :=
    .quoted hquote (by decide)
  have hplain : Renders (['a'], some []) ['a', '='] := .plain ⟨by simp, by simp⟩
  refine new_of_rendersAll ?_ ?_
  · have hspace : ∀ c ∈ [' '], isWhitespace c = true := List.forall_mem_singleton.mpr rfl
    have htab : ∀ c ∈ ['\t'], isWhitespace c = true := List.forall_mem_singleton.mpr rfl
    exact .cons hflag (by decide) hspace (.cons hquoted (by decide) htab (.one hplain))
  · intro o ho
    simp only [List.mem_cons, List.not_mem_nil, or_false] at ho
    rcases ho with rfl | rfl | rfl
    · exact ⟨by decide, List.forall_mem_singleton.mpr rfl, by simp⟩
    · exact ⟨by decide, List.forall_mem_singleton.mpr rfl, by simp⟩
    · exact ⟨by decide, List.forall_mem_singleton.mpr rfl, by simp⟩

end HydroxKernel.Options
