import HydroxKernel.Lib.Str

/-!
# Kernel Options

The options of the kernel are given as one string of keys, each alone or followed by `=` and a
value, which may be quoted. `KernelOptions::new` parses it before any console exists. It takes
the string apart by byte offsets, and panics where it cuts it behind its end or inside of a
character.

## Main results

* `new_returns_iff`: parsing returns exactly if every quote that opens a value is closed.
-/

namespace HydroxKernel.Options

open Str

/-- `KernelOptions`, without the set of the keys that were warned about. -/
structure KernelOptions where
  options : Std.TreeMap (List Char) (Option (List Char))

/-- A key ends at white space or at `=`. -/
def endsKey (c : Char) : Bool := isWhitespace c || c = '='

/-- A quote that can open a value. -/
def isQuote (c : Char) : Bool := c = '"' || c = '\''

/-- The value after an `=`, and the string behind it. -/
def parseValue (s : List Char) : Except Panic (List Char × List Char) :=
  match s.head? with
  | some quote =>
      if isQuote quote then do
        let s ← cut (sliceFrom s 1)
        let valEnd := (find (fun c => c = quote) s).getD (byteLen s)
        let val ← cut (sliceTo s valEnd)
        let s ← cut (sliceFrom s (valEnd + 1))
        .ok (val, s)
      else unquoted
  | none => unquoted
where
  /-- The branch of `KernelOptions::new` for a value without quotes. -/
  unquoted : Except Panic (List Char × List Char) := do
    let valEnd := (find isWhitespace s).getD (byteLen s)
    let val ← cut (sliceTo s valEnd)
    let s ← cut (sliceFrom s valEnd)
    .ok (val, s)

/-- The body of the loop of `KernelOptions::new`: the key, its value, and the string behind
them. -/
def parseOption (s : List Char) : Except Panic (List Char × Option (List Char) × List Char) := do
  let keyEnd := (find endsKey s).getD (byteLen s)
  let key ← cut (sliceTo s keyEnd)
  let rest ← cut (sliceFrom s keyEnd)
  if rest.head? = some '=' then do
    let s ← cut (sliceFrom s (keyEnd + 1))
    let (val, s) ← parseValue s
    .ok (key, some val, s)
  else do
    let s ← cut (sliceFrom s keyEnd)
    .ok (key, none, s)

/-- The loop of `KernelOptions::new`. -/
def parseLoop : ℕ → Std.TreeMap (List Char) (Option (List Char)) → List Char →
    Except Panic (Std.TreeMap (List Char) (Option (List Char)))
  | 0, _, _ => .error .diverged
  | fuel + 1, options, s =>
      if s = [] then .ok options
      else do
        let (key, val, s) ← parseOption s
        parseLoop fuel (options.insert key val) (trimStart s)

/-- `KernelOptions::new`. Every round of the loop takes at least one character. -/
def KernelOptions.new (s : List Char) : Except Panic KernelOptions := do
  let options ← parseLoop (s.length + 1) ∅ (trimStart s)
  return ⟨options⟩

/-- `KernelOptions::iter`. -/
def KernelOptions.iter (o : KernelOptions) : List (List Char × Option (List Char)) :=
  o.options.toList

/-! ### The text of an option -/

/-- A key has no character that ends it. -/
def IsKey (key : List Char) : Prop := ∀ c ∈ key, endsKey c = false

/-- A string that ends a key or a value without quotes: it is empty, or begins with white
space. -/
def Separates (s : List Char) : Prop := ∀ c ∈ s.head?, isWhitespace c = true

/-- A value that can stand without quotes. -/
structure IsPlain (val : List Char) : Prop where
  space : ∀ c ∈ val, isWhitespace c = false
  quote : ∀ c ∈ val.head?, isQuote c = false

/-- The string begins with an option: its key, its value, and the string behind it. -/
inductive Begins : List Char → List Char → Option (List Char) → List Char → Prop
  | flag {key rest : List Char} (hkey : IsKey key) (hne : key ≠ []) (hrest : Separates rest) :
      Begins (key ++ rest) key none rest
  | plain {key val rest : List Char} (hkey : IsKey key) (hval : IsPlain val)
      (hrest : Separates rest) : Begins (key ++ '=' :: (val ++ rest)) key (some val) rest
  | quoted {key val rest : List Char} {quote : Char} (hkey : IsKey key)
      (hquote : isQuote quote = true) (hval : quote ∉ val) :
      Begins (key ++ '=' :: quote :: (val ++ quote :: rest)) key (some val) rest

/-- The string begins with an option whose value has a quote that is not closed. -/
def Unclosed (s : List Char) : Prop :=
  ∃ key quote rest, s = key ++ '=' :: quote :: rest ∧ IsKey key ∧ isQuote quote = true ∧
    quote ∉ rest

/-- Every quote that opens a value is closed: the string is a sequence of options and white
space. -/
inductive Closed : List Char → Prop
  | nil : Closed []
  | space {c : Char} {s : List Char} (hc : isWhitespace c = true) (h : Closed s) : Closed (c :: s)
  | option {s key rest : List Char} {val : Option (List Char)} (hs : Begins s key val rest)
      (h : Closed rest) : Closed s

variable {s key rest : List Char} {val : Option (List Char)}

/-- The key of a string that goes on behind it. -/
theorem keyEnd_append (hkey : IsKey key) (hrest : ∀ c ∈ rest.head?, endsKey c = true) :
    (find endsKey (key ++ rest)).getD (byteLen (key ++ rest)) = byteLen key :=
  find_getD_append hkey hrest

/-- What separates options ends a key. -/
theorem Separates.endsKey (h : Separates rest) : ∀ c ∈ rest.head?, endsKey c = true := by
  intro c hc
  simp [Options.endsKey, h c hc]

/-- A quote is one byte long. -/
theorem utf8Size_of_isQuote {quote : Char} (h : isQuote quote = true) : quote.utf8Size = 1 := by
  simp only [isQuote, Bool.or_eq_true, decide_eq_true_eq] at h
  rcases h with rfl | rfl <;> rfl

/-- A value in quotes that are closed. -/
theorem parseValue_quoted {quote : Char} {v : List Char} (hquote : isQuote quote = true)
    (hval : quote ∉ v) :
    parseValue (quote :: (v ++ quote :: rest)) = .ok (v, rest) := by
  have hq := utf8Size_of_isQuote hquote
  have hfind : find (fun c => c = quote) (v ++ quote :: rest) = some (byteLen v) :=
    find_append (fun c hc => decide_eq_false fun heq => hval (heq ▸ hc)) (by simp)
  have hend : byteLen v + 1 = byteLen (v ++ [quote]) := by simp [hq]
  have hcut : sliceFrom (v ++ quote :: rest) (byteLen v + 1) = some rest := by
    rw [hend, ← List.singleton_append, ← List.append_assoc, sliceFrom_append]
  simp [parseValue, hquote, sliceFrom_one hq, cut, hfind, hcut]

/-- A value in quotes that are not closed. -/
theorem parseValue_unclosed {quote : Char} (hquote : isQuote quote = true) (hval : quote ∉ rest) :
    parseValue (quote :: rest) = .error .slice := by
  have hfind : find (fun c => c = quote) rest = none :=
    find_eq_none_iff.mpr fun c hc => decide_eq_false fun heq => hval (heq ▸ hc)
  have hcut : sliceFrom rest (byteLen rest + 1) = none := sliceFrom_of_lt (Nat.lt_succ_self _)
  simp [parseValue, hquote, sliceFrom_one (utf8Size_of_isQuote hquote), cut, hfind, hcut]

/-- A value without quotes. -/
theorem parseValue_plain {v : List Char} (hval : IsPlain v) (hrest : Separates rest) :
    parseValue (v ++ rest) = .ok (v, rest) := by
  have hend := find_getD_append hval.space hrest
  have hplain : parseValue.unquoted (v ++ rest) = .ok (v, rest) := by
    simp only [parseValue.unquoted, hend, sliceTo_append, sliceFrom_append, cut, ok_bind]
  rw [parseValue]
  cases hhead : (v ++ rest).head? with
  | none => exact hplain
  | some c =>
      have hc : isQuote c = false := by
        cases v with
        | nil =>
            have hspace := hrest c hhead
            by_contra hquote
            simp only [isQuote, Bool.not_eq_false, Bool.or_eq_true, decide_eq_true_eq] at hquote
            rcases hquote with rfl | rfl <;> revert hspace <;> decide
        | cons d v => exact hval.quote c hhead
      simp [hc, hplain]

/-- A key without a value. -/
theorem parseOption_flag (hkey : IsKey key) (hrest : Separates rest) :
    parseOption (key ++ rest) = .ok (key, none, rest) := by
  have hend := keyEnd_append hkey hrest.endsKey
  have hhead : ¬ rest.head? = some '=' := fun heq => absurd (hrest _ heq) (by decide)
  simp only [parseOption, hend, sliceTo_append, sliceFrom_append, cut, ok_bind, if_neg hhead]

/-- A key and its value. -/
theorem parseOption_value (hkey : IsKey key) (s : List Char) :
    parseOption (key ++ '=' :: s) = (parseValue s).bind fun r => .ok (key, some r.1, r.2) := by
  have hend := @keyEnd_append key ('=' :: s) hkey (by simp [endsKey])
  have hnext : byteLen key + 1 = byteLen (key ++ ['=']) := by simp; rfl
  have hcut : sliceFrom (key ++ '=' :: s) (byteLen key + 1) = some s := by
    rw [hnext, ← List.singleton_append, ← List.append_assoc, sliceFrom_append]
  simp only [parseOption, hend, sliceTo_append, sliceFrom_append, hcut, cut, ok_bind,
    List.head?_cons, if_true]
  rfl

/-- The option at the beginning of a string is parsed. -/
theorem parseOption_begins (h : Begins s key val rest) : parseOption s = .ok (key, val, rest) := by
  cases h with
  | flag hkey hne hrest => exact parseOption_flag hkey hrest
  | plain hkey hval hrest =>
      rw [parseOption_value hkey, parseValue_plain hval hrest]
      rfl
  | quoted hkey hquote hval =>
      rw [parseOption_value hkey, parseValue_quoted hquote hval]
      rfl

/-- A value with an open quote is cut behind the end of the string. -/
theorem parseOption_unclosed (h : Unclosed s) : parseOption s = .error .slice := by
  obtain ⟨key, quote, rest, rfl, hkey, hquote, hno⟩ := h
  rw [parseOption_value hkey, parseValue_unclosed hquote hno]
  rfl

/-- A string that does not begin with white space begins with an option, or with one whose
quote is open. -/
theorem begins_or_unclosed (hne : s ≠ []) (hs : ∀ c ∈ s.head?, isWhitespace c = false) :
    (∃ key val rest, Begins s key val rest) ∨ Unclosed s := by
  obtain ⟨key, rest, rfl, hkey, hrest⟩ := exists_first_part endsKey s
  by_cases heq : rest.head? = some '='
  · obtain ⟨t, rfl⟩ := List.head?_eq_some_iff.mp heq
    by_cases hquote : ∃ quote ∈ t.head?, isQuote quote = true
    · obtain ⟨quote, hhead, hquote⟩ := hquote
      obtain ⟨u, rfl⟩ := List.head?_eq_some_iff.mp hhead
      by_cases hclosed : quote ∈ u
      · obtain ⟨v, w, rfl, hv⟩ := List.eq_append_cons_of_mem hclosed
        exact Or.inl ⟨key, some v, w, .quoted hkey hquote hv⟩
      · exact Or.inr ⟨key, quote, u, rfl, hkey, hquote, hclosed⟩
    · obtain ⟨v, w, rfl, hv, hw⟩ := exists_first_part isWhitespace t
      refine Or.inl ⟨key, some v, w, .plain hkey ⟨hv, fun c hc => ?_⟩ hw⟩
      by_contra hq
      exact hquote ⟨c, List.mem_head?_append_of_mem_head? hc, by simpa using hq⟩
  · have hspace : Separates rest := by
      intro c hc
      have hend := hrest c hc
      simp only [endsKey, Bool.or_eq_true, decide_eq_true_eq] at hend
      exact hend.resolve_right fun h => heq (h ▸ hc)
    refine Or.inl ⟨key, none, rest, .flag hkey (fun hnil => ?_) hspace⟩
    subst hnil
    obtain ⟨c, hc⟩ : ∃ c, rest.head? = some c := Option.ne_none_iff_exists'.mp (by simpa using hne)
    have := (hs c hc).symm.trans (hspace c hc)
    cases this

/-! ### The loop -/

/-- An option takes at least one character. -/
theorem Begins.length_lt (h : Begins s key val rest) : rest.length < s.length := by
  cases h with
  | flag hkey hne hrest =>
      have := List.length_pos_iff.mpr hne
      simp only [List.length_append]
      omega
  | plain | quoted =>
      simp only [List.length_append, List.length_cons]
      omega

/-- A string that begins with an option does not begin with white space. -/
theorem Begins.head (h : Begins s key val rest) :
    s ≠ [] ∧ ∀ c ∈ s.head?, isWhitespace c = false := by
  have hkey : ∀ {c : Char} {key' t : List Char}, IsKey (c :: key') →
      c :: key' ++ t ≠ [] ∧ ∀ d ∈ (c :: key' ++ t).head?, isWhitespace d = false := by
    intro c key' t hk
    refine ⟨by simp, fun d hd => ?_⟩
    obtain rfl : c = d := by simpa using hd
    have hc := hk c List.mem_cons_self
    simp only [endsKey, Bool.or_eq_false_iff] at hc
    exact hc.1
  have heq : ∀ t : List Char, '=' :: t ≠ [] ∧ ∀ d ∈ ('=' :: t).head?, isWhitespace d = false := by
    refine fun t => ⟨by simp, fun d hd => ?_⟩
    obtain rfl : '=' = d := by simpa using hd
    decide
  cases h with
  | flag hk hne =>
      cases key with
      | nil => exact absurd rfl hne
      | cons c key => exact hkey hk
  | plain hk | quoted hk =>
      cases key with
      | nil => exact heq _
      | cons c key => exact hkey hk

/-- A round of the loop on a string that begins with an option. -/
theorem parseLoop_begins {fuel : ℕ} {m : Std.TreeMap (List Char) (Option (List Char))}
    (h : Begins s key val rest) :
    parseLoop (fuel + 1) m s = parseLoop fuel (m.insert key val) (trimStart rest) := by
  rw [parseLoop, if_neg h.head.1, parseOption_begins h]
  rfl

/-- White space may stand before what is closed. -/
theorem closed_of_trimStart (h : Closed (trimStart s)) : Closed s := by
  induction s with
  | nil => exact h
  | cons c s ih =>
      by_cases hc : isWhitespace c = true
      · rw [← List.singleton_append, trimStart_append (by simpa using hc)] at h
        exact .space hc (ih h)
      · rwa [trimStart_of_head (by simpa using hc)] at h

/-- On a string whose quotes are closed the loop ends. -/
theorem Closed.parseLoop_returns (h : Closed s) {fuel : ℕ} (hfuel : s.length < fuel)
    (m : Std.TreeMap (List Char) (Option (List Char))) :
    ∃ m', parseLoop fuel m (trimStart s) = .ok m' := by
  obtain ⟨fuel, rfl⟩ : ∃ k, fuel = k + 1 := ⟨fuel - 1, by omega⟩
  induction h generalizing fuel m with
  | nil => exact ⟨m, rfl⟩
  | @space c s hc h ih =>
      rw [← List.singleton_append, trimStart_append (by simpa using hc)]
      simp only [List.length_cons] at hfuel
      exact ih m fuel (by omega)
  | option hs h ih =>
      have hlt := hs.length_lt
      obtain ⟨k, rfl⟩ : ∃ k, fuel = k + 1 := ⟨fuel - 1, by omega⟩
      rw [trimStart_of_head hs.head.2, parseLoop_begins hs]
      exact ih _ k (by omega)

/-- The loop ends, or it panics because of an open quote. -/
theorem parseLoop_cases {fuel : ℕ} (hs : ∀ c ∈ s.head?, isWhitespace c = false)
    (hfuel : s.length < fuel) (m : Std.TreeMap (List Char) (Option (List Char))) :
    Closed s ∨ parseLoop fuel m s = .error .slice := by
  induction fuel generalizing s m with
  | zero => omega
  | succ fuel ih =>
      by_cases hne : s = []
      · exact Or.inl (hne ▸ .nil)
      rcases begins_or_unclosed hne hs with ⟨key, val, rest, hb⟩ | hopen
      · have hlt := hb.length_lt
        have hle := length_trimStart_le rest
        rw [parseLoop_begins hb]
        exact (ih (head_trimStart rest) (by omega) _).imp_left
          fun h => .option hb (closed_of_trimStart h)
      · right
        rw [parseLoop, if_neg hne, parseOption_unclosed hopen]
        rfl

/-- **Parsing ends**: it returns, or it panics because of an open quote. -/
theorem new_cases (s : List Char) :
    (Closed s ∧ ∃ o, KernelOptions.new s = .ok o) ∨
      ¬ Closed s ∧ KernelOptions.new s = .error .slice := by
  have hle := length_trimStart_le s
  by_cases h : Closed s
  · obtain ⟨m, hm⟩ := h.parseLoop_returns (Nat.lt_succ_self s.length) ∅
    refine Or.inl ⟨h, ⟨m⟩, ?_⟩
    rw [KernelOptions.new, hm]
    rfl
  · refine Or.inr ⟨h, ?_⟩
    rcases parseLoop_cases (head_trimStart s) (Nat.lt_succ_of_le hle) ∅ with hc | herr
    · exact absurd (closed_of_trimStart hc) h
    · rw [KernelOptions.new, herr]
      rfl

/-- **When parsing returns**: exactly if every quote that opens a value is closed. -/
theorem new_returns_iff (s : List Char) : (∃ o, KernelOptions.new s = .ok o) ↔ Closed s := by
  rcases new_cases s with ⟨h, hok⟩ | ⟨h, herr⟩
  · exact iff_of_true hok h
  · refine iff_of_false (fun ⟨o, ho⟩ => ?_) h
    cases ho.symm.trans herr

/-- **A quote that is not closed** makes the kernel panic while it parses its options. -/
theorem new_panics : KernelOptions.new ['a', '=', '"', 'b'] = .error .slice ∧
    ¬ ∃ o, KernelOptions.new ['a', '=', '"', 'b'] = .ok o := by
  have herr : KernelOptions.new ['a', '=', '"', 'b'] = .error .slice :=
    eq_error_of_panicOf (by decide)
  exact ⟨herr, fun ⟨o, ho⟩ => by cases herr.symm.trans ho⟩

end HydroxKernel.Options
