import HydroxKernel.Log.Levels
import HydroxKernel.Options.Parse

/-!
# Getting Options

An option is asked for as a value of some type. Its text may not be one of that type, or it may
have none; then a warning is logged, once for every key. The options of a group are those whose
keys begin with the name of the group and a dot.

A log message can only be written after the log levels are set, so that a warning before that
panics.
-/

namespace HydroxKernel.Options

open Str Log

/-! ### Types of options -/

/-- `KernelOptionParseable`. `none` is `Err(InvalidOptionValue)`. -/
class KernelOptionParseable (T : Type) where
  tryParseKopt : List Char → Option T

/-- The digits of a number that is at most `max`, after the value `n`. -/
def parseDigits (max n : ℕ) : List Char → Option ℕ
  | [] => some n
  | c :: cs =>
      if '0' ≤ c ∧ c ≤ '9' ∧ n * 10 + (c.toNat - '0'.toNat) ≤ max then
        parseDigits max (n * 10 + (c.toNat - '0'.toNat)) cs
      else none

/-- `str::parse` for an unsigned integer of `w` bits. -/
def parseUnsigned (w : ℕ) : List Char → Option ℕ
  | [] => none
  | ['+'] => none
  | '+' :: cs => parseDigits (2 ^ w - 1) 0 cs
  | cs => parseDigits (2 ^ w - 1) 0 cs

/-- `str::parse` for a signed integer of `w` bits. -/
def parseSigned (w : ℕ) : List Char → Option ℤ
  | [] => none
  | ['+'] => none
  | ['-'] => none
  | '+' :: cs => (parseDigits (2 ^ (w - 1) - 1) 0 cs).map Int.ofNat
  | '-' :: cs => (parseDigits (2 ^ (w - 1)) 0 cs).map fun n => -Int.ofNat n
  | cs => (parseDigits (2 ^ (w - 1) - 1) 0 cs).map Int.ofNat

/-- `bool::try_parse_kopt`. -/
def parseBool (s : List Char) : Option Bool :=
  if s = "0".toList then some false
  else if s = "false".toList then some false
  else if s = "1".toList then some true
  else if s = "true".toList then some true
  else if s = "no".toList then some false
  else if s = "yes".toList then some true
  else none

/-- `&str::try_parse_kopt`. -/
instance : KernelOptionParseable (List Char) := ⟨some⟩

/-- `u32`, `u64` and `usize`, and `i32`, `i64` and `isize`, as numbers with their width. -/
structure Unsigned (w : ℕ) where
  val : ℕ
  deriving DecidableEq

/-- A signed number with its width. -/
structure Signed (w : ℕ) where
  val : ℤ
  deriving DecidableEq

instance (w : ℕ) : KernelOptionParseable (Unsigned w) := ⟨fun s => (parseUnsigned w s).map .mk⟩

instance (w : ℕ) : KernelOptionParseable (Signed w) := ⟨fun s => (parseSigned w s).map .mk⟩

instance : KernelOptionParseable Bool := ⟨parseBool⟩

instance : KernelOptionParseable LogLevel := ⟨LogLevel.tryParseKopt⟩

/-! ### Getters -/

variable {T : Type} [KernelOptionParseable T]

/-- The value of an option: its text, parsed, or `none` if it has no text. -/
def parseValueAs (T : Type) [KernelOptionParseable T] (val : Option (List Char)) :
    Option (Option T) :=
  val.map KernelOptionParseable.tryParseKopt

namespace KernelOptions

/-- `try_get`: whether the option is there, whether it has a text, and whether that is one of the
type. -/
def tryGet (T : Type) [KernelOptionParseable T] (o : KernelOptions) (key : List Char) :
    Option (Option (Option T)) :=
  o.options[key]?.map (parseValueAs T)

/-- `warn_invalid`. -/
def warnInvalid (s : State) (key : List Char) : Except Log.Panic State :=
  s.log .warning "options".toList ("Invalid value given for option '".toList ++ key ++ "'".toList)

/-- `warn_invalid_once`. -/
def warnInvalidOnce (o : KernelOptions) (s : State) (key : List Char) :
    Except Log.Panic State := do
  ensure (key ∈ o.options) .unsetKey
  if key ∈ s.warnedInvalid then return s
  else warnInvalid { s with warnedInvalid := s.warnedInvalid.insert key } key

/-- `get`. -/
def get (T : Type) [KernelOptionParseable T] (o : KernelOptions) (s : State) (key : List Char) :
    Except Log.Panic (Option T × State) :=
  match o.tryGet T key with
  | some (some (some val)) => .ok (some val, s)
  | some _ => do
      let s ← o.warnInvalidOnce s key
      return (none, s)
  | none => .ok (none, s)

/-- `get_flag`: an option without a text is true. -/
def getFlag (o : KernelOptions) (s : State) (key : List Char) :
    Except Log.Panic (Option Bool × State) :=
  match o.tryGet Bool key with
  | some (some (some val)) => .ok (some val, s)
  | some none => .ok (some true, s)
  | some (some none) => do
      let s ← o.warnInvalidOnce s key
      return (none, s)
  | none => .ok (none, s)

/-- What `iter_group` does with one option: the rest of its key, if it belongs to the group, and
its value. -/
def groupItem (T : Type) [KernelOptionParseable T] (o : KernelOptions) (group : List Char)
    (s : State) (kv : List Char × Option (List Char)) :
    Except Log.Panic (Option (List Char × Option T) × State) :=
  let (k, v) := kv
  if group.isPrefixOf k then
    match sliceFrom k (byteLen group) with
    | none => .error .slice
    | some sk =>
        if sk.head? = some '.' then do
          let (v, s) ←
            match parseValueAs T v with
            | some (some v) => Except.ok (some v, s)
            | _ => do
                let s ← o.warnInvalidOnce s k
                Except.ok (none, s)
          match sliceFrom sk 1 with
          | none => .error .slice
          | some rest => return (some (rest, v), s)
        else .ok (none, s)
  else .ok (none, s)

/-- `iter_group`, up to its end. -/
def iterGroup (T : Type) [KernelOptionParseable T] (o : KernelOptions) (group : List Char)
    (s : State) : Except Log.Panic (List (List Char × Option T) × State) :=
  o.iter.foldlM (fun r kv => do
    let (item, s) ← o.groupItem T group r.2 kv
    return (r.1 ++ item.toList, s)) ([], s)

/-! ### What the getters have in common -/

/-- The value of an option that is there, with a warning if it is not one of the type. -/
def readValue (T : Type) [KernelOptionParseable T] (o : KernelOptions) (s : State)
    (key : List Char) (val : Option (List Char)) : Except Log.Panic (Option T × State) :=
  match parseValueAs T val with
  | some (some v) => .ok (some v, s)
  | _ => do
      let s ← o.warnInvalidOnce s key
      return (none, s)

variable {o : KernelOptions} {s : State} {group key rest : List Char} {val : Option (List Char)}

/-- The value of an option that is one of the type. -/
theorem readValue_valid {v : T} (h : parseValueAs T val = some (some v)) :
    o.readValue T s key val = .ok (some v, s) := by
  rw [readValue, h]

/-- The value of an option that is not one of the type. -/
theorem readValue_invalid (h : (parseValueAs T val).join = none) :
    o.readValue T s key val = (do
      let s ← o.warnInvalidOnce s key
      return (none, s)) := by
  rw [readValue]
  cases hval : parseValueAs T val with
  | none => rfl
  | some v =>
      rw [hval] at h
      obtain rfl : v = none := h
      rfl

/-- An option that is there is got by its value. -/
theorem get_of_some (h : o.options[key]? = some val) :
    o.get T s key = o.readValue T s key val := by
  rw [get, tryGet, h, Option.map_some, readValue]
  cases parseValueAs T val with
  | none => rfl
  | some v => cases v <;> rfl

/-- An option that is not there is not got. -/
theorem get_of_none (h : o.options[key]? = none) : o.get T s key = .ok (none, s) := by
  rw [get, tryGet, h, Option.map_none]

/-- A flag that has a text, or is not there, is got like any other option. -/
theorem getFlag_eq_get (h : o.options[key]? ≠ some none) : o.getFlag s key = o.get Bool s key := by
  rw [getFlag, get, tryGet]
  cases hval : o.options[key]? with
  | none => rfl
  | some val =>
      cases val with
      | none => exact absurd hval h
      | some text =>
          rw [Option.map_some, parseValueAs, Option.map_some]
          cases (KernelOptionParseable.tryParseKopt text : Option Bool) <;> rfl

/-- A flag without a text is true. -/
theorem getFlag_of_none (h : o.options[key]? = some none) :
    o.getFlag s key = .ok (some true, s) := by
  rw [getFlag, tryGet, h, Option.map_some]
  rfl

/-! ### The options of a group -/

/-- The rest of a key of a group. -/
def groupRest (group k : List Char) : Option (List Char) :=
  if group.isPrefixOf k ∧ (k.drop group.length).head? = some '.' then
    some (k.drop (group.length + 1))
  else none

/-- The keys of a group are those that begin with its name and a dot. -/
theorem groupRest_eq_some_iff : groupRest group key = some rest ↔ key = group ++ '.' :: rest := by
  rw [groupRest]
  constructor
  · intro h
    split at h
    · rename_i hkey
      obtain ⟨t, rfl⟩ := List.isPrefixOf_iff_prefix.mp hkey.1
      obtain rfl := Option.some.inj h
      cases t with
      | nil => simp at hkey
      | cons c t =>
          obtain rfl : c = '.' := by simpa using hkey.2
          rw [List.drop_append, List.drop_of_length_le (Nat.le_succ _), List.nil_append,
            Nat.add_sub_cancel_left]
          rfl
    · cases h
  · rintro rfl
    rw [if_pos ⟨List.isPrefixOf_iff_prefix.mpr ⟨_, rfl⟩, by simp⟩]
    simp [List.drop_append]

/-- An option of the group is read and given with the rest of its key. No slice of the key is
out of its range. -/
theorem groupItem_of_rest (h : groupRest group key = some rest) :
    o.groupItem T group s (key, val) = (do
      let r ← o.readValue T s key val
      return (some (rest, r.1), r.2)) := by
  obtain rfl := groupRest_eq_some_iff.mp h
  have hdot : ('.' : Char).utf8Size = 1 := rfl
  rw [groupItem]
  dsimp only
  rw [if_pos (List.isPrefixOf_iff_prefix.mpr ⟨_, rfl⟩), sliceFrom_append]
  dsimp only
  rw [List.head?_cons, if_pos rfl, sliceFrom_one hdot, readValue]
  cases parseValueAs T val with
  | none =>
      dsimp only
      cases o.warnInvalidOnce s (group ++ '.' :: rest) <;> rfl
  | some v =>
      cases v with
      | none =>
          dsimp only
          cases o.warnInvalidOnce s (group ++ '.' :: rest) <;> rfl
      | some v => rfl

/-- An option of another group is passed over. -/
theorem groupItem_of_none (h : groupRest group key = none) :
    o.groupItem T group s (key, val) = .ok (none, s) := by
  rw [groupItem]
  dsimp only
  split
  · rename_i hpre
    obtain ⟨t, rfl⟩ := List.isPrefixOf_iff_prefix.mp hpre
    rw [sliceFrom_append]
    dsimp only
    rw [if_neg]
    intro hdot
    cases t with
    | nil => cases hdot
    | cons c t =>
        obtain rfl := Option.some.inj hdot
        rw [groupRest_eq_some_iff.mpr rfl] at h
        cases h
  · rfl

end KernelOptions

end HydroxKernel.Options
