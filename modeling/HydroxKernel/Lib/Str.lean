import HydroxKernel.Lib.Assert
import Mathlib.Data.List.Basic

/-!
# Strings with Byte Offsets

A string is UTF-8 in memory and is indexed by byte. Here it is the list of its characters, and
an offset is a number of bytes: it can be one at which no character begins, or lie behind the
end, and then the string cannot be cut there.

## Main results

* `splitAt_eq_some_iff`: a string can be cut exactly at the offsets where a character begins or
  the string ends.
* `find_getD_append`: the offset of the first character with a property, or of the end if there
  is none.
-/

namespace HydroxKernel.Str

/-- The length in bytes. -/
def byteLen : List Char → ℕ
  | [] => 0
  | c :: s => c.utf8Size + byteLen s

/-- The string up to a byte offset and from it on, if the string can be cut there. -/
def splitAt : List Char → ℕ → Option (List Char × List Char)
  | s, 0 => some ([], s)
  | [], _ + 1 => none
  | c :: s, n + 1 =>
      if c.utf8Size ≤ n + 1 then (splitAt s (n + 1 - c.utf8Size)).map fun p => (c :: p.1, p.2)
      else none

/-- The ways in which code that takes a string apart can fail to return. -/
inductive Panic
  /-- A string is cut behind its end or inside of a character. -/
  | slice
  /-- A loop does not end. -/
  | diverged
  deriving DecidableEq

/-- Cutting a string panics where it cannot be cut. -/
def cut {α : Type} : Option α → Except Panic α
  | some a => .ok a
  | none => .error .slice

/-- `&s[n..]`. -/
def sliceFrom (s : List Char) (n : ℕ) : Option (List Char) := (splitAt s n).map Prod.snd

/-- `&s[..n]`. -/
def sliceTo (s : List Char) (n : ℕ) : Option (List Char) := (splitAt s n).map Prod.fst

/-- `&s[a..b]`. -/
def slice (s : List Char) (a b : ℕ) : Option (List Char) :=
  if a ≤ b then (sliceFrom s a).bind fun t => sliceTo t (b - a) else none

/-- `String::remove`. -/
def remove (s : List Char) (n : ℕ) : Option (List Char) :=
  match splitAt s n with
  | some (l, _ :: r) => some (l ++ r)
  | _ => none

/-- `String::insert`. -/
def insert (s : List Char) (n : ℕ) (c : Char) : Option (List Char) :=
  (splitAt s n).map fun p => p.1 ++ c :: p.2

/-- Every character is one byte long. -/
def Ascii (s : List Char) : Prop := ∀ c ∈ s, c.utf8Size = 1

/-- The byte offset of the first character with a property. -/
def find (p : Char → Bool) : List Char → Option ℕ
  | [] => none
  | c :: s => if p c then some 0 else (find p s).map fun n => c.utf8Size + n

/-- The byte offset at which a string is first found in another one. -/
def findStr (pat : List Char) : List Char → Option ℕ
  | [] => if pat.isPrefixOf [] then some 0 else none
  | c :: s =>
      if pat.isPrefixOf (c :: s) then some 0 else (findStr pat s).map fun n => c.utf8Size + n

/-- `split_once`: what is before and behind the first `c`. -/
def splitOnce (c : Char) : List Char → Option (List Char × List Char)
  | [] => none
  | d :: s => if d = c then some ([], s) else (splitOnce c s).map fun p => (d :: p.1, p.2)

/-- `char::is_whitespace`: the Unicode property `White_Space`. -/
def isWhitespace (c : Char) : Bool :=
  (0x9 ≤ c.toNat && c.toNat ≤ 0xD) || c.toNat = 0x20 || c.toNat = 0x85 || c.toNat = 0xA0 ||
    c.toNat = 0x1680 || (0x2000 ≤ c.toNat && c.toNat ≤ 0x200A) || c.toNat = 0x2028 ||
    c.toNat = 0x2029 || c.toNat = 0x202F || c.toNat = 0x205F || c.toNat = 0x3000

/-- `trim_start`. -/
def trimStart (s : List Char) : List Char := s.dropWhile isWhitespace

variable {p : Char → Bool} {c : Char} {s l r : List Char} {n : ℕ}

/-- The empty string has no bytes. -/
@[simp] theorem byteLen_nil : byteLen [] = 0 := rfl

/-- The bytes of a character and the rest. -/
@[simp] theorem byteLen_cons (c : Char) (s : List Char) :
    byteLen (c :: s) = c.utf8Size + byteLen s := rfl

/-- The bytes of two strings. -/
@[simp] theorem byteLen_append (s t : List Char) : byteLen (s ++ t) = byteLen s + byteLen t := by
  induction s with
  | nil => simp
  | cons c s ih => simp [ih, Nat.add_assoc]

/-- Only the empty string has no bytes. -/
theorem byteLen_eq_zero {s : List Char} : byteLen s = 0 ↔ s = [] := by
  cases s with
  | nil => exact iff_of_true rfl rfl
  | cons c s =>
      have hpos := c.utf8Size_pos
      rw [byteLen_cons]
      exact iff_of_false (by omega) (List.cons_ne_nil _ _)

/-- A string splits at its start. -/
@[simp] theorem splitAt_zero (s : List Char) : splitAt s 0 = some ([], s) := by
  cases s <;> rfl

/-- A string is cut where one of its parts ends. -/
@[simp] theorem splitAt_append (l r : List Char) : splitAt (l ++ r) (byteLen l) = some (l, r) := by
  induction l with
  | nil => simp
  | cons c l ih =>
      obtain ⟨k, hk⟩ : ∃ k, c.utf8Size + byteLen l = k + 1 :=
        ⟨c.utf8Size + byteLen l - 1, by have := c.utf8Size_pos; omega⟩
      have hle : c.utf8Size ≤ k + 1 := by omega
      have hrest : k + 1 - c.utf8Size = byteLen l := by omega
      simp only [List.cons_append, byteLen_cons, hk, splitAt, if_pos hle, hrest, ih,
        Option.map_some]

/-- **Where a string can be cut.** -/
theorem splitAt_eq_some_iff : splitAt s n = some (l, r) ↔ s = l ++ r ∧ byteLen l = n := by
  constructor
  · intro h
    induction s generalizing n l with
    | nil =>
        cases n with
        | zero =>
            obtain ⟨rfl, rfl⟩ := Prod.mk.inj (Option.some.inj h)
            exact ⟨rfl, rfl⟩
        | succ n => cases h
    | cons c s ih =>
        cases n with
        | zero =>
            obtain ⟨rfl, rfl⟩ := Prod.mk.inj (Option.some.inj h)
            exact ⟨rfl, rfl⟩
        | succ n =>
            rw [splitAt] at h
            split at h
            next hle =>
              obtain ⟨⟨l', r'⟩, hcut, heq⟩ := Option.map_eq_some_iff.mp h
              obtain ⟨rfl, rfl⟩ := Prod.mk.inj heq
              obtain ⟨rfl, hlen⟩ := ih hcut
              refine ⟨rfl, ?_⟩
              rw [byteLen_cons, hlen]
              omega
            next => cases h
  · rintro ⟨rfl, rfl⟩
    exact splitAt_append l r

/-- What follows a first part. -/
@[simp] theorem sliceFrom_append (l r : List Char) : sliceFrom (l ++ r) (byteLen l) = some r := by
  rw [sliceFrom, splitAt_append, Option.map_some]

/-- A first part. -/
@[simp] theorem sliceTo_append (l r : List Char) : sliceTo (l ++ r) (byteLen l) = some l := by
  rw [sliceTo, splitAt_append, Option.map_some]

/-- Nothing follows a string. -/
@[simp] theorem sliceFrom_byteLen (s : List Char) : sliceFrom s (byteLen s) = some [] := by
  have h := sliceFrom_append s []
  rwa [List.append_nil] at h

/-- A string is a first part of itself. -/
@[simp] theorem sliceTo_byteLen (s : List Char) : sliceTo s (byteLen s) = some s := by
  have h := sliceTo_append s []
  rwa [List.append_nil] at h

/-- The part of a string between two others. -/
theorem slice_append (a b c : List Char) :
    slice (a ++ (b ++ c)) (byteLen a) (byteLen a + byteLen b) = some b := by
  rw [slice, if_pos (Nat.le_add_right _ _), sliceFrom_append, Option.bind_some,
    Nat.add_sub_cancel_left, sliceTo_append]

/-- A character of one byte is cut off. -/
theorem sliceFrom_one (hc : c.utf8Size = 1) (s : List Char) : sliceFrom (c :: s) 1 = some s := by
  have h := sliceFrom_append [c] s
  rwa [byteLen_cons, hc, byteLen_nil] at h

/-- No string is cut behind its end. -/
theorem splitAt_of_lt (h : byteLen s < n) : splitAt s n = none := by
  cases hcut : splitAt s n with
  | none => rfl
  | some lr =>
      obtain ⟨hs, hlen⟩ := splitAt_eq_some_iff.mp hcut
      have := congrArg byteLen hs
      rw [byteLen_append] at this
      omega

/-- There is nothing past the end. -/
theorem sliceFrom_of_lt (h : byteLen s < n) : sliceFrom s n = none := by
  rw [sliceFrom, splitAt_of_lt h, Option.map_none]

/-- A character is removed where it begins. -/
theorem remove_append (l : List Char) (c : Char) (r : List Char) :
    remove (l ++ c :: r) (byteLen l) = some (l ++ r) := by
  rw [remove, splitAt_append]

/-- A character is inserted where a part of the string ends. -/
theorem insert_append (l r : List Char) (c : Char) :
    insert (l ++ r) (byteLen l) c = some (l ++ c :: r) := by
  rw [insert, splitAt_append, Option.map_some]

/-! ### ASCII -/

/-- The empty string is ASCII. -/
theorem ascii_nil : Ascii [] := fun _ hc => nomatch hc

/-- Two strings are ASCII exactly if they are joined. -/
@[simp] theorem ascii_append : Ascii (l ++ r) ↔ Ascii l ∧ Ascii r := List.forall_mem_append

/-- An ASCII character and the rest. -/
@[simp] theorem ascii_cons : Ascii (c :: s) ↔ c.utf8Size = 1 ∧ Ascii s := List.forall_mem_cons

/-- **An ASCII string** can be cut at every offset up to its end. -/
theorem Ascii.exists_split (h : Ascii s) (hn : n ≤ byteLen s) :
    ∃ l r, s = l ++ r ∧ byteLen l = n := by
  induction s generalizing n with
  | nil =>
      obtain rfl : n = 0 := Nat.le_zero.mp hn
      exact ⟨[], [], rfl, rfl⟩
  | cons c s ih =>
      obtain ⟨hc, hs⟩ := ascii_cons.mp h
      cases n with
      | zero => exact ⟨[], c :: s, rfl, rfl⟩
      | succ n =>
          rw [byteLen_cons, hc] at hn
          have hle : n ≤ byteLen s := by omega
          obtain ⟨l, r, rfl, rfl⟩ := ih hs hle
          exact ⟨c :: l, r, rfl, by rw [byteLen_cons, hc, Nat.add_comm]⟩

/-! ### Searching -/

/-- The first character with a property is behind those without it. -/
theorem find_append (hl : ∀ d ∈ l, p d = false) (hc : p c = true) :
    find p (l ++ c :: r) = some (byteLen l) := by
  induction l with
  | nil => simp [find, hc]
  | cons d l ih =>
      have hd : p d = false := hl d List.mem_cons_self
      have htail := ih fun d hd => hl d (List.mem_cons_of_mem _ hd)
      simp [find, hd, htail]

/-- Nothing is found exactly if no character has the property. -/
theorem find_eq_none_iff : find p s = none ↔ ∀ d ∈ s, p d = false := by
  induction s with
  | nil => simp [find]
  | cons d s ih =>
      by_cases hd : p d
      · simp [find, hd]
      · simp [find, hd, ih]

/-- **Searching for the first character with a property, or for the end**: the offset found is
where the part without the property ends. -/
theorem find_getD_append (hl : ∀ d ∈ l, p d = false) (hr : ∀ d ∈ r.head?, p d = true) :
    (find p (l ++ r)).getD (byteLen (l ++ r)) = byteLen l := by
  cases r with
  | nil =>
      rw [List.append_nil, find_eq_none_iff.mpr hl]
      rfl
  | cons c r =>
      rw [find_append hl (hr c rfl)]
      rfl

/-- Every string has such a part. -/
theorem exists_first_part (p : Char → Bool) (s : List Char) :
    ∃ l r, s = l ++ r ∧ (∀ d ∈ l, p d = false) ∧ ∀ d ∈ r.head?, p d = true := by
  induction s with
  | nil => exact ⟨[], [], rfl, by simp, by simp⟩
  | cons c s ih =>
      by_cases hc : p c = true
      · exact ⟨[], c :: s, rfl, by simp, by simpa using hc⟩
      · obtain ⟨l, r, rfl, hl, hr⟩ := ih
        exact ⟨c :: l, r, rfl, List.forall_mem_cons.mpr ⟨by simpa using hc, hl⟩, hr⟩

/-- Splitting at a character that the first part does not have. -/
theorem splitOnce_append (hl : c ∉ l) : splitOnce c (l ++ c :: r) = some (l, r) := by
  induction l with
  | nil => simp [splitOnce]
  | cons d l ih =>
      rw [List.mem_cons, not_or] at hl
      simp [splitOnce, Ne.symm hl.1, ih hl.2]

/-- A string is split exactly if it has the character. -/
theorem splitOnce_eq_none_iff : splitOnce c s = none ↔ c ∉ s := by
  induction s with
  | nil => simp [splitOnce]
  | cons d s ih =>
      by_cases hd : d = c
      · simp [splitOnce, hd]
      · simp [splitOnce, hd, ih, Ne.symm hd]

/-! ### Trimming -/

/-- Trimming makes nothing longer. -/
theorem length_trimStart_le (s : List Char) : (trimStart s).length ≤ s.length :=
  (List.dropWhile_sublist _).length_le

/-- White space is skipped. -/
theorem trimStart_append (hl : ∀ d ∈ l, isWhitespace d = true) (r : List Char) :
    trimStart (l ++ r) = trimStart r :=
  List.dropWhile_append_of_pos hl

/-- What is left does not begin with white space. -/
theorem head_trimStart (s : List Char) : ∀ d ∈ (trimStart s).head?, isWhitespace d = false := by
  intro d hd
  have h := List.head?_dropWhile_not isWhitespace s
  rw [← trimStart, Option.mem_def.mp hd] at h
  exact h

/-- A string that does not begin with white space stays. -/
theorem trimStart_of_head (hs : ∀ d ∈ s.head?, isWhitespace d = false) : trimStart s = s := by
  cases s with
  | nil => rfl
  | cons c s => simp [trimStart, hs c rfl]

end HydroxKernel.Str
