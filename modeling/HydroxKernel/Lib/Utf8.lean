import Mathlib.Data.List.Basic

/-!
# UTF-8

Decoding UTF-8 as the Unicode standard defines it: overlong forms, surrogates and values
beyond `U+10FFFF` are not valid. A byte sequence is decoded as a whole or not at all.

## Main results

* `decodeChar_eq_some_iff`: a character is decoded exactly from its encoding.
* `fromUtf8_eq_some_iff`: a string is decoded exactly from its bytes.
* `fromUtf8_take_eq_none`: nothing is decoded from a part of the encoding of a character.
-/

namespace HydroxKernel

/-- The bytes that may follow the first byte of a sequence of three or four bytes. The bounds
exclude overlong forms, surrogates and values that are too large. -/
def utf8SecondByte (first : ℕ) : ℕ × ℕ :=
  if first = 0xE0 then (0xA0, 0xBF)
  else if first = 0xED then (0x80, 0x9F)
  else if first = 0xF0 then (0x90, 0xBF)
  else if first = 0xF4 then (0x80, 0x8F)
  else (0x80, 0xBF)

/-- The byte is a continuation byte. -/
def IsContinuation (b : UInt8) : Prop := 0x80 ≤ b.toNat ∧ b.toNat ≤ 0xBF

instance (b : UInt8) : Decidable (IsContinuation b) := inferInstanceAs (Decidable (_ ∧ _))

/-- The second byte is one that may follow the first. -/
def IsSecondByte (first second : UInt8) : Prop :=
  (utf8SecondByte first.toNat).1 ≤ second.toNat ∧ second.toNat ≤ (utf8SecondByte first.toNat).2

instance (first second : UInt8) : Decidable (IsSecondByte first second) :=
  inferInstanceAs (Decidable (_ ∧ _))

/-- Decodes one character, and returns the bytes after it. -/
def decodeChar : List UInt8 → Option (Char × List UInt8)
  | [] => none
  | b₀ :: bs =>
      if b₀.toNat < 0x80 then some (Char.ofNat b₀.toNat, bs)
      else if 0xC2 ≤ b₀.toNat ∧ b₀.toNat < 0xE0 then
        match bs with
        | b₁ :: bs =>
            if IsContinuation b₁ then
              some (Char.ofNat ((b₀.toNat - 0xC0) * 64 + (b₁.toNat - 0x80)), bs)
            else none
        | _ => none
      else if 0xE0 ≤ b₀.toNat ∧ b₀.toNat < 0xF0 then
        match bs with
        | b₁ :: b₂ :: bs =>
            if IsSecondByte b₀ b₁ ∧ IsContinuation b₂ then
              some (Char.ofNat (((b₀.toNat - 0xE0) * 64 + (b₁.toNat - 0x80)) * 64 +
                (b₂.toNat - 0x80)), bs)
            else none
        | _ => none
      else if 0xF0 ≤ b₀.toNat ∧ b₀.toNat < 0xF5 then
        match bs with
        | b₁ :: b₂ :: b₃ :: bs =>
            if IsSecondByte b₀ b₁ ∧ IsContinuation b₂ ∧ IsContinuation b₃ then
              some (Char.ofNat ((((b₀.toNat - 0xF0) * 64 + (b₁.toNat - 0x80)) * 64 +
                (b₂.toNat - 0x80)) * 64 + (b₃.toNat - 0x80)), bs)
            else none
        | _ => none
      else none

/-- Decodes at most `fuel` characters, to the end of the bytes. -/
def decodeChars : ℕ → List UInt8 → Option (List Char)
  | _, [] => some []
  | 0, _ :: _ => none
  | fuel + 1, b :: bs => do
      let (c, rest) ← decodeChar (b :: bs)
      let cs ← decodeChars fuel rest
      return c :: cs

/-- Decodes a sequence of bytes. Every character takes at least one byte. -/
def fromUtf8 (bytes : List UInt8) : Option (List Char) := decodeChars bytes.length bytes

/-- An ASCII byte is a character of its own. -/
theorem decodeChar_ascii {b : UInt8} (h : b.toNat < 0x80) (bs : List UInt8) :
    decodeChar (b :: bs) = some (Char.ofNat b.toNat, bs) :=
  if_pos h

/-! ### Characters -/

/-- The bytes that encode a character, by their number. -/
inductive Encodes (c : Char) : List UInt8 → Prop
  | one {b₀ : UInt8} (hlt : b₀.toNat < 0x80) (hval : b₀.toNat = c.toNat) : Encodes c [b₀]
  | two {b₀ b₁ : UInt8} (hlo : 0xC2 ≤ b₀.toNat) (hhi : b₀.toNat < 0xE0) (h₁ : IsContinuation b₁)
      (hval : (b₀.toNat - 0xC0) * 64 + (b₁.toNat - 0x80) = c.toNat) : Encodes c [b₀, b₁]
  | three {b₀ b₁ b₂ : UInt8} (hlo : 0xE0 ≤ b₀.toNat) (hhi : b₀.toNat < 0xF0)
      (h₁ : IsSecondByte b₀ b₁) (h₂ : IsContinuation b₂)
      (hval : ((b₀.toNat - 0xE0) * 64 + (b₁.toNat - 0x80)) * 64 + (b₂.toNat - 0x80) = c.toNat) :
      Encodes c [b₀, b₁, b₂]
  | four {b₀ b₁ b₂ b₃ : UInt8} (hlo : 0xF0 ≤ b₀.toNat) (hhi : b₀.toNat < 0xF5)
      (h₁ : IsSecondByte b₀ b₁) (h₂ : IsContinuation b₂) (h₃ : IsContinuation b₃)
      (hval : (((b₀.toNat - 0xF0) * 64 + (b₁.toNat - 0x80)) * 64 + (b₂.toNat - 0x80)) * 64 +
        (b₃.toNat - 0x80) = c.toNat) : Encodes c [b₀, b₁, b₂, b₃]

/-- A small number is a byte. -/
theorem toNat_ofNat_of_lt {n : ℕ} (h : n < 256) : (UInt8.ofNat n).toNat = n := by
  rw [UInt8.toNat_ofNat', Nat.mod_eq_of_lt h]

/-- The bounds of the second byte, by what they exclude. -/
theorem isSecondByte_iff {b₀ b₁ : UInt8} : IsSecondByte b₀ b₁ ↔ IsContinuation b₁ ∧
    (b₀.toNat = 0xE0 → 0xA0 ≤ b₁.toNat) ∧ (b₀.toNat = 0xED → b₁.toNat ≤ 0x9F) ∧
      (b₀.toNat = 0xF0 → 0x90 ≤ b₁.toNat) ∧ (b₀.toNat = 0xF4 → b₁.toNat ≤ 0x8F) := by
  rw [IsSecondByte, utf8SecondByte, IsContinuation]
  repeat' split
  all_goals dsimp only; omega

/-- The encoding of a character, by its size. -/
theorem utf8EncodeChar_eq (c : Char) : String.utf8EncodeChar c =
    if c.toNat ≤ 0x7F then [UInt8.ofNat c.toNat]
    else if c.toNat ≤ 0x7FF then
      [UInt8.ofNat (c.toNat / 64 % 32 + 0xC0), UInt8.ofNat (c.toNat % 64 + 0x80)]
    else if c.toNat ≤ 0xFFFF then
      [UInt8.ofNat (c.toNat / 4096 % 16 + 0xE0), UInt8.ofNat (c.toNat / 64 % 64 + 0x80),
        UInt8.ofNat (c.toNat % 64 + 0x80)]
    else
      [UInt8.ofNat (c.toNat / 262144 % 8 + 0xF0), UInt8.ofNat (c.toNat / 4096 % 64 + 0x80),
        UInt8.ofNat (c.toNat / 64 % 64 + 0x80), UInt8.ofNat (c.toNat % 64 + 0x80)] :=
  rfl

/-- **The encoding of a character** is one that decodes. -/
theorem encodes_utf8EncodeChar (c : Char) : Encodes c (String.utf8EncodeChar c) := by
  have hvalid : c.toNat < 0xD800 ∨ (0xDFFF < c.toNat ∧ c.toNat < 0x110000) := c.valid
  have hbyte := @toNat_ofNat_of_lt
  rw [utf8EncodeChar_eq]
  split
  · have h₀ := hbyte (n := c.toNat) (by omega)
    exact .one (by omega) h₀
  · split
    · have h₀ := hbyte (n := c.toNat / 64 % 32 + 0xc0) (by omega)
      have h₁ := hbyte (n := c.toNat % 64 + 0x80) (by omega)
      refine .two ?_ ?_ ⟨?_, ?_⟩ ?_ <;> omega
    · split
      · have h₀ := hbyte (n := c.toNat / 4096 % 16 + 0xe0) (by omega)
        have h₁ := hbyte (n := c.toNat / 64 % 64 + 0x80) (by omega)
        have h₂ := hbyte (n := c.toNat % 64 + 0x80) (by omega)
        refine .three ?_ ?_ (isSecondByte_iff.mpr ⟨⟨?_, ?_⟩, ?_, ?_, ?_, ?_⟩) ⟨?_, ?_⟩ ?_ <;> omega
      · have h₀ := hbyte (n := c.toNat / 262144 % 8 + 0xf0) (by omega)
        have h₁ := hbyte (n := c.toNat / 4096 % 64 + 0x80) (by omega)
        have h₂ := hbyte (n := c.toNat / 64 % 64 + 0x80) (by omega)
        have h₃ := hbyte (n := c.toNat % 64 + 0x80) (by omega)
        refine .four ?_ ?_ (isSecondByte_iff.mpr ⟨⟨?_, ?_⟩, ?_, ?_, ?_, ?_⟩) ⟨?_, ?_⟩
          ⟨?_, ?_⟩ ?_ <;> omega

/-- A byte is determined by its number. -/
theorem ofNat_eq {b : UInt8} {n : ℕ} (h : n = b.toNat) : UInt8.ofNat n = b := by
  rw [h, UInt8.ofNat_toNat]

/-- No other bytes encode the character. -/
theorem Encodes.eq {c : Char} {bytes : List UInt8} (h : Encodes c bytes) :
    bytes = String.utf8EncodeChar c := by
  rw [utf8EncodeChar_eq]
  cases h with
  | one hlt hval => rw [if_pos (by omega), ofNat_eq hval.symm]
  | @two b₀ b₁ hlo hhi h₁ hval =>
      obtain ⟨hl, hh⟩ := h₁
      have e₀ : UInt8.ofNat (c.toNat / 64 % 32 + 0xC0) = b₀ := ofNat_eq (by omega)
      have e₁ : UInt8.ofNat (c.toNat % 64 + 0x80) = b₁ := ofNat_eq (by omega)
      rw [if_neg (by omega), if_pos (by omega), e₀, e₁]
  | @three b₀ b₁ b₂ hlo hhi h₁ h₂ hval =>
      obtain ⟨⟨hl, hh⟩, hE0, -⟩ := isSecondByte_iff.mp h₁
      obtain ⟨hl', hh'⟩ := h₂
      have e₀ : UInt8.ofNat (c.toNat / 4096 % 16 + 0xE0) = b₀ := ofNat_eq (by omega)
      have e₁ : UInt8.ofNat (c.toNat / 64 % 64 + 0x80) = b₁ := ofNat_eq (by omega)
      have e₂ : UInt8.ofNat (c.toNat % 64 + 0x80) = b₂ := ofNat_eq (by omega)
      rw [if_neg (by omega), if_neg (by omega), if_pos (by omega), e₀, e₁, e₂]
  | @four b₀ b₁ b₂ b₃ hlo hhi h₁ h₂ h₃ hval =>
      obtain ⟨⟨hl, hh⟩, -, -, hF0, -⟩ := isSecondByte_iff.mp h₁
      obtain ⟨hl', hh'⟩ := h₂
      obtain ⟨hl'', hh''⟩ := h₃
      have e₀ : UInt8.ofNat (c.toNat / 262144 % 8 + 0xF0) = b₀ := ofNat_eq (by omega)
      have e₁ : UInt8.ofNat (c.toNat / 4096 % 64 + 0x80) = b₁ := ofNat_eq (by omega)
      have e₂ : UInt8.ofNat (c.toNat / 64 % 64 + 0x80) = b₂ := ofNat_eq (by omega)
      have e₃ : UInt8.ofNat (c.toNat % 64 + 0x80) = b₃ := ofNat_eq (by omega)
      rw [if_neg (by omega), if_neg (by omega), if_neg (by omega), e₀, e₁, e₂, e₃]

/-- A character that is encoded is decoded. -/
theorem Encodes.decodeChar {c : Char} {bytes : List UInt8} (h : Encodes c bytes)
    (rest : List UInt8) : decodeChar (bytes ++ rest) = some (c, rest) := by
  cases h with
  | one hlt hval =>
      rw [List.singleton_append, decodeChar_ascii hlt, hval, Char.ofNat_toNat]
  | two hlo hhi h₁ hval =>
      simp only [List.cons_append, List.nil_append, HydroxKernel.decodeChar]
      rw [if_neg (by omega), if_pos ⟨hlo, hhi⟩, if_pos h₁, hval, Char.ofNat_toNat]
  | three hlo hhi h₁ h₂ hval =>
      simp only [List.cons_append, List.nil_append, HydroxKernel.decodeChar]
      rw [if_neg (by omega), if_neg (by omega), if_pos ⟨hlo, hhi⟩, if_pos ⟨h₁, h₂⟩, hval,
        Char.ofNat_toNat]
  | four hlo hhi h₁ h₂ h₃ hval =>
      simp only [List.cons_append, List.nil_append, HydroxKernel.decodeChar]
      rw [if_neg (by omega), if_neg (by omega), if_neg (by omega), if_pos ⟨hlo, hhi⟩,
        if_pos ⟨h₁, h₂, h₃⟩, hval, Char.ofNat_toNat]

/-- The number of a character that is made from a number. -/
theorem toNat_charOfNat {n : ℕ} (hn : n < 0xD800 ∨ (0xDFFF < n ∧ n < 0x110000)) :
    (Char.ofNat n).toNat = n := by
  rw [Char.ofNat, dif_pos hn]
  rfl

/-- What is decoded to a character, encodes it. -/
theorem encodes_of_decodeChar {c : Char} {bs rest : List UInt8}
    (h : decodeChar bs = some (c, rest)) : ∃ bytes, Encodes c bytes ∧ bs = bytes ++ rest := by
  unfold decodeChar at h
  split at h
  · cases h
  rename_i b₀ bs
  split at h
  · rename_i hlt
    obtain ⟨rfl, rfl⟩ := Prod.mk.inj (Option.some.inj h)
    exact ⟨[b₀], .one hlt (toNat_charOfNat (by omega)).symm, rfl⟩
  split at h
  · rename_i hge hrange
    split at h
    · rename_i b₁ bs
      split at h
      · rename_i h₁
        obtain ⟨rfl, rfl⟩ := Prod.mk.inj (Option.some.inj h)
        have h₁' := h₁
        rw [IsContinuation] at h₁'
        exact ⟨[b₀, b₁], .two hrange.1 hrange.2 h₁ (toNat_charOfNat (by omega)).symm, rfl⟩
      · cases h
    · cases h
  split at h
  · rename_i hrange
    split at h
    · rename_i b₁ b₂ bs
      split at h
      · rename_i hb
        obtain ⟨rfl, rfl⟩ := Prod.mk.inj (Option.some.inj h)
        obtain ⟨⟨hl, hh⟩, hE0, hED, -⟩ := isSecondByte_iff.mp hb.1
        obtain ⟨hl', hh'⟩ := hb.2
        exact ⟨[b₀, b₁, b₂], .three hrange.1 hrange.2 hb.1 hb.2
          (toNat_charOfNat (by omega)).symm, rfl⟩
      · cases h
    · cases h
  split at h
  · rename_i hrange
    split at h
    · rename_i b₁ b₂ b₃ bs
      split at h
      · rename_i hb
        obtain ⟨rfl, rfl⟩ := Prod.mk.inj (Option.some.inj h)
        obtain ⟨⟨hl, hh⟩, -, -, hF0, hF4⟩ := isSecondByte_iff.mp hb.1
        obtain ⟨hl', hh'⟩ := hb.2.1
        obtain ⟨hl'', hh''⟩ := hb.2.2
        exact ⟨[b₀, b₁, b₂, b₃], .four hrange.1 hrange.2 hb.1 hb.2.1 hb.2.2
          (toNat_charOfNat (by omega)).symm, rfl⟩
      · cases h
    · cases h
  · cases h

/-- **A character is decoded exactly from its encoding.** -/
theorem decodeChar_eq_some_iff {c : Char} {bs rest : List UInt8} :
    decodeChar bs = some (c, rest) ↔ bs = String.utf8EncodeChar c ++ rest := by
  constructor
  · intro h
    obtain ⟨bytes, henc, rfl⟩ := encodes_of_decodeChar h
    rw [henc.eq]
  · rintro rfl
    exact (encodes_utf8EncodeChar c).decodeChar rest

/-! ### Strings -/

/-- The bytes of a string. -/
def asBytes (s : List Char) : List UInt8 := s.flatMap String.utf8EncodeChar

/-- The bytes of two strings, one after the other. -/
theorem asBytes_append (s t : List Char) : asBytes (s ++ t) = asBytes s ++ asBytes t :=
  List.flatMap_append

/-- The bytes of a string with one more character. -/
theorem asBytes_cons (c : Char) (s : List Char) :
    asBytes (c :: s) = String.utf8EncodeChar c ++ asBytes s :=
  List.flatMap_cons

/-- Only the empty string has no bytes. -/
theorem asBytes_eq_nil {s : List Char} : asBytes s = [] ↔ s = [] := by
  cases s with
  | nil => simp [asBytes]
  | cons c s => simp [asBytes_cons, String.utf8EncodeChar_ne_nil]

/-- With enough fuel, a string is decoded exactly from its bytes. -/
theorem decodeChars_eq_some_iff {fuel : ℕ} {bs : List UInt8} (hfuel : bs.length ≤ fuel)
    {s : List Char} : decodeChars fuel bs = some s ↔ bs = asBytes s := by
  induction fuel generalizing bs s with
  | zero =>
      obtain rfl := List.eq_nil_of_length_eq_zero (Nat.le_zero.mp hfuel)
      rw [decodeChars, Option.some.injEq, eq_comm, eq_comm (a := []), asBytes_eq_nil]
  | succ fuel ih =>
      cases bs with
      | nil => rw [decodeChars, Option.some.injEq, eq_comm, eq_comm (a := []), asBytes_eq_nil]
      | cons b bs =>
          simp only [decodeChars, Option.bind_eq_bind, Option.bind_eq_some_iff, Option.pure_def,
            Option.some.injEq, Prod.exists]
          constructor
          · rintro ⟨c, rest, hc, t, ht, rfl⟩
            rw [decodeChar_eq_some_iff] at hc
            have hlen := congrArg List.length hc
            have hpos := c.utf8Size_pos
            rw [List.length_append, String.length_utf8EncodeChar, List.length_cons] at hlen
            rw [List.length_cons] at hfuel
            rw [hc, asBytes_cons, (ih (by omega)).mp ht]
          · intro heq
            cases s with
            | nil => cases heq
            | cons c s =>
                rw [asBytes_cons] at heq
                have hlen := congrArg List.length heq
                have hpos := c.utf8Size_pos
                rw [List.length_append, String.length_utf8EncodeChar, List.length_cons] at hlen
                rw [List.length_cons] at hfuel
                exact ⟨c, asBytes s, decodeChar_eq_some_iff.mpr heq, s,
                  (ih (by omega)).mpr rfl, rfl⟩

/-- **A string is decoded exactly from its bytes.** -/
theorem fromUtf8_eq_some_iff {bs : List UInt8} {s : List Char} :
    fromUtf8 bs = some s ↔ bs = asBytes s :=
  decodeChars_eq_some_iff (Nat.le_refl _)

/-- A string is decoded from its bytes. -/
theorem fromUtf8_asBytes (s : List Char) : fromUtf8 (asBytes s) = some s :=
  fromUtf8_eq_some_iff.mpr rfl

/-- A character is decoded from its encoding. -/
theorem fromUtf8_utf8EncodeChar (c : Char) : fromUtf8 (String.utf8EncodeChar c) = some [c] := by
  rw [fromUtf8_eq_some_iff, asBytes_cons]
  exact (List.append_nil _).symm

/-- A sequence of bytes that is not empty decodes to characters. -/
theorem fromUtf8_ne_nil {b : UInt8} {bs : List UInt8} : fromUtf8 (b :: bs) ≠ some [] :=
  fun h => nomatch fromUtf8_eq_some_iff.mp h

/-- **Nothing is decoded from a part of the encoding of a character.** -/
theorem fromUtf8_take_eq_none {c : Char} {n : ℕ} (hpos : 0 < n) (hlt : n < c.utf8Size) :
    fromUtf8 ((String.utf8EncodeChar c).take n) = none := by
  have hlen : n < (String.utf8EncodeChar c).length := by rwa [String.length_utf8EncodeChar]
  rw [Option.eq_none_iff_forall_not_mem]
  intro s hs
  rw [Option.mem_def, fromUtf8_eq_some_iff] at hs
  cases s with
  | nil =>
      have hnil := congrArg List.length hs
      rw [List.length_take_of_le (Nat.le_of_lt hlen)] at hnil
      exact absurd hnil (Nat.ne_of_gt hpos)
  | cons d s =>
      -- the encoding of `d` begins the encoding of `c`, so both are decoded to the same
      rw [asBytes_cons] at hs
      have hsplit := List.take_append_drop n (String.utf8EncodeChar c)
      rw [hs, List.append_assoc] at hsplit
      have hd := decodeChar_eq_some_iff.mpr hsplit.symm
      have hc := decodeChar_eq_some_iff.mpr (List.append_nil (String.utf8EncodeChar c)).symm
      have hrest := congrArg Prod.snd (Option.some.inj (hd.symm.trans hc))
      have hdrop := congrArg List.length (List.append_eq_nil_iff.mp hrest).2
      rw [List.length_drop, List.length_nil] at hdrop
      omega

/-- The bytes of a string are below `0xF5`. -/
theorem toNat_lt_of_mem_asBytes {s : List Char} {b : UInt8} (hb : b ∈ asBytes s) :
    b.toNat < 0xF5 := by
  obtain ⟨c, -, hc⟩ := List.mem_flatMap.mp hb
  have henc := encodes_utf8EncodeChar c
  generalize String.utf8EncodeChar c = bytes at henc hc
  cases henc with
  | one hlt hval =>
      obtain rfl := List.mem_singleton.mp hc
      omega
  | two hlo hhi h₁ hval =>
      simp only [List.mem_cons, List.not_mem_nil, or_false] at hc
      have hle := h₁.2
      rcases hc with rfl | rfl <;> omega
  | three hlo hhi h₁ h₂ hval =>
      simp only [List.mem_cons, List.not_mem_nil, or_false] at hc
      have hle₁ := (isSecondByte_iff.mp h₁).1.2
      have hle₂ := h₂.2
      rcases hc with rfl | rfl | rfl <;> omega
  | four hlo hhi h₁ h₂ h₃ hval =>
      simp only [List.mem_cons, List.not_mem_nil, or_false] at hc
      have hle₁ := (isSecondByte_iff.mp h₁).1.2
      have hle₂ := h₂.2
      have hle₃ := h₃.2
      rcases hc with rfl | rfl | rfl | rfl <;> omega

/-- A character of one byte is that byte. -/
theorem toNat_toUInt8 {c : Char} (hc : c.utf8Size = 1) :
    c.toUInt8.toNat = c.toNat ∧ c.toNat < 0x80 := by
  have hle : c.toNat ≤ 127 := Char.utf8Size_eq_one_iff.mp hc
  refine ⟨?_, by omega⟩
  change (UInt8.ofNat c.toNat).toNat = c.toNat
  rw [UInt8.toNat_ofNat', Nat.mod_eq_of_lt (by omega)]

/-- The bytes of a string of characters of one byte. -/
theorem asBytes_eq_map {s : List Char} (hs : ∀ c ∈ s, c.utf8Size = 1) :
    asBytes s = s.map Char.toUInt8 := by
  induction s with
  | nil => rfl
  | cons c s ih =>
      have hc := String.utf8EncodeChar_eq_singleton (hs c List.mem_cons_self)
      have htail := ih fun c hc => hs c (List.mem_cons_of_mem _ hc)
      rw [asBytes, List.flatMap_cons, hc, List.map_cons]
      exact congrArg _ htail

end HydroxKernel
