import HydroxKernel.Lib.Assert

/-!
# Scancodes

A PS/2 keyboard sends scancodes of one to five bytes, one byte for each interrupt. The bytes are
collected in a buffer, and after each one the buffer is parsed from its beginning. A scancode has
to be recognized at its last byte: the buffer has no room for more, and what is parsed has to be
all that is in it.

## Main results

* `tryParse_eq_none_iff`: the bytes that are no scancode yet.
* `Incomplete.begins`: they begin a scancode, but that two bytes are not looked at.
* `ScancodeBuffer.Framed.receive`: one byte does not panic, and leaves such bytes.
* `ScancodeBuffer.Framed.receiveAll_encode`: scancodes are recognized as they are sent.
-/

namespace HydroxKernel.Keyboard

/-- `ScancodeKey`. -/
inductive ScancodeKey
  | basic (b : UInt8)
  | extended (b : UInt8)
  | dualExtended (b₀ b₁ : UInt8)
  deriving DecidableEq

/-- `Scancode`. -/
structure Scancode where
  key : ScancodeKey
  released : Bool
  deriving DecidableEq

/-- `Scancode::try_parse`. -/
def Scancode.tryParse : List UInt8 → Option (Scancode × ℕ)
  | [] => none
  | b₀ :: buf =>
      if b₀ = 0xE0 then
        match buf with
        | [] => none
        | b₁ :: buf =>
            if b₁ = 0xF0 then
              match buf with
              | b₂ :: _ => some (⟨.extended b₂, true⟩, 3)
              | [] => none
            else some (⟨.extended b₁, false⟩, 2)
      else if b₀ = 0xE1 then
        match buf with
        | [] => none
        | b₁ :: buf =>
            if b₁ = 0xF0 then
              match buf with
              | b₂ :: _ :: b₄ :: _ => some (⟨.dualExtended b₂ b₄, true⟩, 5)
              | _ => none
            else
              match buf with
              | b₂ :: _ => some (⟨.dualExtended b₁ b₂, false⟩, 3)
              | [] => none
      else if b₀ = 0xF0 then
        match buf with
        | b₁ :: _ => some (⟨.basic b₁, true⟩, 2)
        | [] => none
      else some (⟨.basic b₀, false⟩, 1)

/-- What goes wrong in a keyboard's buffer of scancodes. -/
inductive BufferPanic
  /-- An index of the buffer is out of bounds. -/
  | outOfBounds
  /-- The `assert_eq!` on the length of the scancode. -/
  | badLength
  /-- The `assert!` on the room in the buffer. -/
  | full
  deriving DecidableEq

/-- `scancode_buf` and `scancode_buf_pos`. -/
structure ScancodeBuffer where
  buf : List UInt8
  pos : ℕ

/-- The empty buffer. -/
def ScancodeBuffer.new : ScancodeBuffer := ⟨List.replicate 5 0, 0⟩

/-- What `handle_interrupt` does to the buffer with a byte, and the scancode that it ends. -/
def ScancodeBuffer.receive (s : ScancodeBuffer) (b : UInt8) :
    Except BufferPanic (Option Scancode × ScancodeBuffer) := do
  ensure (s.pos < s.buf.length) .outOfBounds
  let s : ScancodeBuffer := ⟨s.buf.set s.pos b, s.pos + 1⟩
  ensure (s.pos ≤ s.buf.length) .outOfBounds
  match Scancode.tryParse (s.buf.take s.pos) with
  | some (scancode, len) => do
      ensure (len = s.pos) .badLength
      return (some scancode, ⟨s.buf, 0⟩)
  | none => do
      ensure (s.pos < s.buf.length) .full
      return (none, s)

/-! ### Bytes that are no scancode yet -/

/-- The bytes that `try_parse` wants more of. -/
inductive Incomplete : List UInt8 → Prop
  | empty : Incomplete []
  | released : Incomplete [0xF0]
  | extended : Incomplete [0xE0]
  | extendedReleased : Incomplete [0xE0, 0xF0]
  | dual : Incomplete [0xE1]
  | dualFirst {b : UInt8} (hb : b ≠ 0xF0) : Incomplete [0xE1, b]
  | dualReleased : Incomplete [0xE1, 0xF0]
  | dualReleasedFirst (b : UInt8) : Incomplete [0xE1, 0xF0, b]
  | dualReleasedSecond (b b' : UInt8) : Incomplete [0xE1, 0xF0, b, b']

/-- **The bytes that are no scancode yet.** -/
theorem tryParse_eq_none_iff {buf : List UInt8} :
    Scancode.tryParse buf = none ↔ Incomplete buf := by
  constructor
  · intro h
    cases buf with
    | nil => exact .empty
    | cons b₀ buf =>
        simp only [Scancode.tryParse] at h
        split at h
        · rename_i hext
          subst hext
          cases buf with
          | nil => exact .extended
          | cons b₁ buf =>
              dsimp only at h
              split at h
              · rename_i hrel
                subst hrel
                cases buf with
                | nil => exact .extendedReleased
                | cons b₂ buf => cases h
              · cases h
        split at h
        · rename_i hdual
          subst hdual
          cases buf with
          | nil => exact .dual
          | cons b₁ buf =>
              dsimp only at h
              split at h
              · rename_i hrel
                subst hrel
                match buf with
                | [] => exact .dualReleased
                | [b] => exact .dualReleasedFirst b
                | [b, b'] => exact .dualReleasedSecond b b'
                | _ :: _ :: _ :: _ => cases h
              · rename_i hrel
                cases buf with
                | nil => exact .dualFirst hrel
                | cons b₂ buf => cases h
        split at h
        · rename_i hrel
          subst hrel
          cases buf with
          | nil => exact .released
          | cons b₁ buf => cases h
        · cases h
  · intro h
    cases h with
    | dualFirst hb => exact if_neg hb
    | _ => rfl

/-- **One more byte** ends a scancode of all the bytes, or leaves room for another one. -/
theorem Incomplete.receive {buf : List UInt8} (h : Incomplete buf) (b : UInt8) :
    (∃ scancode, Scancode.tryParse (buf ++ [b]) = some (scancode, buf.length + 1)) ∨
      Incomplete (buf ++ [b]) ∧ buf.length + 1 < 5 := by
  cases h with
  | empty =>
      by_cases hrel : b = 0xF0
      · subst hrel
        exact .inr ⟨.released, by decide⟩
      by_cases hext : b = 0xE0
      · subst hext
        exact .inr ⟨.extended, by decide⟩
      by_cases hdual : b = 0xE1
      · subst hdual
        exact .inr ⟨.dual, by decide⟩
      refine .inl ⟨⟨.basic b, false⟩, ?_⟩
      simp only [List.nil_append, Scancode.tryParse, if_neg hext, if_neg hdual, if_neg hrel]
      rfl
  | released => exact .inl ⟨⟨.basic b, true⟩, rfl⟩
  | extended =>
      by_cases hrel : b = 0xF0
      · subst hrel
        exact .inr ⟨.extendedReleased, by decide⟩
      · exact .inl ⟨⟨.extended b, false⟩, if_neg hrel⟩
  | extendedReleased => exact .inl ⟨⟨.extended b, true⟩, rfl⟩
  | dual =>
      by_cases hrel : b = 0xF0
      · subst hrel
        exact .inr ⟨.dualReleased, by decide⟩
      · exact .inr ⟨.dualFirst hrel, by simp⟩
  | @dualFirst b₁ hb => exact .inl ⟨⟨.dualExtended b₁ b, false⟩, if_neg hb⟩
  | dualReleased => exact .inr ⟨.dualReleasedFirst b, by simp⟩
  | dualReleasedFirst b₂ => exact .inr ⟨.dualReleasedSecond b₂ b, by simp⟩
  | dualReleasedSecond b₂ b₃ => exact .inl ⟨⟨.dualExtended b₂ b, true⟩, rfl⟩

/-- A beginning of the beginning of a scancode. -/
theorem Incomplete.take {buf : List UInt8} (h : Incomplete buf) (n : ℕ) :
    Incomplete (buf.take n) := by
  cases h with
  | empty => rw [List.take_nil]; exact .empty
  | released =>
      cases n with
      | zero => exact .empty
      | succ n => rw [List.take_succ_cons, List.take_nil]; exact .released
  | extended =>
      cases n with
      | zero => exact .empty
      | succ n => rw [List.take_succ_cons, List.take_nil]; exact .extended
  | extendedReleased =>
      match n with
      | 0 => exact .empty
      | 1 => exact .extended
      | n + 2 => rw [List.take_of_length_le (by simp)]; exact .extendedReleased
  | dual =>
      cases n with
      | zero => exact .empty
      | succ n => rw [List.take_succ_cons, List.take_nil]; exact .dual
  | dualFirst hb =>
      match n with
      | 0 => exact .empty
      | 1 => exact .dual
      | n + 2 => rw [List.take_of_length_le (by simp)]; exact .dualFirst hb
  | dualReleased =>
      match n with
      | 0 => exact .empty
      | 1 => exact .dual
      | n + 2 => rw [List.take_of_length_le (by simp)]; exact .dualReleased
  | dualReleasedFirst b =>
      match n with
      | 0 => exact .empty
      | 1 => exact .dual
      | 2 => exact .dualReleased
      | n + 3 => rw [List.take_of_length_le (by simp)]; exact .dualReleasedFirst b
  | dualReleasedSecond b b' =>
      match n with
      | 0 => exact .empty
      | 1 => exact .dual
      | 2 => exact .dualReleased
      | 3 => exact .dualReleasedFirst b
      | n + 4 => rw [List.take_of_length_le (by simp)]; exact .dualReleasedSecond b b'

/-- The bytes are a scancode: they are parsed as a whole, and no beginning of them is parsed. -/
structure IsCode (bytes : List UInt8) (scancode : Scancode) : Prop where
  whole : Scancode.tryParse bytes = some (scancode, bytes.length)
  beginning : ∀ n < bytes.length, Scancode.tryParse (bytes.take n) = none

/-- The byte that ends a scancode. -/
theorem Incomplete.isCode {buf : List UInt8} (h : Incomplete buf) {b : UInt8}
    {scancode : Scancode}
    (hparse : Scancode.tryParse (buf ++ [b]) = some (scancode, buf.length + 1)) :
    IsCode (buf ++ [b]) scancode := by
  refine ⟨by rw [hparse, List.length_append, List.length_singleton], fun n hn => ?_⟩
  rw [List.length_append, List.length_singleton] at hn
  rw [List.take_append_of_le_length (Nat.le_of_lt_succ hn), tryParse_eq_none_iff]
  exact h.take n

/-! ### Encoding -/

/-- A key that a keyboard can send a scancode of. -/
def ScancodeKey.Valid : ScancodeKey → Prop
  | .basic b => b ≠ 0xE0 ∧ b ≠ 0xE1 ∧ b ≠ 0xF0
  | .extended b => b ≠ 0xF0
  | .dualExtended b₀ _ => b₀ ≠ 0xF0

/-- The bytes that a keyboard sends. -/
def Scancode.encode : Scancode → List UInt8
  | ⟨.basic b, false⟩ => [b]
  | ⟨.basic b, true⟩ => [0xF0, b]
  | ⟨.extended b, false⟩ => [0xE0, b]
  | ⟨.extended b, true⟩ => [0xE0, 0xF0, b]
  | ⟨.dualExtended b₀ b₁, false⟩ => [0xE1, b₀, b₁]
  | ⟨.dualExtended b₀ b₁, true⟩ => [0xE1, 0xF0, b₀, 0xF0, b₁]

/-- What is recognized at the bytes of a scancode: nothing before the last one, and the scancode
there. -/
def Scancode.outputs (scancode : Scancode) : List (Option Scancode) :=
  List.replicate (scancode.encode.length - 1) none ++ [some scancode]

/-- **The bytes that a keyboard sends** are a scancode. -/
theorem isCode_encode {scancode : Scancode} (hvalid : scancode.key.Valid) :
    IsCode scancode.encode scancode := by
  obtain ⟨key, released⟩ := scancode
  cases key with
  | basic b =>
      cases released with
      | false =>
          obtain ⟨hext, hdual, hrel⟩ := hvalid
          refine Incomplete.empty.isCode ?_
          simp only [List.nil_append, Scancode.tryParse, if_neg hext, if_neg hdual, if_neg hrel]
          rfl
      | true => exact Incomplete.released.isCode rfl
  | extended b =>
      cases released with
      | false => exact Incomplete.extended.isCode (if_neg hvalid)
      | true => exact Incomplete.extendedReleased.isCode rfl
  | dualExtended b₀ b₁ =>
      cases released with
      | false =>
          have hfirst : Incomplete [0xE1, b₀] := .dualFirst hvalid
          exact hfirst.isCode (if_neg hvalid)
      | true => exact (Incomplete.dualReleasedSecond b₀ 0xF0).isCode rfl

/-- The bytes begin what a keyboard sends for a key, and are not all of it. -/
def BeginsScancode (buf : List UInt8) : Prop :=
  ∃ scancode : Scancode, scancode.key.Valid ∧ ∃ rest ≠ [], scancode.encode = buf ++ rest

/-- The bytes are those of a dual key that is released, with a first byte that no key has, or
without the second `F0`. -/
def Unchecked (buf : List UInt8) : Prop :=
  buf = [0xE1, 0xF0, 0xF0] ∨ ∃ b b', buf = [0xE1, 0xF0, b, b'] ∧ (b = 0xF0 ∨ b' ≠ 0xF0)

/-- **What is no scancode yet** begins one, but that two of the bytes of a dual key that is released
are not looked at. -/
theorem Incomplete.begins {buf : List UInt8} (h : Incomplete buf) :
    BeginsScancode buf ∨ Unchecked buf := by
  cases h with
  | empty => exact .inl ⟨⟨.extended 0, false⟩, (by decide : (0 : UInt8) ≠ 0xF0), _, by simp, rfl⟩
  | released =>
      exact .inl ⟨⟨.basic 0, true⟩, ⟨by decide, by decide, by decide⟩, [0], by simp, rfl⟩
  | extended =>
      exact .inl ⟨⟨.extended 0, false⟩, (by decide : (0 : UInt8) ≠ 0xF0), [0], by simp, rfl⟩
  | extendedReleased =>
      exact .inl ⟨⟨.extended 0, true⟩, (by decide : (0 : UInt8) ≠ 0xF0), [0], by simp, rfl⟩
  | dual =>
      exact .inl ⟨⟨.dualExtended 0 0, false⟩, (by decide : (0 : UInt8) ≠ 0xF0), [0, 0], by simp,
        rfl⟩
  | @dualFirst b hb => exact .inl ⟨⟨.dualExtended b 0, false⟩, hb, [0], by simp, rfl⟩
  | dualReleased =>
      exact .inl ⟨⟨.dualExtended 0 0, true⟩, (by decide : (0 : UInt8) ≠ 0xF0), [0, 0xF0, 0],
        by simp, rfl⟩
  | dualReleasedFirst b =>
      by_cases hb : b = 0xF0
      · subst hb
        exact .inr (.inl rfl)
      · exact .inl ⟨⟨.dualExtended b 0, true⟩, hb, [0xF0, 0], by simp, rfl⟩
  | dualReleasedSecond b b' =>
      by_cases hb : b = 0xF0 ∨ b' ≠ 0xF0
      · exact .inr (.inr ⟨b, b', rfl, hb⟩)
      · obtain ⟨hfirst, hsecond⟩ := not_or.mp hb
        obtain rfl := not_not.mp hsecond
        exact .inl ⟨⟨.dualExtended b 0, true⟩, hfirst, [0], by simp, rfl⟩

/-! ### The buffer -/

/-- The bytes in the buffer. -/
def ScancodeBuffer.contents (s : ScancodeBuffer) : List UInt8 := s.buf.take s.pos

/-- The buffer holds a beginning of a scancode. -/
structure ScancodeBuffer.Framed (s : ScancodeBuffer) : Prop where
  length : s.buf.length = 5
  pos : s.pos < 5
  incomplete : Incomplete s.contents

/-- An empty buffer. -/
theorem ScancodeBuffer.framed_of_pos {s : ScancodeBuffer} (hlength : s.buf.length = 5)
    (hpos : s.pos = 0) : s.Framed := by
  refine ⟨hlength, by omega, ?_⟩
  rw [contents, hpos, List.take_zero]
  exact .empty

/-- The bytes in the buffer, and one more. -/
theorem ScancodeBuffer.take_set {buf : List UInt8} {pos : ℕ} (hpos : pos < buf.length)
    (b : UInt8) : (buf.set pos b).take (pos + 1) = buf.take pos ++ [b] := by
  rw [List.take_add_one, List.take_set_of_le (Nat.le_refl pos), List.getElem?_set_self hpos]
  rfl

/-- As many bytes are in the buffer as have been received. -/
theorem ScancodeBuffer.Framed.length_contents {s : ScancodeBuffer} (hs : s.Framed) :
    s.contents.length = s.pos :=
  List.length_take_of_le (by rw [hs.length]; exact Nat.le_of_lt hs.pos)

/-- **One byte** does not panic, and the buffer then holds a beginning of a scancode again: none,
if the byte ends a scancode, and otherwise one more byte. -/
theorem ScancodeBuffer.Framed.receive {s : ScancodeBuffer} (hs : s.Framed) (b : UInt8) :
    ∃ r s', s.receive b = .ok (r, s') ∧ s'.Framed ∧
      ((∃ scancode, r = some scancode ∧ s'.pos = 0 ∧
        Scancode.tryParse (s.contents ++ [b]) = some (scancode, s.pos + 1)) ∨
      (r = none ∧ s'.contents = s.contents ++ [b] ∧
        Scancode.tryParse (s.contents ++ [b]) = none)) := by
  have hpos := hs.pos
  have hlt : s.pos < s.buf.length := by rw [hs.length]; exact hpos
  have hlength : (s.buf.set s.pos b).length = 5 := List.length_set.trans hs.length
  have hcontents : (s.buf.set s.pos b).take (s.pos + 1) = s.contents ++ [b] := take_set hlt b
  rw [ScancodeBuffer.receive, ensure_pos hlt, ok_bind]
  dsimp only
  rw [ensure_pos (by omega), ok_bind, hcontents]
  rcases hs.incomplete.receive b with ⟨scancode, hparse⟩ | ⟨hincomplete, hroom⟩
  · rw [hs.length_contents] at hparse
    rw [hparse]
    dsimp only
    rw [ensure_pos rfl, ok_bind]
    exact ⟨_, _, rfl, framed_of_pos hlength rfl, .inl ⟨scancode, rfl, rfl, rfl⟩⟩
  · rw [hs.length_contents] at hroom
    have hparse := tryParse_eq_none_iff.mpr hincomplete
    rw [hparse]
    dsimp only
    rw [ensure_pos (by omega), ok_bind]
    refine ⟨_, _, rfl, ⟨hlength, hroom, ?_⟩, .inr ⟨rfl, hcontents, rfl⟩⟩
    rw [contents, hcontents]
    exact hincomplete

/-- Bytes are received, one after another. -/
def ScancodeBuffer.receiveAll (s : ScancodeBuffer) :
    List UInt8 → Except BufferPanic (List (Option Scancode) × ScancodeBuffer)
  | [] => .ok ([], s)
  | b :: bytes => do
      let (r, s) ← s.receive b
      let (rs, s) ← receiveAll s bytes
      return (r :: rs, s)

/-- One more byte at the beginning. -/
theorem ScancodeBuffer.receiveAll_cons {s s₁ s₂ : ScancodeBuffer} {b : UInt8}
    {bytes : List UInt8} {r : Option Scancode} {rs : List (Option Scancode)}
    (h : s.receive b = .ok (r, s₁)) (h' : s₁.receiveAll bytes = .ok (rs, s₂)) :
    s.receiveAll (b :: bytes) = .ok (r :: rs, s₂) := by
  rw [receiveAll, h, ok_bind]
  dsimp only
  rw [h', ok_bind]
  rfl

/-- Bytes after other bytes. -/
theorem ScancodeBuffer.receiveAll_append {s s₁ s₂ : ScancodeBuffer} {bytes bytes' : List UInt8}
    {rs rs' : List (Option Scancode)} (h : s.receiveAll bytes = .ok (rs, s₁))
    (h' : s₁.receiveAll bytes' = .ok (rs', s₂)) :
    s.receiveAll (bytes ++ bytes') = .ok (rs ++ rs', s₂) := by
  induction bytes generalizing s rs with
  | nil =>
      obtain ⟨rfl, rfl⟩ := Prod.mk.inj (Except.ok.inj h)
      exact h'
  | cons b bytes ih =>
      rw [receiveAll] at h
      obtain ⟨⟨r, t⟩, hbyte, h⟩ := bind_eq_ok.mp h
      obtain ⟨⟨rest, t'⟩, hrest, h⟩ := bind_eq_ok.mp h
      obtain ⟨rfl, rfl⟩ := Prod.mk.inj (Except.ok.inj h)
      exact receiveAll_cons hbyte (ih hrest)

/-- **The rest of a scancode** is recognized at its last byte. -/
theorem ScancodeBuffer.Framed.receiveAll_rest {s : ScancodeBuffer} (hs : s.Framed)
    {scancode : Scancode} {b : UInt8} {bytes : List UInt8}
    (hcode : IsCode (s.contents ++ b :: bytes) scancode) :
    ∃ s', s.receiveAll (b :: bytes) =
        .ok (List.replicate bytes.length none ++ [some scancode], s') ∧ s'.Framed ∧
      s'.pos = 0 := by
  induction bytes generalizing s b with
  | nil =>
      obtain ⟨r, s', hreceive, hs', hcases⟩ := hs.receive b
      have hwhole := hcode.whole
      rcases hcases with ⟨scancode', rfl, hpos, hparse⟩ | ⟨rfl, -, hparse⟩
      · rw [hparse] at hwhole
        obtain rfl := congrArg Prod.fst (Option.some.inj hwhole)
        exact ⟨s', receiveAll_cons hreceive rfl, hs', hpos⟩
      · rw [hparse] at hwhole
        cases hwhole
  | cons b' bytes ih =>
      obtain ⟨r, s₁, hreceive, hs₁, hcases⟩ := hs.receive b
      have hbeginning : Scancode.tryParse (s.contents ++ [b]) = none := by
        have h := hcode.beginning (s.contents ++ [b]).length (by simp)
        have hsplit : s.contents ++ b :: b' :: bytes = s.contents ++ [b] ++ b' :: bytes := by simp
        rwa [hsplit, List.take_left] at h
      rcases hcases with ⟨scancode', -, -, hparse⟩ | ⟨rfl, hcontents, -⟩
      · rw [hparse] at hbeginning
        cases hbeginning
      · have hcode₁ : IsCode (s₁.contents ++ b' :: bytes) scancode := by
          rw [hcontents, List.append_assoc, List.singleton_append]
          exact hcode
        obtain ⟨s₂, hrest, hs₂, hpos⟩ := ih hs₁ hcode₁
        exact ⟨s₂, receiveAll_cons hreceive hrest, hs₂, hpos⟩

/-- **Scancodes are recognized as they are sent**, each at its last byte. -/
theorem ScancodeBuffer.Framed.receiveAll_encode {s : ScancodeBuffer} (hs : s.Framed)
    (hpos : s.pos = 0) {scancodes : List Scancode} (hvalid : ∀ sc ∈ scancodes, sc.key.Valid) :
    ∃ s', s.receiveAll (scancodes.flatMap Scancode.encode) =
        .ok (scancodes.flatMap Scancode.outputs, s') ∧ s'.Framed ∧ s'.pos = 0 := by
  induction scancodes generalizing s with
  | nil => exact ⟨s, rfl, hs, hpos⟩
  | cons scancode scancodes ih =>
      have hcode := isCode_encode (hvalid scancode List.mem_cons_self)
      have hempty : s.contents = [] := by rw [contents, hpos, List.take_zero]
      cases hbytes : scancode.encode with
      | nil =>
          rw [hbytes] at hcode
          cases hcode.whole
      | cons b bytes =>
          rw [hbytes] at hcode
          rw [← List.nil_append (b :: bytes), ← hempty] at hcode
          obtain ⟨s₁, hfirst, hs₁, hpos₁⟩ := hs.receiveAll_rest hcode
          obtain ⟨s₂, hrest, hs₂, hpos₂⟩ :=
            ih hs₁ hpos₁ fun sc hsc => hvalid sc (List.mem_cons_of_mem _ hsc)
          refine ⟨s₂, ?_, hs₂, hpos₂⟩
          rw [List.flatMap_cons, List.flatMap_cons, hbytes, Scancode.outputs, hbytes]
          exact receiveAll_append hfirst hrest

end HydroxKernel.Keyboard
