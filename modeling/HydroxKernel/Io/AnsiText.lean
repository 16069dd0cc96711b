import HydroxKernel.Io.Ansi

/-!
# What Strings Do to a Terminal

A program writes strings to a terminal, and the parser takes bytes. Between escape sequences
the parser is in the state `Normal`, and `Emits` says which actions the bytes of a string have
there, if they lead back to that state. Strings can then be written one after another.

## Main results

* `Emits.append`: the actions of two strings follow one another.
* `outputs_chars`: the characters of a string write themselves, each at its last byte.
* `emits_csi`: a control sequence has the action of its last byte.
* `parseU32_toDigits`: the parser reads a number as it is formatted.
-/

namespace HydroxKernel.Ansi

/-- Bytes are written to the parser. -/
def AnsiParser.writeAll (p : AnsiParser) : List UInt8 → Except Panic (List Action × AnsiParser)
  | [] => .ok ([], p)
  | b :: bytes => do
      let (action, p) ← p.write b
      let (actions, p) ← writeAll p bytes
      return (action.toList ++ actions, p)

/-- Bytes are written after other bytes. -/
theorem writeAll_append {bytes : List UInt8} {p p₁ p₂ : AnsiParser} {actions actions' : List Action}
    {bytes' : List UInt8} (h : p.writeAll bytes = .ok (actions, p₁))
    (h' : p₁.writeAll bytes' = .ok (actions', p₂)) :
    p.writeAll (bytes ++ bytes') = .ok (actions ++ actions', p₂) := by
  induction bytes generalizing p actions with
  | nil =>
      obtain ⟨rfl, rfl⟩ : [] = actions ∧ p = p₁ := by simpa [AnsiParser.writeAll] using h
      exact h'
  | cons b bytes ih =>
      rw [AnsiParser.writeAll] at h
      obtain ⟨⟨action, q⟩, hwrite, h⟩ := bind_eq_ok.mp h
      obtain ⟨⟨rest, q'⟩, hrest, h⟩ := bind_eq_ok.mp h
      obtain ⟨rfl, rfl⟩ := Prod.mk.inj (Except.ok.inj h)
      rw [List.cons_append, AnsiParser.writeAll, hwrite, ok_bind]
      dsimp only
      rw [ih hrest, ok_bind, List.append_assoc]
      rfl

/-- One byte is written. -/
theorem writeAll_singleton {p p' : AnsiParser} {b : UInt8} {action : Option Action}
    (h : p.write b = .ok (action, p')) : p.writeAll [b] = .ok (action.toList, p') := by
  rw [AnsiParser.writeAll, h, ok_bind]
  exact congrArg (fun actions => Except.ok (actions, p')) (List.append_nil _)

/-- Between escape sequences, the string has the actions. -/
def Emits (s : List Char) (actions : List Action) : Prop :=
  ∀ p : AnsiParser, p.state = .normal →
    ∃ p', p.writeAll (asBytes s) = .ok (actions, p') ∧ p'.state = .normal

/-- The empty string does nothing. -/
theorem emits_nil : Emits [] [] := fun p hp => ⟨p, rfl, hp⟩

/-- **Strings one after another** have their actions one after another. -/
theorem Emits.append {s t : List Char} {actions actions' : List Action} (hs : Emits s actions)
    (ht : Emits t actions') : Emits (s ++ t) (actions ++ actions') := by
  intro p hp
  obtain ⟨p₁, hwrite, hp₁⟩ := hs p hp
  obtain ⟨p₂, hwrite', hp₂⟩ := ht p₁ hp₁
  exact ⟨p₂, by rw [asBytes_append]; exact writeAll_append hwrite hwrite', hp₂⟩

/-! ### Characters -/

/-- What each of the bytes does. -/
def AnsiParser.outputs (p : AnsiParser) :
    List UInt8 → Except Panic (List (Option Action) × AnsiParser)
  | [] => .ok ([], p)
  | b :: bytes => do
      let (action, p) ← p.write b
      let (actions, p) ← outputs p bytes
      return (action :: actions, p)

/-- One more byte at the beginning. -/
theorem outputs_cons {p p₁ p₂ : AnsiParser} {b : UInt8} {bytes : List UInt8}
    {action : Option Action} {actions : List (Option Action)} (h : p.write b = .ok (action, p₁))
    (h' : p₁.outputs bytes = .ok (actions, p₂)) :
    p.outputs (b :: bytes) = .ok (action :: actions, p₂) := by
  rw [AnsiParser.outputs, h, ok_bind]
  dsimp only
  rw [h', ok_bind]
  rfl

/-- Bytes after other bytes. -/
theorem outputs_append {bytes : List UInt8} {p p₁ p₂ : AnsiParser}
    {actions actions' : List (Option Action)} {bytes' : List UInt8}
    (h : p.outputs bytes = .ok (actions, p₁)) (h' : p₁.outputs bytes' = .ok (actions', p₂)) :
    p.outputs (bytes ++ bytes') = .ok (actions ++ actions', p₂) := by
  induction bytes generalizing p actions with
  | nil =>
      obtain ⟨rfl, rfl⟩ : [] = actions ∧ p = p₁ := by simpa [AnsiParser.outputs] using h
      exact h'
  | cons b bytes ih =>
      rw [AnsiParser.outputs] at h
      obtain ⟨⟨action, q⟩, hwrite, h⟩ := bind_eq_ok.mp h
      obtain ⟨⟨rest, q'⟩, hrest, h⟩ := bind_eq_ok.mp h
      obtain ⟨rfl, rfl⟩ := Prod.mk.inj (Except.ok.inj h)
      exact outputs_cons hwrite (ih hrest)

/-- The actions are what the bytes do. -/
theorem writeAll_of_outputs {bytes : List UInt8} {p p' : AnsiParser}
    {actions : List (Option Action)} (h : p.outputs bytes = .ok (actions, p')) :
    p.writeAll bytes = .ok (actions.flatMap Option.toList, p') := by
  induction bytes generalizing p actions with
  | nil =>
      obtain ⟨rfl, rfl⟩ : [] = actions ∧ p = p' := by simpa [AnsiParser.outputs] using h
      rfl
  | cons b bytes ih =>
      rw [AnsiParser.outputs] at h
      obtain ⟨⟨action, q⟩, hwrite, h⟩ := bind_eq_ok.mp h
      obtain ⟨⟨rest, q'⟩, hrest, h⟩ := bind_eq_ok.mp h
      obtain ⟨rfl, rfl⟩ := Prod.mk.inj (Except.ok.inj h)
      rw [AnsiParser.writeAll, hwrite, ok_bind]
      dsimp only
      rw [ih hrest, ok_bind, List.flatMap_cons]
      rfl

/-- The first bytes of the buffer, as far as they are in use. -/
def AnsiParser.args (p : AnsiParser) (i : ℕ) : List UInt8 := (List.range i).map p.partialBuf

/-- Storing a byte behind the first ones leaves them. -/
theorem args_update (p : AnsiParser) (i : ℕ) (b : UInt8) :
    { p with partialBuf := Function.update p.partialBuf i b }.args i = p.args i := by
  refine List.map_congr_left fun j hj => ?_
  exact Function.update_of_ne (Nat.ne_of_lt (List.mem_range.mp hj)) _ _

/-- Storing a byte behind the first ones adds it. -/
theorem args_update_succ (p : AnsiParser) (i : ℕ) (b : UInt8) :
    { p with partialBuf := Function.update p.partialBuf i b }.args (i + 1) = p.args i ++ [b] := by
  rw [AnsiParser.args, List.range_succ, List.map_append]
  exact congrArg₂ _ (args_update p i b) (congrArg (· :: []) (Function.update_self _ _ _))

/-- The bytes of a character end with the character. -/
def charOutputs (c : Char) : List (Option Action) :=
  List.replicate (c.utf8Size - 1) none ++ [some (.writeChar c)]

/-- The rest of a UTF-8 sequence. -/
theorem outputs_rest {c : Char} {bs : List UInt8} {p : AnsiParser} {i : ℕ} {b : UInt8}
    (hp : p.state = .partialUtf8 i (i + (b :: bs).length)) (hmax : i + (b :: bs).length ≤ 4)
    (hc : fromUtf8 (p.args i ++ b :: bs) = some [c]) :
    ∃ p', p.outputs (b :: bs) = .ok (List.replicate bs.length none ++ [some (.writeChar c)], p') ∧
      p'.state = .normal := by
  have hcsi : maxCsiLength = 64 := rfl
  induction bs generalizing p i b with
  | nil =>
      rw [List.length_singleton] at hp hmax
      have hwrite : p.write b = .ok (some (.writeChar c),
          { p with partialBuf := Function.update p.partialBuf i b }.goto .normal) := by
        have hargs := args_update_succ p i b
        rw [AnsiParser.args] at hargs
        rw [AnsiParser.write, hp]
        dsimp only
        rw [AnsiParser.writeUtf8, store_eq p (by omega), ok_bind, if_pos rfl, slice_eq _ (by omega),
          ok_bind, hargs, decodeOrReplace, hc]
        rfl
      exact ⟨_, outputs_cons hwrite rfl, rfl⟩
  | cons b' bs ih =>
      rw [List.length_cons] at hp hmax
      have hwrite : p.write b = .ok (none, { p with
          partialBuf := Function.update p.partialBuf i b }.goto
            (.partialUtf8 (i + 1) (i + 1 + (b' :: bs).length))) := by
        rw [AnsiParser.write, hp]
        dsimp only
        rw [AnsiParser.writeUtf8, store_eq p (by omega), ok_bind,
          if_neg (by rw [List.length_cons]; omega), Nat.add_right_comm i 1, Nat.add_assoc]
        rfl
      obtain ⟨p', hrest, hstate⟩ := ih (p := { p with
          partialBuf := Function.update p.partialBuf i b }.goto
            (.partialUtf8 (i + 1) (i + 1 + (b' :: bs).length))) rfl (by omega) (by
        rw [← hc]
        refine congrArg fromUtf8 ?_
        refine (congrArg (· ++ b' :: bs) (args_update_succ p i b)).trans ?_
        rw [List.append_assoc, List.singleton_append])
      exact ⟨p', outputs_cons hwrite hrest, hstate⟩

/-- The first byte of a character of several bytes says how many they are. -/
theorem write_lead {c : Char} {b b' : UInt8} {bs : List UInt8} (h : Encodes c (b :: b' :: bs))
    {p : AnsiParser} (hp : p.state = .normal) :
    p.write b = .ok (none, { p with partialBuf := Function.update p.partialBuf 0 b }.goto
      (.partialUtf8 1 (1 + (b' :: bs).length))) := by
  rw [AnsiParser.write, hp]
  dsimp only
  have hne : b ≠ 0x1b := by
    rintro rfl
    cases h <;> contradiction
  rw [AnsiParser.writeNormal, if_neg hne, store_eq p (by decide)]
  simp only [ok_bind, UInt8.le_iff_toNat_le, UInt8.reduceToNat]
  cases h with
  | two hlo hhi =>
      rw [if_pos (by omega)]
      rfl
  | three hlo hhi =>
      rw [if_neg (by omega), if_pos (by omega)]
      rfl
  | four hlo hhi =>
      rw [if_neg (by omega), if_neg (by omega), if_pos (by omega)]
      rfl

/-- A character of one byte is written. -/
theorem write_ascii {c : Char} {b : UInt8} (hlt : b.toNat < 0x80) (hval : b.toNat = c.toNat)
    (hesc : c ≠ '\x1b') {p : AnsiParser} (hp : p.state = .normal) :
    p.write b = .ok (some (.writeChar c), p) := by
  have hne : b ≠ 0x1b := by
    rintro rfl
    exact hesc (Char.toNat_inj.mp hval.symm)
  rw [AnsiParser.write, hp]
  dsimp only
  rw [AnsiParser.writeNormal, if_neg hne, if_neg, if_neg, if_neg, hval, Char.ofNat_toNat]
  all_goals
    simp only [UInt8.le_iff_toNat_le, UInt8.reduceToNat]
    omega

/-- **The bytes of a character** that does not begin an escape sequence write it, at the last
of them. -/
theorem outputs_char {c : Char} (hesc : c ≠ '\x1b') {p : AnsiParser} (hp : p.state = .normal) :
    ∃ p', p.outputs (String.utf8EncodeChar c) = .ok (charOutputs c, p') ∧ p'.state = .normal := by
  have henc := encodes_utf8EncodeChar c
  have hdecode := fromUtf8_utf8EncodeChar c
  have hsize := String.length_utf8EncodeChar c
  rw [charOutputs, ← hsize]
  generalize String.utf8EncodeChar c = bytes at henc hdecode
  match bytes, henc with
  | [b], .one hlt hval => exact ⟨p, outputs_cons (write_ascii hlt hval hesc hp) rfl, hp⟩
  | b :: b' :: bs, henc =>
      have hmax : 1 + (b' :: bs).length ≤ 4 := by cases henc <;> simp
      obtain ⟨p', hrest, hstate⟩ := outputs_rest (c := c) (p := { p with
        partialBuf := Function.update p.partialBuf 0 b }.goto
          (.partialUtf8 1 (1 + (b' :: bs).length))) rfl hmax (by
        rw [← hdecode]
        exact congrArg (fun bytes => fromUtf8 (bytes ++ b' :: bs)) (args_update_succ p 0 b))
      exact ⟨p', outputs_cons (write_lead henc hp) hrest, hstate⟩

/-- **The bytes of a string** without escape sequences write its characters, each at its last
byte. -/
theorem outputs_chars {s : List Char} (hs : '\x1b' ∉ s) {p : AnsiParser} (hp : p.state = .normal) :
    ∃ p', p.outputs (asBytes s) = .ok (s.flatMap charOutputs, p') ∧ p'.state = .normal := by
  induction s generalizing p with
  | nil => exact ⟨p, rfl, hp⟩
  | cons c s ih =>
      rw [List.mem_cons, not_or] at hs
      obtain ⟨p₁, hchar, hp₁⟩ := outputs_char (Ne.symm hs.1) hp
      obtain ⟨p₂, hrest, hp₂⟩ := ih hs.2 hp₁
      exact ⟨p₂, by rw [asBytes_cons, List.flatMap_cons]; exact outputs_append hchar hrest, hp₂⟩

/-- The actions of the bytes of a string are one for each character. -/
theorem flatMap_charOutputs (s : List Char) :
    (s.flatMap charOutputs).flatMap Option.toList = s.map .writeChar := by
  induction s with
  | nil => rfl
  | cons c s ih =>
      rw [List.flatMap_cons, List.flatMap_append, ih, charOutputs, List.flatMap_append]
      have hnone : (List.replicate (c.utf8Size - 1) (none : Option Action)).flatMap Option.toList =
          [] := by
        rw [List.flatMap_eq_nil_iff]
        intro action haction
        rw [List.eq_of_mem_replicate haction]
        rfl
      rw [hnone]
      rfl

/-- Characters that do not begin an escape sequence write themselves. -/
theorem emits_chars {s : List Char} (hs : '\x1b' ∉ s) : Emits s (s.map .writeChar) := by
  intro p hp
  obtain ⟨p', houtputs, hp'⟩ := outputs_chars hs hp
  exact ⟨p', by rw [writeAll_of_outputs houtputs, flatMap_charOutputs], hp'⟩

/-! ### Control sequences -/

/-- A byte of the parameters does not end the sequence. -/
theorem csiByte_param {b : UInt8} (h : b < '@'.toUInt8) (args : List UInt8) :
    csiByte b args = .ok none := by
  have hne : ∀ b' : UInt8, '@'.toUInt8 ≤ b' → b ≠ b' := by
    rintro b' hb rfl
    exact absurd h (UInt8.not_lt.mpr hb)
  rw [csiByte]
  rw [if_neg (hne _ (by decide)), if_neg (hne _ (by decide)), if_neg (hne _ (by decide)),
    if_neg (hne _ (by decide)), if_neg (hne _ (by decide)), if_neg (hne _ (by decide)), if_neg]
  intro hfinal
  exact absurd h (UInt8.not_lt.mpr hfinal.1)

/-- A byte of a control sequence that fits into the buffer. -/
theorem write_csi {p : AnsiParser} {i : ℕ} (hp : p.state = .partialCsi i) (hi : i < maxCsiLength)
    {b : UInt8} {r : Option (Option Action)} (hr : csiByte b (p.args i) = .ok r) :
    p.write b = .ok (r.join,
      { p with partialBuf := Function.update p.partialBuf i b }.goto
        (if r.isSome then .normal else .partialCsi (i + 1))) := by
  rw [AnsiParser.write, hp]
  dsimp only
  rw [AnsiParser.writeCsi, if_neg (Nat.ne_of_lt hi), store_eq p hi, ok_bind,
    slice_eq _ (Nat.le_of_lt hi), ok_bind]
  have hargs := args_update p i b
  rw [AnsiParser.args] at hargs
  rw [hargs, hr]
  cases r with
  | none => rfl
  | some action => rfl

/-- Parameters that fit into the buffer are collected. -/
theorem writeAll_params {bs : List UInt8} (hb : ∀ b ∈ bs, b < '@'.toUInt8) {p : AnsiParser}
    {i : ℕ} (hp : p.state = .partialCsi i) (hi : i + bs.length ≤ maxCsiLength) :
    ∃ p', p.writeAll bs = .ok ([], p') ∧ p'.state = .partialCsi (i + bs.length) ∧
      p'.args (i + bs.length) = p.args i ++ bs := by
  induction bs generalizing p i with
  | nil => exact ⟨p, rfl, hp, (List.append_nil _).symm⟩
  | cons b bs ih =>
      rw [List.length_cons] at hi
      have hwrite := write_csi hp (by omega) (csiByte_param (hb b List.mem_cons_self) (p.args i))
      obtain ⟨p', hrest, hstate, hargs⟩ := ih (fun b' hb' => hb b' (List.mem_cons_of_mem _ hb'))
        (p := { p with partialBuf := Function.update p.partialBuf i b }.goto
          (.partialCsi (i + 1))) rfl (by omega)
      rw [List.length_cons, Nat.add_comm bs.length, ← Nat.add_assoc]
      refine ⟨p', ?_, hstate, ?_⟩
      · exact writeAll_append (writeAll_singleton hwrite) hrest
      · rw [hargs]
        refine (congrArg (· ++ bs) (args_update_succ p i _)).trans ?_
        rw [List.append_assoc, List.singleton_append]

/-- A control sequence begins, and its parameters are collected. -/
theorem writeAll_csi {bs : List UInt8} (hb : ∀ b ∈ bs, b < '@'.toUInt8)
    (hlen : bs.length ≤ maxCsiLength) {p : AnsiParser} (hp : p.state = .normal) :
    ∃ p', p.writeAll (0x1b :: '['.toUInt8 :: bs) = .ok ([], p') ∧
      p'.state = .partialCsi bs.length ∧ p'.args bs.length = bs := by
  have hesc : p.writeAll [0x1b, '['.toUInt8] = .ok ([], p.goto (.partialCsi 0)) := by
    rw [AnsiParser.writeAll, AnsiParser.write, hp]
    rfl
  obtain ⟨p', hwrite, hstate, hargs⟩ := writeAll_params hb
    (p := p.goto (.partialCsi 0)) (i := 0) rfl (by omega)
  rw [Nat.zero_add] at hstate hargs
  exact ⟨p', writeAll_append hesc hwrite, hstate, hargs⟩

/-- A character below `'@'` is a byte below it. -/
theorem utf8Size_of_lt {ch : Char} (h : ch < '@') : ch.utf8Size = 1 :=
  Char.utf8Size_eq_one_iff.mpr (UInt32.le_trans (UInt32.le_of_lt h) (by decide))

/-- The parameters of a control sequence are bytes below `'@'`. -/
theorem params_lt {args : List Char} (h : ∀ ch ∈ args, ch < '@') {b : UInt8}
    (hb : b ∈ asBytes args) : b < '@'.toUInt8 := by
  rw [asBytes_eq_map fun ch hch => utf8Size_of_lt (h ch hch)] at hb
  obtain ⟨ch, hch, rfl⟩ := List.mem_map.mp hb
  rw [UInt8.lt_iff_toNat_lt, (toNat_toUInt8 (utf8Size_of_lt (h ch hch))).1]
  exact h ch hch

/-- The bytes of a control sequence. -/
theorem asBytes_csi (args : List Char) {ch : Char} (hch : ch.utf8Size = 1) :
    asBytes ('\x1b' :: '[' :: args ++ [ch]) =
      0x1b :: '['.toUInt8 :: asBytes args ++ [ch.toUInt8] := by
  rw [asBytes_append, asBytes_cons, asBytes_cons, asBytes_eq_map (s := [ch]) (by simpa using hch)]
  rfl

/-- **A control sequence** has the action of its last byte, given its parameters. -/
theorem emits_csi {args : List Char} (hargs : ∀ ch ∈ args, ch < '@')
    (hlen : (asBytes args).length < maxCsiLength) {ch : Char} (hch : ch.utf8Size = 1)
    {action : Option Action} (haction : csiByte ch.toUInt8 (asBytes args) = .ok (some action)) :
    Emits ('\x1b' :: '[' :: args ++ [ch]) action.toList := by
  intro p hp
  obtain ⟨p', hwrite, hstate, hparams⟩ :=
    writeAll_csi (fun b hb => params_lt hargs hb) (Nat.le_of_lt hlen) hp
  have hlast := write_csi hstate hlen (b := ch.toUInt8) (r := some action) (by
    rw [hparams]
    exact haction)
  rw [asBytes_csi args hch]
  exact ⟨_, writeAll_append hwrite (writeAll_singleton hlast), rfl⟩

/-! ### Numbers -/

/-- A digit. -/
def IsDigit (ch : Char) : Prop := '0' ≤ ch ∧ ch ≤ '9'

/-- A digit is a byte of the parameters of a control sequence. -/
theorem IsDigit.lt {ch : Char} (h : IsDigit ch) : ch < '@' :=
  UInt32.lt_of_le_of_lt h.2 (by decide)

/-- A digit is one byte long. -/
theorem IsDigit.utf8Size {ch : Char} (h : IsDigit ch) : ch.utf8Size = 1 := utf8Size_of_lt h.lt

/-- Digits are parsed from left to right. -/
theorem parseDigits_append (n : ℕ) (xs ys : List Char) :
    parseDigits n (xs ++ ys) = (parseDigits n xs).bind (parseDigits · ys) := by
  induction xs generalizing n with
  | nil => rfl
  | cons x xs ih =>
      rw [List.cons_append, parseDigits, parseDigits]
      split
      · exact ih _
      · rfl

/-- The digits of a number are digits. -/
theorem isDigit_of_mem_toDigits {n : ℕ} {ch : Char} (h : ch ∈ Nat.toDigits 10 n) : IsDigit ch := by
  have hdigit := Nat.isDigit_of_mem_toDigits (by decide) (by decide) h
  rw [Char.isDigit, Bool.and_eq_true, decide_eq_true_eq, decide_eq_true_eq] at hdigit
  exact hdigit

/-- A digit has its value. -/
theorem digitChar_spec : ∀ d < 10,
    '0' ≤ d.digitChar ∧ d.digitChar ≤ '9' ∧ d.digitChar.toNat - '0'.toNat = d := by
  decide

/-- One more digit is parsed. -/
theorem parseDigits_digitChar {n d : ℕ} (hd : d < 10) (hmax : n * 10 + d ≤ u32Max) :
    parseDigits n [d.digitChar] = some (n * 10 + d) := by
  obtain ⟨hlo, hhi, hval⟩ := digitChar_spec d hd
  rw [parseDigits, hval, if_pos ⟨hlo, hhi, hmax⟩]
  rfl

/-- The digits of a number that fits are parsed to the number. -/
theorem parseDigits_toDigits {n : ℕ} (hn : n ≤ u32Max) :
    parseDigits 0 (Nat.toDigits 10 n) = some n := by
  induction n using Nat.strongRecOn with
  | ind n ih =>
      rcases Nat.lt_or_ge n 10 with hlt | hge
      · rw [Nat.toDigits_of_lt_base hlt]
        have := @parseDigits_digitChar 0 n hlt (by omega)
        rwa [Nat.zero_mul, Nat.zero_add] at this
      · rw [Nat.toDigits_of_base_le (by decide) hge, parseDigits_append,
          ih (n / 10) (by omega) (by omega), Option.bind_some,
          parseDigits_digitChar (by omega) (by omega)]
        exact congrArg some (by omega)

/-- **A number** that fits is parsed as it is formatted. -/
theorem parseU32_toDigits {n : ℕ} (hn : n ≤ u32Max) : parseU32 (Nat.toDigits 10 n) = some n := by
  have hdigits := parseDigits_toDigits hn
  cases hcs : Nat.toDigits 10 n with
  | nil =>
      exact absurd (congrArg List.length hcs) (Nat.ne_of_gt Nat.length_toDigits_pos)
  | cons c cs =>
      have hc : IsDigit c := isDigit_of_mem_toDigits (hcs ▸ List.mem_cons_self)
      rw [hcs] at hdigits
      unfold parseU32
      split
      · rename_i heq
        cases heq
      · rename_i heq
        cases heq
        exact absurd hc.1 (by decide)
      · rename_i heq
        cases heq
        exact absurd hc.1 (by decide)
      · exact hdigits

/-- The parameter of a control sequence is read as it is formatted. -/
theorem parseAnsiNumberOr_toDigits {n : ℕ} (hn : n ≤ u32Max) (default : ℕ) :
    parseAnsiNumberOr default (asBytes (Nat.toDigits 10 n)) = some n := by
  have hascii : ∀ c ∈ Nat.toDigits 10 n, c.utf8Size = 1 :=
    fun c hc => (isDigit_of_mem_toDigits hc).utf8Size
  have hne : asBytes (Nat.toDigits 10 n) ≠ [] := by
    rw [asBytes_eq_map hascii]
    intro h
    rw [List.map_eq_nil_iff] at h
    exact absurd (congrArg List.length h) (Nat.ne_of_gt Nat.length_toDigits_pos)
  rw [parseAnsiNumberOr, if_neg hne, parseAnsiNumber, fromUtf8_asBytes]
  exact parseU32_toDigits hn

/-- The digits of a number that fits, fit into the buffer. -/
theorem length_toDigits_lt {n : ℕ} (hn : n ≤ u32Max) :
    (asBytes (Nat.toDigits 10 n)).length < maxCsiLength := by
  rw [asBytes_eq_map fun c hc => (isDigit_of_mem_toDigits hc).utf8Size, List.length_map]
  have hle : (Nat.toDigits 10 n).length ≤ 10 := by
    rw [Nat.length_toDigits_le_iff (by decide) (by decide)]
    exact Nat.lt_of_le_of_lt hn (by decide)
  exact Nat.lt_of_le_of_lt hle (by decide)

/-- A string that moves the cursor left. -/
theorem emits_cursorLeft {n : ℕ} (hn : n ≤ u32Max) :
    Emits ('\x1b' :: '[' :: Nat.toDigits 10 n ++ ['D']) [.cursorLeft n] := by
  refine @emits_csi _ (fun c hc => (isDigit_of_mem_toDigits hc).lt) (length_toDigits_lt hn) 'D' rfl
    (some (.cursorLeft n)) ?_
  have hcsi : csiByte 'D'.toUInt8 (asBytes (Nat.toDigits 10 n)) =
      .ok (some ((parseAnsiNumberOr 1 (asBytes (Nat.toDigits 10 n))).map .cursorLeft)) := rfl
  rw [hcsi, parseAnsiNumberOr_toDigits hn]
  rfl

/-- A control sequence without parameters. -/
theorem emits_csi_nil {ch : Char} (hch : ch.utf8Size = 1) {action : Option Action}
    (haction : csiByte ch.toUInt8 [] = .ok (some action)) :
    Emits ['\x1b', '[', ch] action.toList :=
  @emits_csi [] (fun _ hc => absurd hc List.not_mem_nil) (by decide) ch hch action haction

end HydroxKernel.Ansi
