import HydroxKernel.Lib.Assert
import HydroxKernel.Lib.Utf8
import Mathlib.Algebra.Group.Nat.Defs
import Mathlib.Logic.Function.Basic

/-!
# The Parser of Terminal Output

`AnsiParser` takes the bytes that are written to a terminal one at a time and turns them into
actions. It is a state machine that collects the bytes of a UTF-8 sequence or of the
parameters of a control sequence in a buffer of fixed size. Indexing the buffer outside of
its bounds panics.

## Main results

* `write_spec`: the parser does not panic, and its state stays in range.
-/

namespace HydroxKernel.Ansi

/-- The panics of the parser. -/
inductive Panic
  /-- An index or a range of the buffer is out of bounds. -/
  | outOfBounds
  /-- An `unwrap` of `None`. -/
  | unwrapNone
  deriving DecidableEq

/-- `AnsiColor`. -/
inductive AnsiColor
  | black
  | red
  | green
  | brown
  | blue
  | magenta
  | cyan
  | lightGray
  | darkGray
  | lightRed
  | lightGreen
  | yellow
  | lightBlue
  | pink
  | lightCyan
  | white
  deriving DecidableEq

/-- `AnsiColor::from_code_offset`. -/
def AnsiColor.fromCodeOffset : ℕ → Option AnsiColor
  | 0 => some .black
  | 1 => some .red
  | 2 => some .green
  | 3 => some .brown
  | 4 => some .blue
  | 5 => some .magenta
  | 6 => some .cyan
  | 7 => some .lightGray
  | 60 => some .darkGray
  | 61 => some .lightRed
  | 62 => some .lightGreen
  | 63 => some .yellow
  | 64 => some .lightBlue
  | 65 => some .pink
  | 66 => some .lightCyan
  | 67 => some .white
  | _ => none

/-- `AnsiParserSgrAction`. -/
inductive SgrAction
  | reset
  | setFgColor (color : AnsiColor)
  | setBgColor (color : AnsiColor)
  deriving DecidableEq

/-- `AnsiParserAction`. The array of an `Sgr` is cut off at its length. -/
inductive Action
  | writeChar (ch : Char)
  | cursorUp (n : ℕ)
  | cursorDown (n : ℕ)
  | cursorRight (n : ℕ)
  | cursorLeft (n : ℕ)
  | eraseToLineEnd
  | sgr (actions : List SgrAction)
  deriving DecidableEq

/-- `AnsiParser::MAX_CSI_LENGTH`. -/
def maxCsiLength : ℕ := 64

/-- `AnsiParser::MAX_SGR_CMDS`. -/
def maxSgrCmds : ℕ := 8

/-- The largest `u32`. -/
def u32Max : ℕ := 2 ^ 32 - 1

/-! ### Parameters -/

/-- What `parse_ansi_sgr` has read: the commands, and the digits of the next one. -/
structure SgrScan where
  cmds : List ℕ
  current : ℕ

/-- Ends a command. Commands that do not fit are dropped. -/
def SgrScan.push (scan : SgrScan) : SgrScan :=
  ⟨if scan.cmds.length < maxSgrCmds then scan.cmds ++ [scan.current] else scan.cmds, 0⟩

/-- The body of the loop of `parse_ansi_sgr` over the bytes. -/
def SgrScan.next (scan : SgrScan) (ch : UInt8) : SgrScan :=
  if ch = ';'.toUInt8 then scan.push
  else if '0'.toUInt8 ≤ ch ∧ ch ≤ '9'.toUInt8 then
    { scan with
      current := min (min (scan.current * 10) u32Max + (ch.toNat - '0'.toNat)) u32Max }
  else scan

/-- The color of a command, given what its code is counted from. -/
def sgrColor (code base : ℕ) : Except Panic AnsiColor :=
  match AnsiColor.fromCodeOffset (code - base) with
  | some color => .ok color
  | none => .error .unwrapNone

/-- The action of a command. -/
def sgrAction (cmd : ℕ) : Except Panic (Option SgrAction) :=
  if cmd = 0 then .ok (some .reset)
  else if (30 ≤ cmd ∧ cmd ≤ 37) ∨ (90 ≤ cmd ∧ cmd ≤ 97) then do
    return some (.setFgColor (← sgrColor cmd 30))
  else if (40 ≤ cmd ∧ cmd ≤ 47) ∨ (100 ≤ cmd ∧ cmd ≤ 107) then do
    return some (.setBgColor (← sgrColor cmd 40))
  else .ok none

/-- The loop of `parse_ansi_sgr` over the commands. -/
def sgrActions (actions : List SgrAction) : List ℕ → Except Panic (List SgrAction)
  | [] => .ok actions
  | cmd :: cmds =>
      if actions.length < maxSgrCmds then do
        match ← sgrAction cmd with
        | some action => sgrActions (actions ++ [action]) cmds
        | none => sgrActions actions cmds
      else .ok actions

/-- `parse_ansi_sgr`. -/
def parseAnsiSgr (sgr : List UInt8) : Except Panic (List SgrAction) :=
  sgrActions [] ((sgr.foldl SgrScan.next ⟨[], 0⟩).push).cmds

/-- The digits of a `u32`, after the value `n`. -/
def parseDigits (n : ℕ) : List Char → Option ℕ
  | [] => some n
  | c :: cs =>
      if '0' ≤ c ∧ c ≤ '9' ∧ n * 10 + (c.toNat - '0'.toNat) ≤ u32Max then
        parseDigits (n * 10 + (c.toNat - '0'.toNat)) cs
      else none

/-- `str::parse::<u32>`: at least one digit, after an optional plus sign. -/
def parseU32 : List Char → Option ℕ
  | [] => none
  | '+' :: [] => none
  | '+' :: cs => parseDigits 0 cs
  | cs => parseDigits 0 cs

/-- `parse_ansi_number`. -/
def parseAnsiNumber (val : List UInt8) : Option ℕ := (fromUtf8 val).bind parseU32

/-- `parse_ansi_number_or`. -/
def parseAnsiNumberOr (default : ℕ) (val : List UInt8) : Option ℕ :=
  if val = [] then some default else parseAnsiNumber val

/-! ### The parser -/

/-- `AnsiParserState`. -/
inductive ParserState
  | normal
  | partialUtf8 (i len : ℕ)
  | escape
  | partialCsi (i : ℕ)
  deriving DecidableEq

/-- `AnsiParser`. -/
structure AnsiParser where
  state : ParserState
  partialBuf : ℕ → UInt8

/-- `AnsiParser::new`. -/
def AnsiParser.new : AnsiParser := ⟨.normal, fun _ => 0⟩

/-- The parser in another state. -/
def AnsiParser.goto (p : AnsiParser) (state : ParserState) : AnsiParser := { p with state := state }

/-- Writes a byte of the buffer. -/
def AnsiParser.store (p : AnsiParser) (i : ℕ) (b : UInt8) : Except Panic AnsiParser := do
  ensure (i < maxCsiLength) .outOfBounds
  return { p with partialBuf := Function.update p.partialBuf i b }

/-- The first bytes of the buffer. -/
def AnsiParser.slice (p : AnsiParser) (len : ℕ) : Except Panic (List UInt8) := do
  ensure (len ≤ maxCsiLength) .outOfBounds
  return (List.range len).map p.partialBuf

/-- The character of a sequence of bytes, or the replacement character. -/
def decodeOrReplace (bytes : List UInt8) : Except Panic Char :=
  match fromUtf8 bytes with
  | some (c :: _) => .ok c
  | some [] => .error .unwrapNone
  | none => .ok '\uFFFD'

/-- The byte ends a control sequence: `b'@'..b'~'`. -/
def IsFinal (b : UInt8) : Prop := '@'.toUInt8 ≤ b ∧ b < '~'.toUInt8

instance (b : UInt8) : Decidable (IsFinal b) := inferInstanceAs (Decidable (_ ∧ _))

/-- What a byte does after the parameters `args` of a control sequence: nothing, if it is
another byte of the parameters, or it ends the sequence, with or without an action. -/
def csiByte (b : UInt8) (args : List UInt8) : Except Panic (Option (Option Action)) :=
  if b = 'm'.toUInt8 then do return some (some (.sgr (← parseAnsiSgr args)))
  else if b = 'A'.toUInt8 then .ok (some ((parseAnsiNumberOr 1 args).map .cursorUp))
  else if b = 'B'.toUInt8 then .ok (some ((parseAnsiNumberOr 1 args).map .cursorDown))
  else if b = 'C'.toUInt8 then .ok (some ((parseAnsiNumberOr 1 args).map .cursorRight))
  else if b = 'D'.toUInt8 then .ok (some ((parseAnsiNumberOr 1 args).map .cursorLeft))
  else if b = 'K'.toUInt8 then
    .ok (some (if parseAnsiNumberOr 0 args = some 0 then some .eraseToLineEnd else none))
  else if IsFinal b then .ok (some none)
  else .ok none

/-- `AnsiParser::write` in the state `Normal`. -/
def AnsiParser.writeNormal (p : AnsiParser) (b : UInt8) :
    Except Panic (Option Action × AnsiParser) :=
  if b = 0x1b then .ok (none, p.goto .escape)
  else if 0xc0 ≤ b ∧ b ≤ 0xdf then do
    let p ← p.store 0 b
    return (none, p.goto (.partialUtf8 1 2))
  else if 0xe0 ≤ b ∧ b ≤ 0xef then do
    let p ← p.store 0 b
    return (none, p.goto (.partialUtf8 1 3))
  else if 0xf0 ≤ b then do
    let p ← p.store 0 b
    return (none, p.goto (.partialUtf8 1 4))
  else .ok (some (.writeChar (Char.ofNat b.toNat)), p)

/-- `AnsiParser::write` in the state `PartialUtf8`. -/
def AnsiParser.writeUtf8 (p : AnsiParser) (i len : ℕ) (b : UInt8) :
    Except Panic (Option Action × AnsiParser) := do
  let p ← p.store i b
  if i + 1 = len then do
    let ch ← decodeOrReplace (← p.slice len)
    return (some (.writeChar ch), p.goto .normal)
  else return (none, p.goto (.partialUtf8 (i + 1) len))

/-- `AnsiParser::write` in the state `PartialCsi`. A control sequence whose parameters do not
fit into the buffer is skipped. -/
def AnsiParser.writeCsi (p : AnsiParser) (i : ℕ) (b : UInt8) :
    Except Panic (Option Action × AnsiParser) :=
  if i = maxCsiLength then
    .ok (none, if IsFinal b then p.goto .normal else p)
  else do
    let p ← p.store i b
    let args ← p.slice i
    match ← csiByte b args with
    | some action => return (action, p.goto .normal)
    | none => return (none, p.goto (.partialCsi (i + 1)))

/-- `AnsiParser::write`. -/
def AnsiParser.write (p : AnsiParser) (b : UInt8) : Except Panic (Option Action × AnsiParser) :=
  match p.state with
  | .normal => p.writeNormal b
  | .partialUtf8 i len => p.writeUtf8 i len b
  | .escape => .ok (none, p.goto (if b = '['.toUInt8 then .partialCsi 0 else .normal))
  | .partialCsi i => p.writeCsi i b

/-! ### The parser does not panic -/

/-- The state of the parser is in range. -/
def ParserState.InRange : ParserState → Prop
  | .normal => True
  | .partialUtf8 i len => 1 ≤ i ∧ i < len ∧ len ≤ 4
  | .escape => True
  | .partialCsi i => i ≤ maxCsiLength

/-- The offsets of the color commands have colors. -/
theorem fromCodeOffset_isSome :
    ∀ n < 68, n < 8 ∨ 60 ≤ n → (AnsiColor.fromCodeOffset n).isSome = true := by
  decide

/-- A command that sets a color has a color. -/
theorem sgrColor_isOk {cmd base : ℕ} (h : (base ≤ cmd ∧ cmd ≤ base + 7) ∨
    (base + 60 ≤ cmd ∧ cmd ≤ base + 67)) : ∃ color, sgrColor cmd base = .ok color := by
  obtain ⟨color, hcolor⟩ := Option.isSome_iff_exists.mp
    (fromCodeOffset_isSome (cmd - base) (by omega) (by omega))
  exact ⟨color, by rw [sgrColor, hcolor]⟩

/-- Every command has an action or is ignored. -/
theorem sgrAction_isOk (cmd : ℕ) : ∃ action, sgrAction cmd = .ok action := by
  rw [sgrAction]
  split
  · exact ⟨_, rfl⟩
  · split
    · rename_i h
      obtain ⟨color, hcolor⟩ := @sgrColor_isOk cmd 30 (by omega)
      exact ⟨_, by rw [hcolor]; rfl⟩
    · split
      · rename_i h
        obtain ⟨color, hcolor⟩ := @sgrColor_isOk cmd 40 (by omega)
        exact ⟨_, by rw [hcolor]; rfl⟩
      · exact ⟨_, rfl⟩

/-- Parsing commands does not panic. -/
theorem sgrActions_isOk (cmds : List ℕ) (actions : List SgrAction) :
    ∃ actions', sgrActions actions cmds = .ok actions' := by
  induction cmds generalizing actions with
  | nil => exact ⟨_, rfl⟩
  | cons cmd cmds ih =>
      rw [sgrActions]
      split
      · obtain ⟨action, haction⟩ := sgrAction_isOk cmd
        rw [haction, ok_bind]
        cases action with
        | some action => exact ih _
        | none => exact ih _
      · exact ⟨_, rfl⟩

/-- A byte of a control sequence does not panic. -/
theorem csiByte_isOk (b : UInt8) (args : List UInt8) : ∃ r, csiByte b args = .ok r := by
  rw [csiByte]
  split
  · obtain ⟨actions, hactions⟩ := sgrActions_isOk ((args.foldl SgrScan.next ⟨[], 0⟩).push).cmds []
    exact ⟨_, by rw [parseAnsiSgr, hactions]; rfl⟩
  · repeat' split
    all_goals exact ⟨_, rfl⟩

/-- A sequence of bytes that is not empty has a character. -/
theorem decodeOrReplace_isOk (b : UInt8) (bs : List UInt8) :
    ∃ ch, decodeOrReplace (b :: bs) = .ok ch := by
  rw [decodeOrReplace]
  cases h : fromUtf8 (b :: bs) with
  | none => exact ⟨_, rfl⟩
  | some cs =>
      cases cs with
      | nil => exact absurd h fromUtf8_ne_nil
      | cons c cs => exact ⟨_, rfl⟩

/-- A byte in the buffer is stored. -/
theorem store_eq (p : AnsiParser) {i : ℕ} (hi : i < maxCsiLength) (b : UInt8) :
    p.store i b = .ok { p with partialBuf := Function.update p.partialBuf i b } := by
  rw [AnsiParser.store, ensure_pos hi, ok_bind]
  rfl

/-- The first bytes of the buffer are read. -/
theorem slice_eq (p : AnsiParser) {len : ℕ} (h : len ≤ maxCsiLength) :
    p.slice len = .ok ((List.range len).map p.partialBuf) := by
  rw [AnsiParser.slice, ensure_pos h, ok_bind]
  rfl

/-- A byte of a UTF-8 sequence. -/
theorem writeUtf8_spec (p : AnsiParser) {i len : ℕ} (hi : 1 ≤ i) (hlt : i < len) (hlen : len ≤ 4)
    (b : UInt8) :
    ∃ action p', p.writeUtf8 i len b = .ok (action, p') ∧ p'.state.InRange := by
  have hmax : maxCsiLength = 64 := rfl
  rw [AnsiParser.writeUtf8]
  rw [store_eq p (by omega), ok_bind]
  split
  · obtain ⟨k, rfl⟩ : ∃ k, len = k + 1 := ⟨len - 1, by omega⟩
    rw [slice_eq _ (by omega), ok_bind, List.range_succ_eq_map, List.map_cons]
    obtain ⟨ch, hch⟩ := decodeOrReplace_isOk (Function.update p.partialBuf i b 0)
      (((List.range k).map Nat.succ).map (Function.update p.partialBuf i b))
    rw [hch]
    exact ⟨_, _, rfl, trivial⟩
  · exact ⟨_, _, rfl, by omega, by omega, hlen⟩

/-- A byte of a control sequence. -/
theorem writeCsi_spec (p : AnsiParser) {i : ℕ} (hi : i ≤ maxCsiLength)
    (hp : p.state.InRange) (b : UInt8) :
    ∃ action p', p.writeCsi i b = .ok (action, p') ∧ p'.state.InRange := by
  rw [AnsiParser.writeCsi]
  split
  · refine ⟨_, _, rfl, ?_⟩
    split
    · exact trivial
    · exact hp
  · have hlt : i < maxCsiLength := by omega
    rw [store_eq p hlt, ok_bind, slice_eq _ hi, ok_bind]
    obtain ⟨r, hr⟩ := csiByte_isOk b ((List.range i).map (Function.update p.partialBuf i b))
    rw [hr, ok_bind]
    cases r with
    | some action => exact ⟨_, _, rfl, trivial⟩
    | none => exact ⟨_, _, rfl, hlt⟩

/-- **The parser does not panic**, and its state stays in range. -/
theorem write_spec {p : AnsiParser} (hp : p.state.InRange) (b : UInt8) :
    ∃ action p', p.write b = .ok (action, p') ∧ p'.state.InRange := by
  rw [AnsiParser.write]
  cases hstate : p.state with
  | normal =>
      have hmax : 0 < maxCsiLength := by decide
      dsimp only
      rw [AnsiParser.writeNormal]
      simp only [store_eq p hmax, ok_bind]
      split
      · exact ⟨_, _, rfl, trivial⟩
      · repeat' split
        · exact ⟨_, _, rfl, by decide, by decide, by decide⟩
        · exact ⟨_, _, rfl, by decide, by decide, by decide⟩
        · exact ⟨_, _, rfl, by decide, by decide, by decide⟩
        · exact ⟨_, _, rfl, hp⟩
  | partialUtf8 i len =>
      rw [hstate] at hp
      exact writeUtf8_spec p hp.1 hp.2.1 hp.2.2 b
  | escape =>
      refine ⟨_, _, rfl, ?_⟩
      change ParserState.InRange (if _ then _ else _)
      split
      · exact Nat.zero_le _
      · exact trivial
  | partialCsi i => exact writeCsi_spec p (by rw [hstate] at hp; exact hp) hp b

end HydroxKernel.Ansi
