import HydroxKernel.Io.Ansi

/-!
# The Virtual Terminal

The cells of a terminal lie in one buffer, row after row. The buffer is a ring of rows:
`buf_line` is the row of the buffer that is shown at the top, and scrolling moves it and
blanks the row that comes into view.

Indexing the buffer outside of its bounds panics. The fields that writing does not use are
left out. The buffer of a terminal is in memory, so no offset into it and no sum of two rows
overflows.
-/

namespace HydroxKernel.Vt

open HydroxKernel.Ansi

/-- The panics of the terminal. -/
inductive Panic
  /-- A panic of the parser. -/
  | ansi (why : Ansi.Panic)
  /-- An index of the buffer is out of bounds. -/
  | outOfBounds
  /-- The `assert!`s of `clear_range`. -/
  | clearRange
  /-- The `assert!`s of `VirtualTerminal::new`. -/
  | badSize
  deriving DecidableEq

/-- `VTChar`. -/
structure VTChar where
  ch : Char
  fgColor : AnsiColor
  bgColor : AnsiColor
  deriving DecidableEq

/-- `VirtualTerminalInternals`. -/
structure VirtualTerminalInternals where
  buf : List VTChar
  bufLine : ℕ
  size : ℕ × ℕ
  ansi : AnsiParser
  cursorPos : ℕ × ℕ
  fgColor : AnsiColor
  bgColor : AnsiColor

namespace VirtualTerminalInternals

/-- `VirtualTerminal::new`. -/
def new (width height : ℕ) : Except Panic VirtualTerminalInternals := do
  ensure (0 < width ∧ 0 < height ∧ width * height < 2 ^ 64) .badSize
  return ⟨List.replicate (width * height) ⟨' ', .white, .black⟩, 0, (width, height), .new, (0, 0),
    .white, .black⟩

/-- `off`. -/
def off (vt : VirtualTerminalInternals) (x y : ℕ) : ℕ :=
  (if vt.size.2 ≤ y + vt.bufLine then y + vt.bufLine - vt.size.2 else y + vt.bufLine) * vt.size.1
    + x

/-- `buf_end`. -/
def bufEnd (vt : VirtualTerminalInternals) : ℕ := vt.size.1 * vt.size.2

/-- `cursor_off`. -/
def cursorOff (vt : VirtualTerminalInternals) : ℕ := vt.off vt.cursorPos.1 vt.cursorPos.2

/-- Writes a cell of the buffer. -/
def setCell (vt : VirtualTerminalInternals) (i : ℕ) (c : VTChar) :
    Except Panic VirtualTerminalInternals := do
  ensure (i < vt.buf.length) .outOfBounds
  return { vt with buf := vt.buf.set i c }

/-- A loop that writes `n` cells of the buffer from the cell `i` on. -/
def setCells (vt : VirtualTerminalInternals) (c : VTChar) (i : ℕ) :
    ℕ → Except Panic VirtualTerminalInternals
  | 0 => .ok vt
  | n + 1 => do
      let vt ← vt.setCell i c
      setCells vt c (i + 1) n

/-- The cell that is written where the terminal is cleared. -/
def clearChar (vt : VirtualTerminalInternals) : VTChar := ⟨' ', vt.fgColor, vt.bgColor⟩

/-- `clear_range`. -/
def clearRange (vt : VirtualTerminalInternals) (start stop : ℕ) :
    Except Panic VirtualTerminalInternals := do
  let c := vt.clearChar
  ensure (start ≤ vt.buf.length) .clearRange
  ensure (stop ≤ vt.buf.length) .clearRange
  if start ≤ stop then vt.setCells c start (stop - start)
  else do
    let vt ← vt.setCells c start (vt.bufEnd - start)
    vt.setCells c 0 stop

/-- `clear`. -/
def clear (vt : VirtualTerminalInternals) : Except Panic VirtualTerminalInternals :=
  vt.clearRange 0 vt.bufEnd

/-- `scroll_up`. -/
def scrollUp (vt : VirtualTerminalInternals) (n : ℕ) : Except Panic VirtualTerminalInternals :=
  let h := vt.size.2
  if h ≤ n then do
    let vt ← vt.clear
    return { vt with cursorPos := (0, 0) }
  else
    let vt :=
      { vt with
        cursorPos := (0, vt.cursorPos.2 - n)
        bufLine := if h ≤ vt.bufLine + n then vt.bufLine + n - h else vt.bufLine + n }
    vt.clearRange (vt.off 0 (h - n)) (vt.off 0 h)

/-- `new_line`. -/
def newLine (vt : VirtualTerminalInternals) : Except Panic VirtualTerminalInternals :=
  let vt := { vt with cursorPos := (0, vt.cursorPos.2 + 1) }
  if vt.size.2 ≤ vt.cursorPos.2 then vt.scrollUp 1 else .ok vt

/-- `write_char`. -/
def writeChar (vt : VirtualTerminalInternals) (ch : Char) :
    Except Panic VirtualTerminalInternals :=
  if ch = '\n' then vt.newLine
  else if ch = '\x08' then
    if 0 < vt.cursorPos.1 then .ok { vt with cursorPos := (vt.cursorPos.1 - 1, vt.cursorPos.2) }
    else if 0 < vt.cursorPos.2 then
      .ok { vt with cursorPos := (vt.size.1 - 1, vt.cursorPos.2 - 1) }
    else .ok vt
  else if ch ≤ '\x1f' ∨ ch = '\x7f' then .ok vt
  else do
    let vt ← vt.setCell vt.cursorOff ⟨ch, vt.fgColor, vt.bgColor⟩
    let vt := { vt with cursorPos := (vt.cursorPos.1 + 1, vt.cursorPos.2) }
    if vt.size.1 ≤ vt.cursorPos.1 then vt.newLine else return vt

/-- What `write_byte` does for one `AnsiParserSgrAction`. -/
def applySgr (vt : VirtualTerminalInternals) : SgrAction → VirtualTerminalInternals
  | .reset => { vt with fgColor := .white, bgColor := .black }
  | .setFgColor color => { vt with fgColor := color }
  | .setBgColor color => { vt with bgColor := color }

/-- What `write_byte` does for an action of the parser. -/
def act (vt : VirtualTerminalInternals) : Action → Except Panic VirtualTerminalInternals
  | .writeChar ch => vt.writeChar ch
  | .cursorUp n => .ok { vt with cursorPos := (vt.cursorPos.1, vt.cursorPos.2 - n) }
  | .cursorDown n =>
      .ok { vt with cursorPos := (vt.cursorPos.1, min (vt.cursorPos.2 + n) (vt.size.2 - 1)) }
  | .cursorRight n =>
      .ok { vt with cursorPos := (min (vt.cursorPos.1 + n) (vt.size.1 - 1), vt.cursorPos.2) }
  | .cursorLeft n => .ok { vt with cursorPos := (vt.cursorPos.1 - n, vt.cursorPos.2) }
  | .eraseToLineEnd =>
      vt.clearRange (vt.off vt.cursorPos.1 vt.cursorPos.2) (vt.off 0 (vt.cursorPos.2 + 1))
  | .sgr actions => .ok (actions.foldl applySgr vt)

/-- `write_byte`. -/
def writeByte (vt : VirtualTerminalInternals) (b : UInt8) :
    Except Panic VirtualTerminalInternals :=
  match vt.ansi.write b with
  | .error why => .error (.ansi why)
  | .ok (none, ansi) => .ok { vt with ansi := ansi }
  | .ok (some action, ansi) => { vt with ansi := ansi }.act action

/-- `VirtualTerminal::write`, without the redrawing. -/
def write (vt : VirtualTerminalInternals) : List UInt8 → Except Panic VirtualTerminalInternals
  | [] => .ok vt
  | b :: bytes => do
      let vt ← vt.writeByte b
      write vt bytes

end VirtualTerminalInternals

end HydroxKernel.Vt
