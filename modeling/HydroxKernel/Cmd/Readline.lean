import HydroxKernel.Io.Vt
import HydroxKernel.Util.ArrayDeque
import Mathlib.Logic.Function.Basic

/-!
# The Line Editor of the Debug Console

`readline` reads characters and edits a line. What it writes to the terminal is meant to keep
the line on the screen the same as the line that it edits.

The loop of `readline` waits for a character in three places: for a key, after an escape
character, and after the `[` that follows one. The state of the editor says which, so that the
editor takes one character at a time. A character that cannot be read is `none`.

The editor only takes characters whose encoding is one byte long. So the length of a line in
bytes, which `readline` uses, is its length in characters, and every index is the beginning of
a character.
-/

namespace HydroxKernel.Cmd

open HydroxKernel.Vt

/-- The panics of `readline`. -/
inductive Panic
  /-- An index of a string or of `history_modified` is out of bounds. -/
  | outOfBounds
  /-- An `unwrap` of `None`. -/
  | unwrapNone
  /-- The `assert!` that the history has room. -/
  | historyFull
  /-- A panic of the deque of the history. -/
  | deque (why : ArrayDequePanic)
  /-- A panic of the terminal. -/
  | vt (why : Vt.Panic)
  deriving DecidableEq

/-- The characters that a line can hold: no control characters, and one byte long. -/
def Printable (ch : Char) : Prop := '\x1f' < ch ∧ ch ≠ '\x7f' ∧ ch.utf8Size = 1

instance (ch : Char) : Decidable (Printable ch) := inferInstanceAs (Decidable (_ ∧ _))

/-- The lines that `readline` edits. -/
abbrev Line := List { ch : Char // Printable ch }

/-- The characters of a line. -/
def Line.chars (s : Line) : List Char := s.map Subtype.val

/-- `CommandHistory`. -/
structure CommandHistory where
  buf : ArrayDeque Line 64

/-- Where `readline` waits for a character. -/
inductive Waiting
  | key
  | escape
  | csi
  deriving DecidableEq

/-- The variables of `readline`. -/
structure Readline where
  waiting : Waiting
  historyPos : ℕ
  historyModified : ℕ → Option Line
  s : Line
  i : ℕ

/-- How `readline` goes on: with its loop, or by returning a line. -/
inductive Outcome
  | running (r : Readline)
  | ok (s : Line)
  | err (s : Line)

/-- The length of `history_modified`. -/
def historyModifiedLen : ℕ := 65

/-- The variables before the loop. -/
def Readline.new (history : CommandHistory) : Readline :=
  ⟨.key, history.buf.len, fun _ => none, [], 0⟩

/-- A `usize` as it is formatted. -/
def decimal (n : ℕ) : List Char := Nat.toDigits 10 n

/-- The control sequence that moves the cursor by `n` columns. -/
def moveCursor (n : ℕ) (direction : Char) : List Char := '\x1b' :: '[' :: decimal n ++ [direction]

/-- Turns a panic of the deque into a panic of `readline`. -/
def liftDeque {α : Type} : Except ArrayDequePanic α → Except Panic α
  | .ok a => .ok a
  | .error why => .error (.deque why)

/-- A full history forgets its oldest line. -/
def CommandHistory.makeRoom (history : CommandHistory) : Except Panic CommandHistory :=
  if history.buf.len = 64 then do
    let (_, buf) ← liftDeque history.buf.popFront
    return ⟨buf⟩
  else .ok history

/-- Adds the line to the history. -/
def CommandHistory.push (history : CommandHistory) (s : Line) : Except Panic CommandHistory := do
  let history ← history.makeRoom
  let (room, buf) ← liftDeque (history.buf.pushBack s)
  ensure (room = true) .historyFull
  return ⟨buf⟩

/-- A backspace. -/
def Readline.backspace (r : Readline) : Except Panic (Readline × List Char) :=
  if r.i ≠ 0 then do
    ensure (r.i - 1 < r.s.length) .outOfBounds
    let s := r.s.eraseIdx (r.i - 1)
    let i := r.i - 1
    ensure (i ≤ s.length) .outOfBounds
    return ({ r with s := s, i := i },
      ['\x1b', '[', 'D'] ++ Line.chars (s.drop i) ++ ' ' :: moveCursor (s.length - i + 1) 'D')
  else .ok (r, [])

/-- The line of the history at a position, with the changes that were made to it. -/
def Readline.lineAt (r : Readline) (history : CommandHistory) (pos : ℕ) : Except Panic Line :=
  match r.historyModified pos with
  | some s => .ok s
  | none => do
      match ← liftDeque (history.buf.get pos) with
      | some s => return s
      | none => .error .unwrapNone

/-- Replaces the line by the one at a position of the history. -/
def Readline.moveHistory (r : Readline) (history : CommandHistory) (pos : ℕ) :
    Except Panic (Readline × List Char) := do
  let erase := if r.s ≠ [] then moveCursor r.i 'D' ++ ['\x1b', '[', 'K'] else []
  ensure (r.historyPos < historyModifiedLen) .outOfBounds
  let r := { r with historyModified := Function.update r.historyModified r.historyPos (some r.s) }
  ensure (pos < historyModifiedLen) .outOfBounds
  let s ← r.lineAt history pos
  return (⟨r.waiting, pos, Function.update r.historyModified pos none, s, s.length⟩,
    erase ++ Line.chars s)

/-- The end of a control sequence, after its `[`. -/
def Readline.arrow (r : Readline) (history : CommandHistory) :
    Option Char → Except Panic (Readline × List Char)
  | some 'A' => if r.historyPos ≠ 0 then r.moveHistory history (r.historyPos - 1) else .ok (r, [])
  | some 'B' =>
      if r.historyPos ≠ history.buf.len then r.moveHistory history (r.historyPos + 1)
      else .ok (r, [])
  | some 'C' =>
      if r.i ≠ r.s.length then .ok ({ r with i := r.i + 1 }, ['\x1b', '[', 'C']) else .ok (r, [])
  | some 'D' => if r.i ≠ 0 then .ok ({ r with i := r.i - 1 }, ['\x1b', '[', 'D']) else .ok (r, [])
  | _ => .ok (r, [])

/-- A character is inserted. -/
def Readline.insert (r : Readline) (ch : { ch : Char // Printable ch }) :
    Except Panic (Readline × List Char) := do
  ensure (r.i ≤ r.s.length) .outOfBounds
  return ({ r with s := r.s.insertIdx r.i ch, i := r.i + 1 },
    ch.val :: if r.i ≠ r.s.length then
      Line.chars (r.s.drop r.i) ++ moveCursor (r.s.length - r.i) 'D' else [])

/-- A character for the loop of `readline`. The result is how the loop goes on, the history, and
what is written to the terminal. -/
def Readline.next (r : Readline) (history : CommandHistory) (ch : Option Char) :
    Except Panic (Outcome × CommandHistory × List Char) :=
  match r.waiting with
  | .escape =>
      .ok (.running { r with waiting := if ch = some '[' then .csi else .key }, history, [])
  | .csi => do
      let (r, out) ← { r with waiting := .key }.arrow history ch
      return (.running r, history, out)
  | .key =>
      match ch with
      | none => .ok (.err r.s, history, [])
      | some ch =>
          if ch = '\n' then do
            let history' ← history.push r.s
            return (.ok r.s, history',
              (if r.i ≠ r.s.length then moveCursor (r.s.length - r.i) 'C' else []) ++ ['\n'])
          else if hdel : ch = '\x7f' then do
            let (r, out) ← r.backspace
            return (.running r, history, out)
          else if ch = '\x1b' then .ok (.running { r with waiting := .escape }, history, [])
          else if hctl : ch ≤ '\x1f' then .ok (.running r, history, [])
          else if hlen : ch.utf8Size = 1 then do
            let (r, out) ← r.insert ⟨ch, Char.not_le.mp hctl, hdel, hlen⟩
            return (.running r, history, out)
          else .ok (.running r, history, [])

/-- The editor, its history and the terminal that it writes to. -/
structure Session where
  outcome : Outcome
  history : CommandHistory
  vt : VirtualTerminalInternals

/-- `readline` is called. -/
def Session.start (history : CommandHistory) (vt : VirtualTerminalInternals) : Session :=
  ⟨.running (.new history), history, vt⟩

/-- `TtyWriter::write_str`, on a virtual terminal. -/
def writeStr (vt : VirtualTerminalInternals) (out : List Char) :
    Except Panic VirtualTerminalInternals :=
  match vt.write (asBytes out) with
  | .ok vt => .ok vt
  | .error why => .error (.vt why)

/-- A character is read. Once `readline` has returned, it reads no more. -/
def Session.next (t : Session) (ch : Option Char) : Except Panic Session :=
  match t.outcome with
  | .running r => do
      let (outcome, history, out) ← r.next t.history ch
      let vt ← writeStr t.vt out
      return ⟨outcome, history, vt⟩
  | _ => .ok t

end HydroxKernel.Cmd
