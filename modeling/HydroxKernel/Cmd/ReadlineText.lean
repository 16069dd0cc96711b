import HydroxKernel.Cmd.LineEditor
import HydroxKernel.Lib.Str
import Mathlib.Logic.Relation

/-!
# The Line Editor on Strings

`readline` once more, with lines that are strings: the history can have any of them, and every
operation on a line takes a byte offset and panics where the line cannot be cut. While a line of
the history is edited, a copy of it is, and the copy is kept when the editor moves on.

`Models` connects the editor to the one that is meant: the text at every position is what the line
editor shows there.

## Main results

* `Editor.next_spec`: what a character does.
* `readline_spec`: `readline` does not panic, does what the line editor does, leaves the history as
  it is until it adds the line that it returns, and shows every line as it was left.
-/

namespace HydroxKernel.Cmd.Text

open Str

/-- The panics of `readline`. -/
inductive Panic
  /-- A string is cut or changed at an offset where it cannot be cut. -/
  | boundary
  /-- An index of `history_modified` is out of bounds. -/
  | outOfBounds
  /-- A difference is negative. -/
  | overflow
  /-- An `unwrap` of `None`. -/
  | unwrapNone
  /-- The `assert!` that the history has room. -/
  | historyFull
  /-- A panic of the deque of the history. -/
  | deque (why : ArrayDequePanic)
  deriving DecidableEq

/-- `CommandHistory`. -/
structure CommandHistory where
  buf : ArrayDeque (List Char) 64

/-- The variables of `readline`, and where it waits for a character. -/
structure Editor where
  waiting : Waiting
  historyPos : ℕ
  historyModified : ℕ → Option (List Char)
  s : List Char
  i : ℕ

/-- How `readline` goes on: with its loop, or by returning a line. -/
inductive Outcome
  | running (r : Editor)
  | ok (s : List Char)
  | err (s : List Char)

/-- The variables before the loop. -/
def Editor.new (history : CommandHistory) : Editor := ⟨.key, history.buf.len, fun _ => none, [], 0⟩

/-- Turns what is missing into a panic. -/
def orPanic {α : Type} (why : Panic) : Option α → Except Panic α
  | some a => .ok a
  | none => .error why

/-- Turns a panic of the deque into a panic of `readline`. -/
def liftDeque {α : Type} : Except ArrayDequePanic α → Except Panic α
  | .ok a => .ok a
  | .error why => .error (.deque why)

/-- A difference of two `usize`. -/
def sub (a b : ℕ) : Except Panic ℕ := if b ≤ a then .ok (a - b) else .error .overflow

/-- A line is added to the history, which forgets its oldest line if it is full. -/
def CommandHistory.push (history : CommandHistory) (s : List Char) :
    Except Panic CommandHistory := do
  let buf ← if history.buf.len = 64 then do
      let (_, buf) ← liftDeque history.buf.popFront
      pure buf
    else pure history.buf
  let (room, buf) ← liftDeque (buf.pushBack s)
  ensure (room = true) .historyFull
  return ⟨buf⟩

/-- A newline. -/
def Editor.newline (r : Editor) (history : CommandHistory) :
    Except Panic (CommandHistory × List Char) := do
  let out ← if r.i ≠ byteLen r.s then do
      let n ← sub (byteLen r.s) r.i
      pure (moveCursor n 'C')
    else pure []
  let history ← history.push r.s
  return (history, out ++ ['\n'])

/-- A backspace. -/
def Editor.backspace (r : Editor) : Except Panic (Editor × List Char) :=
  if r.i ≠ 0 then do
    let s ← orPanic .boundary (remove r.s (r.i - 1))
    let i := r.i - 1
    let tail ← orPanic .boundary (sliceFrom s i)
    let n ← sub (byteLen s) i
    return ({ r with s := s, i := i }, ['\x1b', '[', 'D'] ++ tail ++ ' ' :: moveCursor (n + 1) 'D')
  else .ok (r, [])

/-- The line at a position of the history, with the changes that were made to it. -/
def Editor.lineAt (r : Editor) (history : CommandHistory) (pos : ℕ) :
    Except Panic (List Char) :=
  match r.historyModified pos with
  | some modified => .ok modified
  | none => do
      let line ← liftDeque (history.buf.get pos)
      orPanic .unwrapNone line

/-- Replaces the line by the one at a position of the history. -/
def Editor.moveHistory (r : Editor) (history : CommandHistory) (pos : ℕ) :
    Except Panic (Editor × List Char) := do
  let erase := if r.s ≠ [] then moveCursor r.i 'D' ++ ['\x1b', '[', 'K'] else []
  ensure (r.historyPos < historyModifiedLen) .outOfBounds
  let r := { r with historyModified := Function.update r.historyModified r.historyPos (some r.s) }
  ensure (pos < historyModifiedLen) .outOfBounds
  let s ← r.lineAt history pos
  return (⟨r.waiting, pos, Function.update r.historyModified pos none, s, byteLen s⟩, erase ++ s)

/-- The end of a control sequence, after its `[`. -/
def Editor.arrow (r : Editor) (history : CommandHistory) :
    Option Char → Except Panic (Editor × List Char)
  | some 'A' => if r.historyPos ≠ 0 then r.moveHistory history (r.historyPos - 1) else .ok (r, [])
  | some 'B' =>
      if r.historyPos ≠ history.buf.len then r.moveHistory history (r.historyPos + 1)
      else .ok (r, [])
  | some 'C' =>
      if r.i ≠ byteLen r.s then .ok ({ r with i := r.i + 1 }, ['\x1b', '[', 'C']) else .ok (r, [])
  | some 'D' => if r.i ≠ 0 then .ok ({ r with i := r.i - 1 }, ['\x1b', '[', 'D']) else .ok (r, [])
  | _ => .ok (r, [])

/-- A character that is one byte long is inserted. -/
def Editor.insertChar (r : Editor) (ch : Char) : Except Panic (Editor × List Char) := do
  let out ← if r.i ≠ byteLen r.s then do
      let tail ← orPanic .boundary (sliceFrom r.s r.i)
      let n ← sub (byteLen r.s) r.i
      pure (tail ++ moveCursor n 'D')
    else pure []
  let s ← orPanic .boundary (insert r.s r.i ch)
  return ({ r with s := s, i := r.i + 1 }, ch :: out)

/-- A character for the loop of `readline`. The result is how the loop goes on, the history, and
what is written to the terminal. -/
def Editor.next (r : Editor) (history : CommandHistory) (ch : Option Char) :
    Except Panic (Outcome × CommandHistory × List Char) :=
  match r.waiting with
  | .escape =>
      .ok (.running { r with waiting := if ch = some '[' then .csi else .key }, history, [])
  | .csi => do
      let (r, out) ← { r with waiting := .key }.arrow history ch
      return (.running r, history, out)
  | .key =>
      match ch with
      | none => .ok (.err r.s, history, [])
      | some ch =>
          if ch = '\n' then do
            let (history, out) ← r.newline history
            return (.ok r.s, history, out)
          else if ch = '\x7f' then do
            let (r, out) ← r.backspace
            return (.running r, history, out)
          else if ch = '\x1b' then .ok (.running { r with waiting := .escape }, history, [])
          else if ch ≤ '\x1f' then .ok (.running r, history, [])
          else if ch.utf8Size = 1 then do
            let (r, out) ← r.insertChar ch
            return (.running r, history, out)
          else .ok (.running r, history, [])

/-- A call of `readline`, and what it has written. -/
structure Session where
  outcome : Outcome
  history : CommandHistory
  out : List Char

/-- `readline` is called. -/
def Session.start (history : CommandHistory) : Session := ⟨.running (.new history), history, []⟩

/-- A character is read. Once `readline` has returned, it reads no more. -/
def Session.next (t : Session) (ch : Option Char) : Except Panic Session :=
  match t.outcome with
  | .running r => do
      let (outcome, history, out) ← r.next t.history ch
      return ⟨outcome, history, t.out ++ out⟩
  | _ => .ok t

/-- Characters are read, one after another. -/
def Session.run (t : Session) (chars : List (Option Char)) : Except Panic Session :=
  chars.foldlM Session.next t

/-- The lines of the history behind a new one, of which at most 64 are kept. -/
def remember (lines : List (List Char)) (s : List Char) : List (List Char) :=
  (if lines.length = 64 then lines.tail else lines) ++ [s]

/-- The text that is shown at a position of the history, or for the new line. -/
def Editor.shown (r : Editor) (lines : List (List Char)) (pos : ℕ) : List Char :=
  if pos = r.historyPos then r.s else (r.historyModified pos).getD (lines[pos]?.getD [])

/-- What holds of the variables of `readline`. Every position that the editor can move to is
available: it is that of a line of the history, or the new line was kept when it was left. -/
structure Editor.WellFormed (r : Editor) (lines : List (List Char)) : Prop where
  pos : r.historyPos ≤ lines.length
  index : r.i ≤ byteLen r.s
  ascii : Ascii r.s
  modified : ∀ pos s, r.historyModified pos = some s → Ascii s
  available : r.historyPos ≠ lines.length → (r.historyModified lines.length).isSome = true

/-- The line at the position is changed, or only the index in it. -/
structure Edits (r r' : Editor) : Prop where
  pos : r'.historyPos = r.historyPos
  modified : r'.historyModified = r.historyModified
  index : r'.i ≤ byteLen r'.s
  ascii : Ascii r'.s

/-- The editor moves to another position. -/
structure Moves (lines : List (List Char)) (r r' : Editor) : Prop where
  ne : r'.historyPos ≠ r.historyPos
  pos : r'.historyPos ≤ lines.length
  modified : r'.historyModified = Function.update
    (Function.update r.historyModified r.historyPos (some r.s)) r'.historyPos none
  s : r'.s = r.shown lines r'.historyPos
  index : r'.i = byteLen r'.s

/-- The editor shows what the line editor shows, with the cursor at the same place. -/
structure Models (lines : List (List Char)) (r : Editor) (e : LineEditor Char) : Prop where
  pos : r.historyPos = e.pos
  s : r.s = e.before ++ e.after
  i : r.i = byteLen e.before
  shown : ∀ pos, r.shown lines pos = e.text pos

/-- The loop goes on as the line editor does. -/
def Agrees (lines : List (List Char)) : Outcome → Waiting × LineEditor.Result Char → Prop
  | .running r, (w, .editing e) => r.waiting = w ∧ Models lines r e
  | .ok s, (_, .returned s') => s = s'
  | .err s, (_, .failed s') => s = s'
  | _, _ => False

/-- What a character does. -/
inductive Does (history : CommandHistory) (lines : List (List Char)) (r : Editor) :
    Outcome → CommandHistory → Prop
  | edits {r' : Editor} (h : Edits r r') : Does history lines r (.running r') history
  | moves {r' : Editor} (h : Moves lines r r') : Does history lines r (.running r') history
  | returns {history' : CommandHistory} (h : history'.buf.Represents (remember lines r.s)) :
      Does history lines r (.ok r.s) history'
  | fails : Does history lines r (.err r.s) history

variable {history : CommandHistory} {lines : List (List Char)} {r r' : Editor}

/-! ### What is shown -/

/-- At its position the editor shows its line. -/
@[simp] theorem Editor.shown_self (r : Editor) (lines : List (List Char)) :
    r.shown lines r.historyPos = r.s := if_pos rfl

/-- Editing a line does not change what is shown at another position. -/
theorem Edits.shown_eq (h : Edits r r') {pos : ℕ} (hne : pos ≠ r.historyPos) :
    r'.shown lines pos = r.shown lines pos := by
  have hne' : pos ≠ r'.historyPos := by rwa [h.pos]
  rw [Editor.shown, Editor.shown, if_neg hne', if_neg hne, h.modified]

/-- Moving does not change what is shown at any position. -/
theorem Moves.shown_eq (h : Moves lines r r') (pos : ℕ) :
    r'.shown lines pos = r.shown lines pos := by
  by_cases hto : pos = r'.historyPos
  · subst hto
    rw [Editor.shown_self, h.s]
  have hmod : r'.historyModified pos =
      Function.update r.historyModified r.historyPos (some r.s) pos := by
    rw [h.modified]
    exact Function.update_of_ne hto _ _
  rw [Editor.shown, if_neg hto, hmod]
  by_cases hfrom : pos = r.historyPos
  · subst hfrom
    rw [Function.update_self, Editor.shown_self]
    rfl
  · rw [Function.update_of_ne hfrom, Editor.shown, if_neg hfrom]

/-- Before the loop, every line of the history is shown at its position, and the new line is
empty. -/
theorem Editor.new_shown (h : history.buf.Represents lines) (pos : ℕ) :
    (Editor.new history).shown lines pos = lines[pos]?.getD [] := by
  rw [shown]
  split
  next heq =>
    rw [heq, new, h.len, List.getElem?_eq_none (Nat.le_refl _)]
    rfl
  next => rfl

/-- What is shown is ASCII. -/
theorem Editor.WellFormed.ascii_shown (hr : r.WellFormed lines) (hlines : ∀ l ∈ lines, Ascii l)
    (pos : ℕ) : Ascii (r.shown lines pos) := by
  rw [shown]
  split
  · exact hr.ascii
  · cases hmod : r.historyModified pos with
    | some s => exact hr.modified pos s hmod
    | none =>
        cases hline : lines[pos]? with
        | some l => exact hlines l (List.mem_of_getElem? hline)
        | none => exact ascii_nil

/-- An edit of the line at the position. -/
theorem Models.edits {e : LineEditor Char} (hm : Models lines r e) (h : Edits r r')
    {before after : List Char} (hs : r'.s = before ++ after) (hi : r'.i = byteLen before) :
    Models lines r' { e with before := before, after := after } := by
  refine ⟨h.pos.trans hm.pos, hs, hi, fun pos => ?_⟩
  by_cases hpos : pos = r.historyPos
  · subst hpos
    rw [← h.pos, Editor.shown_self, hs, h.pos, hm.pos]
    exact (if_pos rfl).symm
  · rw [h.shown_eq hpos, hm.shown]
    rw [hm.pos] at hpos
    exact (if_neg hpos).trans (if_neg hpos).symm

/-- A move to another position. -/
theorem Models.moves {e : LineEditor Char} (hm : Models lines r e) (h : Moves lines r r') :
    Models lines r' (e.goTo r'.historyPos) := by
  have hs : r'.s = e.text r'.historyPos := by rw [h.s, hm.shown]
  refine ⟨rfl, hs.trans (List.append_nil _).symm, by rw [h.index, hs]; rfl, fun pos => ?_⟩
  rw [h.shown_eq, hm.shown, LineEditor.text_goTo]

/-- Before the loop. -/
theorem Editor.new_models (h : history.buf.Represents lines) :
    Models lines (Editor.new history) (.new lines) := by
  refine ⟨h.len, rfl, rfl, fun pos => ?_⟩
  rw [Editor.new_shown h, LineEditor.text]
  split
  next heq =>
    rw [heq]
    exact congrArg (Option.getD · []) (List.getElem?_eq_none (Nat.le_refl _))
  next => rfl

/-! ### What a character does -/

/-- A subtraction that does not overflow. -/
theorem sub_eq {a b : ℕ} (h : b ≤ a) : sub a b = .ok (a - b) := if_pos h

/-- An operation on the deque that returns. -/
@[simp] theorem liftDeque_ok {α : Type} (a : α) : liftDeque (.ok a) = .ok a := rfl

/-- There is something to unwrap. -/
@[simp] theorem orPanic_some {α : Type} (why : Panic) (a : α) : orPanic why (some a) = .ok a := rfl

/-- **Adding a line to the history.** There is always room. -/
theorem CommandHistory.push_spec (h : history.buf.Represents lines) (s : List Char) :
    ∃ history', history.push s = .ok history' ∧
      history'.buf.Represents (remember lines s) := by
  have hle := h.le
  by_cases hfull : lines.length = 64
  · obtain ⟨a, l, rfl⟩ : ∃ a l, lines = a :: l :=
      List.exists_cons_of_length_pos (hfull ▸ Nat.succ_pos 63)
    obtain ⟨buf, hpop, hbuf⟩ := h.popFront_cons
    rw [List.length_cons] at hfull
    obtain ⟨buf', hpush, hbuf'⟩ := hbuf.pushBack (by omega) s
    refine ⟨⟨buf'⟩, ?_, ?_⟩
    · rw [push, if_pos (h.len.trans hfull), hpop]
      simp only [liftDeque_ok, ok_bind, pure_bind, hpush]
      rfl
    · rwa [remember, List.length_cons, if_pos hfull]
  · obtain ⟨buf', hpush, hbuf'⟩ := h.pushBack (by omega) s
    refine ⟨⟨buf'⟩, ?_, ?_⟩
    · have hlen : ¬ history.buf.len = 64 := by rwa [h.len]
      rw [push, if_neg hlen]
      simp only [liftDeque_ok, ok_bind, pure_bind, hpush]
      rfl
    · rwa [remember, if_neg hfull]

/-- A newline returns the line and adds it to the history. -/
theorem Editor.newline_spec (hr : r.WellFormed lines) (h : history.buf.Represents lines) :
    ∃ history' out, r.newline history = .ok (history', out) ∧
      history'.buf.Represents (remember lines r.s) := by
  obtain ⟨history', hpush, h'⟩ := CommandHistory.push_spec h r.s
  rw [newline, sub_eq hr.index, hpush]
  by_cases hi : r.i = byteLen r.s
  · rw [if_neg (not_not_intro hi)]
    exact ⟨history', _, rfl, h'⟩
  · rw [if_pos hi]
    exact ⟨history', _, rfl, h'⟩

/-- What is before the cursor and behind it. -/
theorem Editor.WellFormed.ascii_parts (hr : r.WellFormed lines) {e : LineEditor Char}
    (hm : Models lines r e) : Ascii e.before ∧ Ascii e.after := by
  rw [← ascii_append, ← hm.s]
  exact hr.ascii

/-- What is before the cursor, if the cursor is not at the start. -/
theorem Editor.WellFormed.exists_before (hr : r.WellFormed lines) {e : LineEditor Char}
    (hm : Models lines r e) (hi : r.i ≠ 0) :
    ∃ l c, e.before = l ++ [c] ∧ Ascii l ∧ byteLen l = r.i - 1 := by
  obtain ⟨hbefore, -⟩ := hr.ascii_parts hm
  rcases List.eq_nil_or_concat e.before with hnil | ⟨l, c, hconcat⟩
  · exact absurd (by rw [hm.i, hnil]; rfl) hi
  · rw [List.concat_eq_append] at hconcat
    rw [hconcat, ascii_append, ascii_cons] at hbefore
    refine ⟨l, c, hconcat, hbefore.1, ?_⟩
    rw [hm.i, hconcat, byteLen_append, byteLen_cons, hbefore.2.1]
    rfl

/-- A backspace takes a character out of the line. -/
theorem Editor.backspace_spec (hr : r.WellFormed lines) {e : LineEditor Char}
    (hm : Models lines r e) :
    ∃ r' out, r.backspace = .ok (r', out) ∧ r'.waiting = r.waiting ∧ Edits r r' ∧
      Models lines r' { e with before := e.before.dropLast } := by
  rw [backspace]
  by_cases hi : r.i = 0
  · rw [if_neg (not_not_intro hi)]
    have hnil : e.before = [] := byteLen_eq_zero.mp (hm.i.symm.trans hi)
    have hedits : Edits r r := ⟨rfl, rfl, hr.index, hr.ascii⟩
    refine ⟨r, [], rfl, rfl, hedits, hm.edits hedits ?_ ?_⟩
    · rw [hm.s, hnil]
      rfl
    · rw [hm.i, hnil]
      rfl
  · rw [if_pos hi]
    obtain ⟨l, c, hbefore, hl, hlen⟩ := hr.exists_before hm hi
    obtain ⟨-, hafter⟩ := hr.ascii_parts hm
    have hs : r.s = l ++ c :: e.after := by rw [hm.s, hbefore, List.append_assoc]; rfl
    have hremove : remove r.s (r.i - 1) = some (l ++ e.after) := by
      rw [hs, ← hlen, remove_append]
    have htail : sliceFrom (l ++ e.after) (r.i - 1) = some e.after := by
      rw [← hlen, sliceFrom_append]
    have hle : r.i - 1 ≤ byteLen (l ++ e.after) := by rw [byteLen_append]; omega
    simp only [hremove, orPanic_some, ok_bind, htail, sub_eq hle]
    have hedits : Edits r { r with s := l ++ e.after, i := r.i - 1 } :=
      ⟨rfl, rfl, hle, ascii_append.mpr ⟨hl, hafter⟩⟩
    refine ⟨_, _, rfl, rfl, hedits, ?_⟩
    rw [hbefore, List.dropLast_concat]
    exact hm.edits hedits rfl hlen.symm

/-- A character is put into the line. -/
theorem Editor.insertChar_spec (hr : r.WellFormed lines) {e : LineEditor Char}
    (hm : Models lines r e) {ch : Char} (hch : ch.utf8Size = 1) :
    ∃ r' out, r.insertChar ch = .ok (r', out) ∧ r'.waiting = r.waiting ∧ Edits r r' ∧
      Models lines r' { e with before := e.before ++ [ch] } := by
  obtain ⟨hbefore, hafter⟩ := hr.ascii_parts hm
  have htail : sliceFrom r.s r.i = some e.after := by rw [hm.s, hm.i, sliceFrom_append]
  have hinsert : insert r.s r.i ch = some (e.before ++ ch :: e.after) := by
    rw [hm.s, hm.i, insert_append]
  have hindex := hm.i
  have hedits : Edits r { r with s := e.before ++ ch :: e.after, i := r.i + 1 } := by
    refine ⟨rfl, rfl, ?_, ascii_append.mpr ⟨hbefore, ascii_cons.mpr ⟨hch, hafter⟩⟩⟩
    simp only [byteLen_append, byteLen_cons]
    omega
  have hlen : byteLen (e.before ++ [ch]) = r.i + 1 := by
    rw [byteLen_append, byteLen_cons, hch, hm.i]
    rfl
  have hmodels : Models lines { r with s := e.before ++ ch :: e.after, i := r.i + 1 }
      { e with before := e.before ++ [ch] } :=
    hm.edits hedits (List.append_assoc e.before [ch] e.after).symm hlen.symm
  rw [insertChar, htail, sub_eq hr.index, hinsert]
  by_cases hi : r.i = byteLen r.s
  · rw [if_neg (not_not_intro hi)]
    exact ⟨_, _, rfl, rfl, hedits, hmodels⟩
  · rw [if_pos hi]
    exact ⟨_, _, rfl, rfl, hedits, hmodels⟩

/-- The cursor moves to the right, unless it is at the end. -/
theorem Editor.forward_spec (hr : r.WellFormed lines) {e : LineEditor Char}
    (hm : Models lines r e) {i : ℕ} (hi : i = if r.i ≠ byteLen r.s then r.i + 1 else r.i) :
    Edits r { r with i := i } ∧ Models lines { r with i := i } e.forward := by
  obtain ⟨-, hafter⟩ := hr.ascii_parts hm
  have hindex := hr.index
  have hedits : Edits r { r with i := i } := by
    refine ⟨rfl, rfl, ?_, hr.ascii⟩
    dsimp only
    split at hi <;> omega
  refine ⟨hedits, hm.edits hedits ?_ ?_⟩
  · rw [List.append_assoc, List.take_append_drop]
    exact hm.s
  · have hlen : byteLen r.s = r.i + byteLen e.after := by rw [hm.s, byteLen_append, hm.i]
    dsimp only
    cases hcases : e.after with
    | nil =>
        rw [hcases, byteLen_nil] at hlen
        rw [if_neg (by omega)] at hi
        rw [hi, hm.i, List.take_nil, List.append_nil]
    | cons c t =>
        rw [hcases, byteLen_cons] at hlen
        rw [hcases, ascii_cons] at hafter
        rw [if_pos (by omega)] at hi
        rw [hi, hm.i, List.take_succ_cons, List.take_zero, byteLen_append, byteLen_cons, hafter.1]
        rfl

/-- The cursor moves to the left, unless it is at the start. -/
theorem Editor.back_spec (hr : r.WellFormed lines) {e : LineEditor Char}
    (hm : Models lines r e) {i : ℕ} (hi : i = if r.i ≠ 0 then r.i - 1 else r.i) :
    Edits r { r with i := i } ∧ Models lines { r with i := i } e.back := by
  have hindex := hr.index
  have hedits : Edits r { r with i := i } := by
    refine ⟨rfl, rfl, ?_, hr.ascii⟩
    dsimp only
    split at hi <;> omega
  refine ⟨hedits, ?_⟩
  by_cases hzero : r.i = 0
  · rw [if_neg (not_not_intro hzero)] at hi
    have hnil : e.before = [] := byteLen_eq_zero.mp (hm.i.symm.trans hzero)
    refine hm.edits hedits ?_ ?_
    · rw [hnil]
      exact hm.s.trans (by rw [hnil]; rfl)
    · rw [hnil]
      exact hi.trans hzero
  · rw [if_pos hzero] at hi
    obtain ⟨l, c, hbefore, -, hlen⟩ := hr.exists_before hm hzero
    refine hm.edits hedits ?_ ?_
    · rw [hbefore, List.dropLast_concat, List.getLast?_concat]
      exact hm.s.trans (by rw [hbefore, List.append_assoc]; rfl)
    · rw [hbefore, List.dropLast_concat]
      exact hi.trans hlen.symm

/-- Moving to a position at which no panic is possible. -/
theorem Editor.moveHistory_spec (hr : r.WellFormed lines) (h : history.buf.Represents lines)
    {pos : ℕ} (hne : pos ≠ r.historyPos) (hpos : pos ≤ lines.length) :
    ∃ r' out, r.moveHistory history pos = .ok (r', out) ∧ r'.waiting = r.waiting ∧
      r'.historyPos = pos ∧ Moves lines r r' := by
  have hle := h.le
  have hrpos := hr.pos
  let kept := { r with
    historyModified := Function.update r.historyModified r.historyPos (some r.s) }
  have hkept : kept.historyModified pos = r.historyModified pos := Function.update_of_ne hne _ _
  obtain ⟨s, hline, hshown⟩ : ∃ s, kept.lineAt history pos = .ok s ∧ s = r.shown lines pos := by
    rw [lineAt, hkept, shown, if_neg hne]
    cases hmod : r.historyModified pos with
    | some modified => exact ⟨modified, rfl, rfl⟩
    | none =>
        have hlt : pos < lines.length := by
          refine Nat.lt_of_le_of_ne hpos fun heq => ?_
          have havail := hr.available fun h' => hne (heq.trans h'.symm)
          rw [← heq, hmod] at havail
          cases havail
        refine ⟨lines[pos], ?_, ?_⟩
        · rw [h.get pos, List.getElem?_eq_getElem hlt]
          rfl
        · rw [List.getElem?_eq_getElem hlt]
          rfl
  have hfrom : r.historyPos < historyModifiedLen := by unfold historyModifiedLen; omega
  have hto : pos < historyModifiedLen := by unfold historyModifiedLen; omega
  rw [moveHistory, ensure_pos hfrom, ok_bind, ensure_pos hto, ok_bind, hline]
  exact ⟨_, _, rfl, rfl, rfl, hne, hpos, rfl, hshown, rfl⟩

/-- The end of a control sequence edits the line or moves to another, as the line editor does. -/
theorem Editor.arrow_spec (hr : r.WellFormed lines) (h : history.buf.Represents lines)
    {e : LineEditor Char} (hm : Models lines r e) (ch : Option Char) :
    ∃ r' out, r.arrow history ch = .ok (r', out) ∧ (Edits r r' ∨ Moves lines r r') ∧
      Agrees lines (.running r') (r.waiting, e.actIf lines.length (arrowOf ch)) := by
  have hpos := hr.pos
  have hsame : Edits r r := ⟨rfl, rfl, hr.index, hr.ascii⟩
  unfold arrow
  split
  · have hact : e.actIf lines.length (arrowOf (some 'A')) =
        .editing (if e.pos ≠ 0 then e.goTo (e.pos - 1) else e) := rfl
    rw [hact, ← hm.pos]
    split
    next hne =>
      obtain ⟨r', out, hmove, hwaiting, hto, hmoves⟩ :=
        moveHistory_spec hr h (show r.historyPos - 1 ≠ r.historyPos by omega) (by omega)
      exact ⟨r', out, hmove, .inr hmoves, hwaiting, hto ▸ hm.moves hmoves⟩
    next => exact ⟨r, [], rfl, .inl hsame, rfl, hm⟩
  · have hact : e.actIf lines.length (arrowOf (some 'B')) =
        .editing (if e.pos ≠ lines.length then e.goTo (e.pos + 1) else e) := rfl
    rw [hact, ← hm.pos, h.len]
    split
    next hne =>
      obtain ⟨r', out, hmove, hwaiting, hto, hmoves⟩ :=
        moveHistory_spec hr h (show r.historyPos + 1 ≠ r.historyPos by omega) (by omega)
      exact ⟨r', out, hmove, .inr hmoves, hwaiting, hto ▸ hm.moves hmoves⟩
    next => exact ⟨r, [], rfl, .inl hsame, rfl, hm⟩
  · split
    next hne =>
      obtain ⟨hedits, hmodels⟩ := forward_spec hr hm (if_pos hne).symm
      exact ⟨_, _, rfl, .inl hedits, rfl, hmodels⟩
    next hne =>
      obtain ⟨hedits, hmodels⟩ := forward_spec hr hm (if_neg hne).symm
      exact ⟨_, _, rfl, .inl hedits, rfl, hmodels⟩
  · split
    next hne =>
      obtain ⟨hedits, hmodels⟩ := back_spec hr hm (if_pos hne).symm
      exact ⟨_, _, rfl, .inl hedits, rfl, hmodels⟩
    next hne =>
      obtain ⟨hedits, hmodels⟩ := back_spec hr hm (if_neg hne).symm
      exact ⟨_, _, rfl, .inl hedits, rfl, hmodels⟩
  · have hnone : arrowOf ch = none := by
      unfold arrowOf
      split <;> first | rfl | exact absurd rfl (by assumption)
    rw [hnone]
    exact ⟨r, [], rfl, .inl hsame, rfl, hm⟩

/-- **What a character does.** There is no panic, and the loop goes on as the line editor does. -/
theorem Editor.next_spec (hr : r.WellFormed lines) (h : history.buf.Represents lines)
    {e : LineEditor Char} (hm : Models lines r e) (ch : Option Char) :
    ∃ outcome history' out, r.next history ch = .ok (outcome, history', out) ∧
      Does history lines r outcome history' ∧
      Agrees lines outcome (typeChar lines.length (r.waiting, .editing e) ch) := by
  have hsame : ∀ w, Edits r { r with waiting := w } := fun w => ⟨rfl, rfl, hr.index, hr.ascii⟩
  have hmsame : ∀ w, Models lines { r with waiting := w } e :=
    fun w => ⟨hm.pos, hm.s, hm.i, hm.shown⟩
  unfold next
  split
  next hw =>
    rw [hw]
    exact ⟨_, _, _, rfl, .edits (hsame _), rfl, hmsame _⟩
  next hw =>
    have hr' : Editor.WellFormed { r with waiting := .key } lines :=
      ⟨hr.pos, hr.index, hr.ascii, hr.modified, hr.available⟩
    obtain ⟨r', out, harrow, hdoes, hagrees⟩ := arrow_spec hr' h (hmsame .key) ch
    rw [harrow, hw]
    rcases hdoes with hedits | hmoves
    · exact ⟨_, _, _, rfl, .edits ⟨hedits.pos, hedits.modified, hedits.index, hedits.ascii⟩,
        hagrees⟩
    · exact ⟨_, _, _, rfl,
        .moves ⟨hmoves.ne, hmoves.pos, hmoves.modified, hmoves.s, hmoves.index⟩, hagrees⟩
  next hw =>
    have htext : r.s = e.text e.pos := hm.s.trans e.text_pos.symm
    rw [hw]
    split
    · exact ⟨_, _, _, rfl, .fails, htext⟩
    · rename_i ch
      have htype : typeChar lines.length (.key, .editing e) (some ch) =
          ((keyOf .key (some ch)).1, e.actIf lines.length (keyOf .key (some ch)).2) := rfl
      rw [htype, keyOf]
      split
      · obtain ⟨history', out, hnewline, h'⟩ := newline_spec hr h
        rw [hnewline]
        exact ⟨_, _, _, rfl, .returns h', htext⟩
      split
      · obtain ⟨r', out, hback, hwaiting, hedits, hmodels⟩ := backspace_spec hr hm
        rw [hback]
        exact ⟨_, _, _, rfl, .edits hedits, hwaiting.trans hw, hmodels⟩
      split
      · exact ⟨_, _, _, rfl, .edits (hsame _), rfl, hmsame _⟩
      split
      · exact ⟨_, _, _, rfl, .edits (hsame r.waiting), hw, hm⟩
      split
      next hch =>
        obtain ⟨r', out, hinsert, hwaiting, hedits, hmodels⟩ := insertChar_spec hr hm hch
        rw [hinsert]
        exact ⟨_, _, _, rfl, .edits hedits, hwaiting.trans hw, hmodels⟩
      next => exact ⟨_, _, _, rfl, .edits (hsame r.waiting), hw, hm⟩

/-! ### The invariant -/

/-- A new line is well formed. -/
theorem Editor.new_wellFormed (h : history.buf.Represents lines) :
    (Editor.new history).WellFormed lines :=
  ⟨Nat.le_of_eq h.len, Nat.le_refl 0, ascii_nil, fun _ _ hs => (nomatch hs),
    fun hne => absurd h.len hne⟩

/-- Editing keeps the line well formed. -/
theorem Editor.WellFormed.edits (hr : r.WellFormed lines) (h : Edits r r') :
    r'.WellFormed lines := by
  refine ⟨h.pos ▸ hr.pos, h.index, h.ascii, ?_, ?_⟩
  · rw [h.modified]
    exact hr.modified
  · rw [h.modified, h.pos]
    exact hr.available

/-- Moving in the history keeps the line well formed. -/
theorem Editor.WellFormed.moves (hr : r.WellFormed lines) (hlines : ∀ l ∈ lines, Ascii l)
    (h : Moves lines r r') : r'.WellFormed lines := by
  refine ⟨h.pos, Nat.le_of_eq h.index, ?_, fun pos s hs => ?_, fun hne => ?_⟩
  · rw [h.s]
    exact hr.ascii_shown hlines _
  · rw [h.modified, Function.update_apply] at hs
    split at hs
    · cases hs
    · rw [Function.update_apply] at hs
      split at hs
      · obtain rfl := Option.some.inj hs
        exact hr.ascii
      · exact hr.modified pos s hs
  · rw [h.modified, Function.update_of_ne (Ne.symm hne), Function.update_apply]
    split
    · rfl
    next hfrom => exact hr.available (Ne.symm hfrom)

/-- What holds of a call of `readline`: while it runs, its history is the one it was called
with, and when it returns a line, this is the newest of the history. -/
def Session.Keeps (history : CommandHistory) (lines : List (List Char)) (t : Session) : Prop :=
  match t.outcome with
  | .running r => t.history = history ∧ r.WellFormed lines
  | .ok s => Ascii s ∧ t.history.buf.Represents (remember lines s)
  | .err s => Ascii s ∧ t.history = history

/-- Every editor is one that is meant. -/
theorem Editor.WellFormed.exists_models (hr : r.WellFormed lines) :
    ∃ e : LineEditor Char, Models lines r e := by
  obtain ⟨before, after, hs, hi⟩ := hr.ascii.exists_split hr.index
  refine ⟨⟨r.historyPos, r.shown lines, before, after⟩, rfl, hs, hi.symm, fun pos => ?_⟩
  rw [LineEditor.text]
  split
  next hpos => rw [hpos, Editor.shown_self, hs]
  next => rfl

/-- **A character keeps the invariant**, there is no panic, and the line editor does the same. -/
theorem Session.Keeps.next {t : Session} (ht : t.Keeps history lines)
    (h : history.buf.Represents lines) (hlines : ∀ l ∈ lines, Ascii l) (ch : Option Char) :
    ∃ u, t.next ch = .ok u ∧ u.Keeps history lines ∧
      ∀ meant, Agrees lines t.outcome meant →
        Agrees lines u.outcome (typeChar lines.length meant ch) := by
  obtain ⟨outcome, history', out⟩ := t
  cases outcome with
  | ok s =>
      refine ⟨_, rfl, ht, fun meant hagrees => ?_⟩
      obtain ⟨w, _ | s' | s'⟩ := meant
      · cases hagrees
      · exact hagrees
      · cases hagrees
  | err s =>
      refine ⟨_, rfl, ht, fun meant hagrees => ?_⟩
      obtain ⟨w, _ | s' | s'⟩ := meant
      · cases hagrees
      · cases hagrees
      · exact hagrees
  | running r =>
      obtain ⟨rfl, hr⟩ := ht
      obtain ⟨e, hm⟩ := hr.exists_models
      obtain ⟨outcome, history'', out', hnext, hdoes, -⟩ := Editor.next_spec hr h hm ch
      refine ⟨⟨outcome, history'', out ++ out'⟩, ?_, ?_, fun meant hagrees => ?_⟩
      · rw [Session.next]
        simp only [hnext, ok_bind]
        rfl
      · cases hdoes with
        | edits hedits => exact ⟨rfl, hr.edits hedits⟩
        | moves hmoves => exact ⟨rfl, hr.moves hlines hmoves⟩
        | returns h' => exact ⟨hr.ascii, h'⟩
        | fails => exact ⟨hr.ascii, rfl⟩
      · obtain ⟨w, e' | s' | s'⟩ := meant
        · obtain ⟨rfl, hm'⟩ := hagrees
          obtain ⟨outcome', _, _, hnext', -, hagrees'⟩ := Editor.next_spec hr h hm' ch
          rw [hnext] at hnext'
          obtain ⟨rfl, -⟩ := Prod.mk.inj (Except.ok.inj hnext')
          exact hagrees'
        · cases hagrees
        · cases hagrees

/-- The loop has returned what the line editor has. -/
theorem Agrees.eq_ok {outcome : Outcome} {w : Waiting} {s : List Char}
    (h : Agrees lines outcome (w, .returned s)) : outcome = .ok s := by
  cases outcome with
  | running r => cases h
  | ok s' => exact congrArg Outcome.ok h
  | err s' => cases h

/-- What is waited for after a character, and when `readline` fails at it. -/
theorem Session.Keeps.next_waiting {t u : Session} {ch : Option Char} (ht : t.Keeps history lines)
    (h : history.buf.Represents lines) (hlines : ∀ l ∈ lines, Ascii l)
    (hout : t.outcome = .running r) (hnext : t.next ch = .ok u) :
    match u.outcome with
    | .running r' => r'.waiting = (keyOf r.waiting ch).1 ∧ ¬(r.waiting = .key ∧ ch = none)
    | .ok _ => (keyOf r.waiting ch).1 = .key ∧ ¬(r.waiting = .key ∧ ch = none)
    | .err _ => r.waiting = .key ∧ ch = none := by
  obtain ⟨u', hnext', -, hsame⟩ := ht.next h hlines ch
  obtain rfl := Except.ok.inj (hnext.symm.trans hnext')
  rw [Keeps, hout] at ht
  obtain ⟨e, hm⟩ := ht.2.exists_models
  have hagrees := hsame (r.waiting, .editing e) (by rw [hout]; exact ⟨rfl, hm⟩)
  have htype : typeChar lines.length (r.waiting, .editing e) ch =
      ((keyOf r.waiting ch).1, e.actIf lines.length (keyOf r.waiting ch).2) := rfl
  rw [htype] at hagrees
  have hunreadable : r.waiting = .key ∧ ch = none →
      e.actIf lines.length (keyOf r.waiting ch).2 = .failed (e.text e.pos) := fun hkey => by
    rw [keyOf_eq_unreadable_iff.mpr hkey]
    rfl
  cases hact : e.actIf lines.length (keyOf r.waiting ch).2 with
  | editing e' =>
      rw [hact] at hagrees hunreadable
      cases houtcome : u.outcome with
      | running r' =>
          rw [houtcome] at hagrees
          exact ⟨hagrees.1, fun hkey => by cases hunreadable hkey⟩
      | ok s => rw [houtcome] at hagrees; cases hagrees
      | err s => rw [houtcome] at hagrees; cases hagrees
  | returned s =>
      rw [hact] at hagrees hunreadable
      rw [hagrees.eq_ok]
      exact ⟨keyOf_of_newline (LineEditor.actIf_eq_returned hact), fun hkey => by
        cases hunreadable hkey⟩
  | failed s =>
      rw [hact] at hagrees
      cases houtcome : u.outcome with
      | running r' => rw [houtcome] at hagrees; cases hagrees
      | ok s => rw [houtcome] at hagrees; cases hagrees
      | err s => exact keyOf_eq_unreadable_iff.mp (LineEditor.actIf_eq_failed hact)

/-- **Characters keep the invariant**, and the line editor does the same. -/
theorem Session.run_keeps (h : history.buf.Represents lines) (hlines : ∀ l ∈ lines, Ascii l)
    (chars : List (Option Char)) :
    ∃ t, (Session.start history).run chars = .ok t ∧ t.Keeps history lines ∧
      Agrees lines t.outcome (typeChars lines chars) := by
  have hrun : ∃ t, (Session.start history).run chars = .ok t ∧ t.Keeps history lines ∧
      Agrees lines t.outcome (typeChars lines (chars.take chars.length)) := by
    refine foldlM_invariant (fun k (t : Session) => t.Keeps history lines ∧
      Agrees lines t.outcome (typeChars lines (chars.take k)))
      ⟨⟨rfl, Editor.new_wellFormed h⟩, rfl, Editor.new_models h⟩ fun i hi t ht => ?_
    obtain ⟨u, hnext, hu, hsame⟩ := ht.1.next h hlines chars[i]
    refine ⟨u, hnext, hu, ?_⟩
    rw [List.take_succ_eq_append_getElem hi, typeChars, List.foldl_append]
    exact hsame _ ht.2
  rw [List.take_length] at hrun
  exact hrun

/-! ### Returning to a position -/

/-- The editor of a call that has not returned yet. -/
def Reached (history : CommandHistory) (r : Editor) : Prop :=
  ∃ chars t, (Session.start history).run chars = .ok t ∧ t.outcome = .running r

/-- A character after which the loop goes on. -/
def Goes (history : CommandHistory) (r r' : Editor) : Prop :=
  ∃ ch out, r.next history ch = .ok (.running r', history, out)

/-- One or more characters, after each of which the editor is not at the position. -/
def Elsewhere (history : CommandHistory) (pos : ℕ) : Editor → Editor → Prop :=
  Relation.TransGen fun r r' => Goes history r r' ∧ r'.historyPos ≠ pos

/-- A character after which the loop goes on edits the line or moves to another. -/
theorem Goes.cases (h : Goes history r r') (hr : r.WellFormed lines)
    (hlines : history.buf.Represents lines) : Edits r r' ∨ Moves lines r r' := by
  obtain ⟨ch, out, hnext⟩ := h
  obtain ⟨e, hm⟩ := hr.exists_models
  obtain ⟨outcome, history', out', hspec, hdoes, -⟩ := Editor.next_spec hr hlines hm ch
  rw [hnext] at hspec
  obtain ⟨rfl, -⟩ := Prod.mk.inj (Except.ok.inj hspec)
  cases hdoes with
  | edits hedits => exact .inl hedits
  | moves hmoves => exact .inr hmoves

/-- While the editor is elsewhere, what is shown at a position stays as it was left. -/
theorem Elsewhere.shown_eq (h : Elsewhere history r.historyPos r r') (hr : r.WellFormed lines)
    (hhist : history.buf.Represents lines) (hlines : ∀ l ∈ lines, Ascii l) :
    r'.WellFormed lines ∧ r'.historyPos ≠ r.historyPos ∧
      r'.shown lines r.historyPos = r.s := by
  induction h with
  | single hstep =>
      obtain ⟨hgoes, hne⟩ := hstep
      rcases hgoes.cases hr hhist with hedits | hmoves
      · exact absurd hedits.pos hne
      · exact ⟨hr.moves hlines hmoves, hne, by rw [hmoves.shown_eq, Editor.shown_self]⟩
  | tail _ hstep ih =>
      obtain ⟨hgoes, hne⟩ := hstep
      obtain ⟨hr', hne', hshown⟩ := ih
      rcases hgoes.cases hr' hhist with hedits | hmoves
      · exact ⟨hr'.edits hedits, hne, by rw [hedits.shown_eq hne'.symm, hshown]⟩
      · exact ⟨hr'.moves hlines hmoves, hne, by rw [hmoves.shown_eq, hshown]⟩

/-- **`readline` on every stream of characters.** It does not panic, and it does what the line
editor does that the characters are typed into: it shows the same text at every position, with the
cursor at the same place, and it returns the same line, or fails, at the same character. While it
runs, its history is the one it was called with, its index is in its line, its line is ASCII, its
position is one of the history or that of the new line, and every other such position is available.
When it returns a line, the line is the newest of the history, and the oldest one is forgotten
exactly if there were 64. And when the editor returns to a position, its line is the one that it
left. -/
theorem readline_spec (h : history.buf.Represents lines) (hlines : ∀ l ∈ lines, Ascii l) :
    (∀ chars, ∃ t, (Session.start history).run chars = .ok t ∧ t.Keeps history lines ∧
      Agrees lines t.outcome (typeChars lines chars)) ∧
    ∀ r r' r'', Reached history r → Elsewhere history r.historyPos r r' → Goes history r' r'' →
      r''.historyPos = r.historyPos → r''.s = r.s := by
  refine ⟨Session.run_keeps h hlines, fun r r' r'' hreached helse hgoes hback => ?_⟩
  obtain ⟨chars, t, hrun, hout⟩ := hreached
  obtain ⟨u, hrun', hkeeps, -⟩ := Session.run_keeps h hlines chars
  obtain rfl := Except.ok.inj (hrun.symm.trans hrun')
  rw [Session.Keeps, hout] at hkeeps
  obtain ⟨hr', hne, hshown⟩ := helse.shown_eq hkeeps.2 h hlines
  rcases hgoes.cases hr' h with hedits | hmoves
  · exact absurd (hedits.pos.symm.trans hback) hne
  · rw [hmoves.s, hback, hshown]

/-- A history of two lines. -/
def twoLineHistory : CommandHistory :=
  ⟨⟨0, 2, fun i => some (if i = 0 then "ls".toList else "dev".toList)⟩⟩

/-- Its lines. -/
theorem twoLineHistory_represents :
    twoLineHistory.buf.Represents ["ls".toList, "dev".toList] := by
  refine ⟨.inr (by decide), rfl, by decide, fun i hi => ?_⟩
  have hcases : i = 0 ∨ i = 1 := Nat.le_one_iff_eq_zero_or_eq_one.mp (Nat.le_of_lt_succ hi)
  rcases hcases with rfl | rfl
  · rfl
  · rfl

/-- The last line of the history is edited, and left and returned to, before it is returned. -/
theorem readline_spec_twoLines :
    ∃ t, (Session.start twoLineHistory).run
        ("\x1b[Ax\x7fs\x1b[A\x1b[B\n".toList.map some) = .ok t ∧ t.outcome = .ok "devs".toList ∧
      t.history.buf.Represents ["ls".toList, "dev".toList, "devs".toList] := by
  have hascii : ∀ l ∈ ["ls".toList, "dev".toList], ∀ c ∈ l, c.utf8Size = 1 := by
    simp [Char.utf8Size]
  obtain ⟨t, hrun, hkeeps, hagrees⟩ := (readline_spec twoLineHistory_represents hascii).1
    ("\x1b[Ax\x7fs\x1b[A\x1b[B\n".toList.map some)
  have htyped : typeChars ["ls".toList, "dev".toList]
      ("\x1b[Ax\x7fs\x1b[A\x1b[B\n".toList.map some) = (.key, .returned "devs".toList) := rfl
  rw [htyped] at hagrees
  have hout : t.outcome = .ok "devs".toList := hagrees.eq_ok
  rw [Session.Keeps, hout] at hkeeps
  exact ⟨t, hrun, hout, hkeeps.2⟩

end HydroxKernel.Cmd.Text
