import HydroxKernel.Cmd.Readline

/-!
# The Line Editor as It Is Meant

A line editor with a history shows a text at every position: the lines of the history, and a new
line behind them. Each can be edited where it is shown, with a cursor between two of its characters,
and the editor moves between the positions. A newline returns the text at the position.

The characters can be of any type. What keys a stream of characters of the terminal stands for is
said apart from what the keys do.

## Main results

* `LineEditor.text_goTo`: moving to another position changes no text.
* `failsToRead_concat`: a character that cannot be read counts only where a key is waited for.
-/

namespace HydroxKernel.Cmd

/-! ### Keys -/

/-- A key of the line editor. A character that cannot be read is one, too. -/
inductive Key (α : Type)
  | newline
  | backspace
  | up
  | down
  | right
  | left
  | insert (ch : α)
  | unreadable

/-- The key that a character ends a control sequence to. -/
def arrowOf : Option Char → Option (Key Char)
  | some 'A' => some .up
  | some 'B' => some .down
  | some 'C' => some .right
  | some 'D' => some .left
  | _ => none

/-- Where the next character is waited for, and the key that a character ends, if it ends one. -/
def keyOf : Waiting → Option Char → Waiting × Option (Key Char)
  | .escape, ch => (if ch = some '[' then .csi else .key, none)
  | .csi, ch => (.key, arrowOf ch)
  | .key, none => (.key, some .unreadable)
  | .key, some ch =>
      if ch = '\n' then (.key, some .newline)
      else if ch = '\x7f' then (.key, some .backspace)
      else if ch = '\x1b' then (.escape, none)
      else if ch ≤ '\x1f' then (.key, none)
      else if ch.utf8Size = 1 then (.key, some (.insert ch))
      else (.key, none)

/-- A character that cannot be read is a key only where a key is waited for. -/
theorem keyOf_eq_unreadable_iff {w : Waiting} {ch : Option Char} :
    (keyOf w ch).2 = some .unreadable ↔ w = .key ∧ ch = none := by
  constructor
  · intro h
    cases w with
    | escape => cases h
    | csi =>
        unfold keyOf arrowOf at h
        dsimp only at h
        split at h <;> cases h
    | key =>
        cases ch with
        | none => exact ⟨rfl, rfl⟩
        | some ch =>
            unfold keyOf at h
            dsimp only at h
            repeat' split at h
            all_goals cases h
  · rintro ⟨rfl, rfl⟩
    rfl

/-- A key is waited for after a newline. -/
theorem keyOf_of_newline {w : Waiting} {ch : Option Char} (h : (keyOf w ch).2 = some .newline) :
    (keyOf w ch).1 = .key := by
  cases w with
  | escape => cases h
  | csi => rfl
  | key =>
      cases ch with
      | none => rfl
      | some ch =>
          by_cases hch : ch = '\n'
          · rw [keyOf, if_pos hch]
          · unfold keyOf at h
            dsimp only at h
            rw [if_neg hch] at h
            repeat' split at h
            all_goals cases h

/-- What is waited for after characters. -/
def waitingAfter (chars : List (Option Char)) : Waiting :=
  chars.foldl (fun w ch => (keyOf w ch).1) .key

/-- One of the characters cannot be read, and a key is waited for then. -/
def FailsToRead (chars : List (Option Char)) : Prop :=
  ∃ before after, chars = before ++ none :: after ∧ waitingAfter before = .key

/-- One more character. -/
theorem waitingAfter_concat (chars : List (Option Char)) (ch : Option Char) :
    waitingAfter (chars ++ [ch]) = (keyOf (waitingAfter chars) ch).1 := by
  rw [waitingAfter, List.foldl_append]
  rfl

/-- **One more character** cannot be read where a key is waited for, or one before it. -/
theorem failsToRead_concat {chars : List (Option Char)} {ch : Option Char} :
    FailsToRead (chars ++ [ch]) ↔ FailsToRead chars ∨ waitingAfter chars = .key ∧ ch = none := by
  constructor
  · rintro ⟨before, after, heq, hwaiting⟩
    rcases List.eq_nil_or_concat after with rfl | ⟨after, last, rfl⟩
    · obtain ⟨rfl, hlast⟩ := List.append_inj' heq rfl
      exact .inr ⟨hwaiting, (List.cons.inj hlast).1⟩
    · rw [List.concat_eq_append, ← List.cons_append, ← List.append_assoc] at heq
      exact .inl ⟨before, after, (List.append_inj' heq rfl).1, hwaiting⟩
  · rintro (⟨before, after, rfl, hwaiting⟩ | ⟨hwaiting, rfl⟩)
    · exact ⟨before, after ++ [ch], by rw [List.append_assoc, List.cons_append], hwaiting⟩
    · exact ⟨chars, [], rfl, hwaiting⟩

/-! ### The editor -/

variable {α : Type}

/-- The position, the texts at the other positions, and the text at the position, which is cut in
two at the cursor. -/
structure LineEditor (α : Type) where
  pos : ℕ
  texts : ℕ → List α
  before : List α
  after : List α

namespace LineEditor

/-- The editor at the new line. -/
def new (lines : List (List α)) : LineEditor α :=
  ⟨lines.length, fun pos => lines[pos]?.getD [], [], []⟩

/-- The text at a position. -/
def text (e : LineEditor α) (pos : ℕ) : List α :=
  if pos = e.pos then e.before ++ e.after else e.texts pos

/-- The editor at another position, with the cursor at the end. -/
def goTo (e : LineEditor α) (pos : ℕ) : LineEditor α := ⟨pos, e.text, e.text pos, []⟩

/-- The cursor after the next character. -/
def forward (e : LineEditor α) : LineEditor α :=
  { e with before := e.before ++ e.after.take 1, after := e.after.drop 1 }

/-- The cursor before the last character. -/
def back (e : LineEditor α) : LineEditor α :=
  { e with before := e.before.dropLast, after := e.before.getLast?.toList ++ e.after }

/-- How editing goes on. -/
inductive Result (α : Type)
  | editing (e : LineEditor α)
  | returned (s : List α)
  | failed (s : List α)

/-- What a key does, with `count` lines in the history. -/
def act (count : ℕ) (e : LineEditor α) : Key α → Result α
  | .newline => .returned (e.text e.pos)
  | .unreadable => .failed (e.text e.pos)
  | .backspace => .editing { e with before := e.before.dropLast }
  | .insert ch => .editing { e with before := e.before ++ [ch] }
  | .right => .editing e.forward
  | .left => .editing e.back
  | .up => .editing (if e.pos ≠ 0 then e.goTo (e.pos - 1) else e)
  | .down => .editing (if e.pos ≠ count then e.goTo (e.pos + 1) else e)

/-- At its position the editor shows its line. -/
theorem text_pos (e : LineEditor α) : e.text e.pos = e.before ++ e.after := if_pos rfl

/-- Moving to another position changes no text. -/
theorem text_goTo (e : LineEditor α) (pos : ℕ) : (e.goTo pos).text = e.text := by
  funext pos'
  by_cases h : pos' = pos
  · subst h
    exact (if_pos rfl).trans (List.append_nil _)
  · exact if_neg h

end LineEditor

/-- What the editor does once a key has ended, if one has. -/
def LineEditor.actIf (count : ℕ) (e : LineEditor α) : Option (Key α) → Result α
  | some key => e.act count key
  | none => .editing e

/-- The editor fails only if a character could not be read. -/
theorem LineEditor.actIf_eq_failed {count : ℕ} {e : LineEditor α} {key : Option (Key α)}
    {s : List α} (h : e.actIf count key = .failed s) : key = some .unreadable := by
  cases key with
  | none => cases h
  | some key =>
      cases key with
      | unreadable => rfl
      | _ => cases h

/-- The editor returns only on a newline. -/
theorem LineEditor.actIf_eq_returned {count : ℕ} {e : LineEditor α} {key : Option (Key α)}
    {s : List α} (h : e.actIf count key = .returned s) : key = some .newline := by
  cases key with
  | none => cases h
  | some key =>
      cases key with
      | newline => rfl
      | _ => cases h

/-- A character for the editor. -/
def typeChar (count : ℕ) :
    Waiting × LineEditor.Result Char → Option Char → Waiting × LineEditor.Result Char
  | (w, .editing e), ch => ((keyOf w ch).1, e.actIf count (keyOf w ch).2)
  | (w, result), _ => (w, result)

/-- Characters for the editor, one after another. -/
def typeChars (lines : List (List Char)) (chars : List (Option Char)) :
    Waiting × LineEditor.Result Char :=
  chars.foldl (typeChar lines.length) (.key, .editing (.new lines))

/-- The last line of the history is edited, and left and returned to, before it is returned. -/
example : typeChars ["ls".toList, "dev".toList] ("\x1b[As\x1b[A\x1b[B\n".toList.map some) =
    (.key, .returned "devs".toList) := rfl

end HydroxKernel.Cmd
