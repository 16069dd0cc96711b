import HydroxKernel.Cmd.Readline
import HydroxKernel.Io.VtGrid
import HydroxKernel.Lib.Runs

/-!
# The Line on the Screen is the Line that is Edited

`readline` writes text, cursor movements and erase commands to the terminal. From its point of
view a terminal is one line of text, from the column where it starts, and a position in it.
`Displays` says that a grid shows a line so, and leaves everything else as it was before.

## Main results

* `Displays.print`, `Displays.moveLeft`, `Displays.moveRight` and `Displays.erase`: what the
  output of `readline` does to the line on the screen.
* `readline_displays`: in every run the line on the screen is the line that is edited.
-/

namespace HydroxKernel.Cmd

open HydroxKernel.Ansi HydroxKernel.Vt

variable {w h : ℕ}

/-! ### The line on the screen -/

/-- The grid shows a text in the row of the cursor, from where the cursor was in the grid `g₀`.
The cursor is at a position of the text. Everything else is as in `g₀`. -/
structure Displays (g₀ : Grid w h) (text : ℕ → Char) (pos : ℕ) (g : Grid w h) : Prop where
  row : g.row = g₀.row
  col : g.col.val = g₀.col.val + pos
  text : ∀ x : Fin w, g₀.col.val ≤ x.val →
    (g.cells g₀.row x).ch = text (x.val - g₀.col.val)
  before : ∀ x : Fin w, x.val < g₀.col.val → g.cells g₀.row x = g₀.cells g₀.row x
  others : ∀ y, y ≠ g₀.row → ∀ x, g.cells y x = g₀.cells y x

/-- The text of a line, with blanks after it. -/
def lineText (s : List Char) (j : ℕ) : Char := s[j]?.getD ' '

/-- A text with a string written over it. -/
def overwrite (text : ℕ → Char) (pos : ℕ) (s : List Char) (j : ℕ) : Char :=
  if pos ≤ j then s[j - pos]?.getD (text j) else text j

/-- Writing a string writes its first character, and then the rest of it. -/
theorem overwrite_cons (text : ℕ → Char) (pos : ℕ) (ch : Char) (s : List Char) :
    overwrite text pos (ch :: s) = overwrite (Function.update text pos ch) (pos + 1) s := by
  funext j
  unfold overwrite
  rcases Nat.lt_trichotomy j pos with hlt | rfl | hgt
  · rw [if_neg (by omega), if_neg (by omega), Function.update_of_ne (by omega)]
  · rw [if_pos (Nat.le_refl _), if_neg (by omega), Nat.sub_self, Function.update_self]
    rfl
  · rw [if_pos (by omega), if_pos (by omega), Function.update_of_ne (by omega),
      show j - pos = j - (pos + 1) + 1 by omega, List.getElem?_cons_succ]

/-- **Writing over the end of a line** replaces it, if what is written is as long. -/
theorem overwrite_lineText (a b t : List Char) (hle : b.length ≤ t.length) :
    overwrite (lineText (a ++ b)) a.length t = lineText (a ++ t) := by
  funext j
  unfold overwrite lineText
  rcases Nat.lt_or_ge j a.length with hlt | hge
  · rw [if_neg (by omega), List.getElem?_append_left hlt, List.getElem?_append_left hlt]
  · rw [if_pos hge, List.getElem?_append_right hge, List.getElem?_append_right hge]
    rcases Nat.lt_or_ge (j - a.length) t.length with hin | hout
    · rw [List.getElem?_eq_getElem hin]
      rfl
    · rw [List.getElem?_eq_none hout, List.getElem?_eq_none (by omega)]
      rfl

/-- A blank at the end of a line does not show. -/
theorem lineText_blank (s : List Char) : lineText (s ++ [' ']) = lineText s := by
  funext j
  unfold lineText
  rcases Nat.lt_trichotomy j s.length with hlt | rfl | hgt
  · rw [List.getElem?_append_left hlt]
  · rw [List.getElem?_append_right (Nat.le_refl _), Nat.sub_self,
      List.getElem?_eq_none (Nat.le_refl _)]
    rfl
  · rw [List.getElem?_eq_none (by rw [List.length_append, List.length_singleton]; omega),
      List.getElem?_eq_none (by omega)]

/-! ### What strings do to the line on the screen -/

/-- A character is written. -/
theorem Displays.writeChar {g₀ g : Grid w h} {text : ℕ → Char} {pos : ℕ}
    (hd : Displays g₀ text pos g) {ch : Char} (hch : Printable ch)
    (hfits : g₀.col.val + pos + 1 < w) :
    Displays g₀ (Function.update text pos ch) (pos + 1) (g.vtAct (.writeChar ch)) := by
  have hcol := hd.col
  have hnl : ch ≠ '\n' := by
    rintro rfl
    exact absurd hch (by decide)
  have hbs : ch ≠ '\x08' := by
    rintro rfl
    exact absurd hch (by decide)
  have hctl : ¬ (ch ≤ '\x1f' ∨ ch = '\x7f') := by
    rintro (hle | rfl)
    · exact Char.not_le.mpr hch.1 hle
    · exact hch.2.1 rfl
  have hact : g.vtAct (.writeChar ch) = { g with
      cells := fun y x => if y = g.row ∧ x = g.col then ⟨ch, g.fgColor, g.bgColor⟩ else g.cells y x
      col := ⟨g.col.val + 1, by omega⟩ } := by
    rw [g.vtAct_eq (by simp), Grid.act, Grid.writeChar, if_neg hnl, if_neg hbs, if_neg hctl,
      Grid.advance]
    exact dif_pos (by change g.col.val + 1 < w; omega)
  rw [hact]
  refine ⟨hd.row, by change g.col.val + 1 = _; omega, fun x hx => ?_, fun x hx => ?_,
    fun y hy x => ?_⟩
  · change (if g₀.row = g.row ∧ x = g.col then (_ : VTChar) else _).ch = _
    by_cases hxcol : x = g.col
    · have hpos : x.val - g₀.col.val = pos := by
        rw [hxcol]
        omega
      rw [if_pos ⟨hd.row.symm, hxcol⟩, hpos, Function.update_self]
    · have hne : x.val ≠ g.col.val := fun h => hxcol (Fin.ext h)
      rw [if_neg fun h => hxcol h.2, Function.update_of_ne (by omega)]
      exact hd.text x hx
  · have hne : x ≠ g.col := by
      rintro rfl
      omega
    exact (if_neg fun h => hne h.2).trans (hd.before x hx)
  · exact (if_neg fun h => hy (h.1.trans hd.row)).trans (hd.others y hy x)

/-- **A string** is written. -/
theorem Displays.print {g₀ : Grid w h} (s : List Char) {g : Grid w h} {text : ℕ → Char} {pos : ℕ}
    (hd : Displays g₀ text pos g) (hs : ∀ ch ∈ s, Printable ch)
    (hfits : g₀.col.val + pos + s.length < w) :
    Displays g₀ (overwrite text pos s) (pos + s.length)
      ((s.map Action.writeChar).foldl Grid.vtAct g) := by
  induction s generalizing g text pos with
  | nil =>
      have htext : overwrite text pos [] = text := by
        funext j
        rw [overwrite]
        split <;> rfl
      rw [htext]
      exact hd
  | cons ch s ih =>
      rw [List.length_cons] at hfits
      have hch := hd.writeChar (hs ch List.mem_cons_self) (by omega)
      have hrest := ih hch (fun ch hch => hs ch (List.mem_cons_of_mem _ hch)) (by omega)
      rw [overwrite_cons, List.length_cons, show pos + (s.length + 1) = pos + 1 + s.length by omega]
      exact hrest

/-- The cursor moves left. -/
theorem Displays.moveLeft {g₀ g : Grid w h} {text : ℕ → Char} {pos : ℕ}
    (hd : Displays g₀ text pos g) {n : ℕ} (hn : n ≤ pos) :
    Displays g₀ text (pos - n) (g.vtAct (.cursorLeft n)) := by
  have hcol := hd.col
  rw [g.vtAct_eq (by simp)]
  exact ⟨hd.row, by change g.col.val - n = _; omega, hd.text, hd.before, hd.others⟩

/-- The cursor moves right. -/
theorem Displays.moveRight {g₀ g : Grid w h} {text : ℕ → Char} {pos : ℕ}
    (hd : Displays g₀ text pos g) {n : ℕ} (hfits : g₀.col.val + pos + n < w) :
    Displays g₀ text (pos + n) (g.vtAct (.cursorRight n)) := by
  have hcol := hd.col
  rw [g.vtAct_eq (by simp)]
  exact ⟨hd.row, by change min (g.col.val + n) (w - 1) = _; omega, hd.text, hd.before, hd.others⟩

/-- The text is erased, from its first position. On a terminal of one row whose first column is
the first position of the text, it is not. -/
theorem Displays.erase {g₀ g : Grid w h} {text : ℕ → Char} (hd : Displays g₀ text 0 g) :
    Displays g₀ (if 1 < h ∨ 0 < g₀.col.val then lineText [] else text) 0
      (g.vtAct .eraseToLineEnd) := by
  have hcol : g.col.val = g₀.col.val := hd.col
  rw [Grid.vtAct]
  by_cases hrow : 1 < h ∨ 0 < g₀.col.val
  · rw [if_pos hrow, if_neg (by rw [hcol]; exact fun h => h.2 hrow)]
    refine ⟨hd.row, hd.col, fun x hx => ?_, fun x hx => ?_, fun y hy x => ?_⟩
    · change (if g₀.row = g.row ∧ g.col ≤ x then (_ : VTChar) else _).ch = _
      rw [if_pos ⟨hd.row.symm, by omega⟩]
      rfl
    · exact (if_neg fun h => by omega).trans (hd.before x hx)
    · exact (if_neg fun h => hy (h.1.trans hd.row)).trans (hd.others y hy x)
  · rw [if_neg hrow, if_pos ⟨rfl, by rw [hcol]; exact hrow⟩]
    exact hd

/-! ### What `readline` writes -/

/-- A printable character is no escape character. -/
theorem Printable.ne_esc {ch : Char} (h : Printable ch) : ch ≠ '\x1b' := by
  rintro rfl
  exact absurd h (by decide)

/-- Printable characters write themselves. -/
theorem emits_printable {s : List Char} (hs : ∀ ch ∈ s, Printable ch) :
    Emits s (s.map .writeChar) :=
  emits_chars fun hesc => (hs _ hesc).ne_esc rfl

/-- The characters of a line are printable. -/
theorem Line.printable {s : Line} {ch : Char} (h : ch ∈ Line.chars s) : Printable ch := by
  obtain ⟨ch, -, rfl⟩ := List.mem_map.mp h
  exact ch.property

/-- The length of a line. -/
theorem Line.length_chars (s : Line) : (Line.chars s).length = s.length := List.length_map _

/-- The characters of two lines, one after the other. -/
theorem Line.chars_append (s t : Line) : Line.chars (s ++ t) = Line.chars s ++ Line.chars t :=
  List.map_append

/-- What the editor writes turns the line that it showed before into the one that it shows
after. -/
def Draws (g₀ : Grid w h) (r r' : Readline) (out : List Char) : Prop :=
  ∃ actions, Emits out actions ∧ ∀ g, Displays g₀ (lineText (Line.chars r.s)) r.i g →
    Displays g₀ (lineText (Line.chars r'.s)) r'.i (actions.foldl Grid.vtAct g)

/-- Writing nothing shows the same line. -/
theorem draws_nil (g₀ : Grid w h) {r r' : Readline} (hs : r'.s = r.s) (hi : r'.i = r.i) :
    Draws g₀ r r' [] :=
  ⟨[], emits_nil, fun _ hd => by rw [hs, hi]; exact hd⟩

/-- A line with a character inserted. -/
theorem insertIdx_length_append {α : Type*} (a b : List α) (x : α) :
    (a ++ b).insertIdx a.length x = a ++ x :: b := by
  induction a with
  | nil => rfl
  | cons y a ih => exact congrArg (y :: ·) ih

/-- A line with a character removed. -/
theorem eraseIdx_length_append {α : Type*} (a b : List α) (x : α) :
    (a ++ x :: b).eraseIdx a.length = a ++ b := by
  induction a with
  | nil => rfl
  | cons y a ih => exact congrArg (y :: ·) ih

/-- The cursor moves left by a count that the parser reads. -/
theorem emits_moveCursor {n : ℕ} (hn : n ≤ u32Max) : Emits (moveCursor n 'D') [.cursorLeft n] :=
  emits_cursorLeft hn

/-- The line fits into the row of the terminal, and the parser reads its length as a count. -/
structure FitsRow (g₀ : Grid w h) (s : Line) : Prop where
  row : g₀.col.val + s.length < w
  count : s.length ≤ u32Max

/-- **Inserting** a character. -/
theorem Readline.insert_spec (g₀ : Grid w h) {r : Readline}
    (hi : r.i ≤ r.s.length) (ch : { ch : Char // Printable ch }) :
    ∃ r' out, r.insert ch = .ok (r', out) ∧
      r' = { r with s := r.s.insertIdx r.i ch, i := r.i + 1 } ∧ r'.i ≤ r'.s.length ∧
      (FitsRow g₀ r'.s → Draws g₀ r r' out) := by
  obtain ⟨waiting, historyPos, historyModified, s, i⟩ := r
  obtain ⟨a, b, rfl, rfl⟩ : ∃ a b : Line, s = a ++ b ∧ i = a.length :=
    ⟨s.take i, s.drop i, (List.take_append_drop i s).symm, (List.length_take_of_le hi).symm⟩
  refine ⟨_, _, by rw [Readline.insert, ensure_pos hi]; rfl, rfl, ?_, ?_⟩
  all_goals
    dsimp only
    rw [insertIdx_length_append]
  · rw [List.length_append, List.length_cons]
    omega
  intro hfits
  obtain ⟨hrow, hcount⟩ := hfits
  rw [List.length_append, List.length_cons] at hrow hcount
  rw [List.length_append, List.drop_left]
  have hprint : ∀ c ∈ ch.val :: Line.chars b, Printable c := by
    intro c hc
    rcases List.mem_cons.mp hc with rfl | hc
    · exact ch.property
    · exact Line.printable hc
  have hdraw : ∀ g, Displays g₀ (lineText (Line.chars (a ++ b))) a.length g →
      Displays g₀ (lineText (Line.chars (a ++ ch :: b))) (a.length + 1 + b.length)
        (((ch.val :: Line.chars b).map Action.writeChar).foldl Grid.vtAct g) := by
    intro g hd
    have hd' := hd.print (ch.val :: Line.chars b) hprint
      (by rw [List.length_cons, Line.length_chars]; omega)
    rw [Line.chars_append, ← Line.length_chars a, overwrite_lineText _ _ _ (by simp)] at hd'
    rw [List.length_cons, Line.length_chars, Line.length_chars] at hd'
    rw [Line.chars_append, show a.length + 1 + b.length = a.length + (b.length + 1) by omega]
    exact hd'
  cases b with
  | nil =>
      rw [if_neg (by simp)]
      exact ⟨_, emits_printable hprint, hdraw⟩
  | cons c b =>
      rw [if_pos (by rw [List.length_cons]; omega), Nat.add_sub_cancel_left]
      refine ⟨_, (emits_printable hprint).append (emits_moveCursor (by omega)), fun g hd => ?_⟩
      have hd' := (hdraw g hd).moveLeft (n := (c :: b).length) (by omega)
      rw [Nat.add_sub_cancel] at hd'
      rw [List.foldl_append]
      exact hd'

/-- The cursor moves left by one. -/
theorem emits_left : Emits ['\x1b', '[', 'D'] [.cursorLeft 1] :=
  @emits_csi_nil 'D' rfl (some (.cursorLeft 1)) rfl

/-- The cursor moves right by one. -/
theorem emits_right : Emits ['\x1b', '[', 'C'] [.cursorRight 1] :=
  @emits_csi_nil 'C' rfl (some (.cursorRight 1)) rfl

/-- The line is erased. -/
theorem emits_erase : Emits ['\x1b', '[', 'K'] [.eraseToLineEnd] :=
  @emits_csi_nil 'K' rfl (some .eraseToLineEnd) rfl

/-- **A backspace.** -/
theorem Readline.backspace_spec (g₀ : Grid w h) {r : Readline}
    (hi : r.i ≤ r.s.length) :
    ∃ r' out, r.backspace = .ok (r', out) ∧
      (∃ s' i', r' = { r with s := s', i := i' }) ∧ r'.i ≤ r'.s.length ∧
      (FitsRow g₀ r.s → Draws g₀ r r' out) := by
  obtain ⟨waiting, historyPos, historyModified, s, i⟩ := r
  rcases Nat.eq_zero_or_pos i with rfl | hpos
  · exact ⟨_, [], rfl, ⟨_, _, rfl⟩, hi, fun _ => draws_nil g₀ rfl rfl⟩
  obtain ⟨a, x, b, rfl, rfl⟩ : ∃ (a : Line) (x : _) (b : Line), s = a ++ x :: b ∧
      i = a.length + 1 := by
    have hlt : i - 1 < s.length := by
      dsimp only at hi
      omega
    refine ⟨s.take (i - 1), s[i - 1], s.drop (i - 1 + 1), ?_, ?_⟩
    · rw [← List.drop_eq_getElem_cons hlt, List.take_append_drop]
    · rw [List.length_take]
      omega
  have hlt : a.length < (a ++ x :: b).length := by simp
  have hle : a.length ≤ (a ++ b).length := by simp
  have hstep : Readline.backspace
      ⟨waiting, historyPos, historyModified, a ++ x :: b, a.length + 1⟩ =
      .ok (⟨waiting, historyPos, historyModified, a ++ b, a.length⟩,
        ['\x1b', '[', 'D'] ++ Line.chars b ++ ' ' :: moveCursor (b.length + 1) 'D') := by
    rw [Readline.backspace]
    dsimp only
    rw [if_pos (Nat.succ_ne_zero _), Nat.add_sub_cancel, ensure_pos hlt, ok_bind,
      eraseIdx_length_append, ensure_pos hle, ok_bind, List.drop_left, List.length_append,
      Nat.add_sub_cancel_left]
    rfl
  refine ⟨_, _, hstep, ⟨_, _, rfl⟩, hle, fun hfits => ?_⟩
  obtain ⟨hrow, hcount⟩ := hfits
  dsimp only at hrow hcount
  rw [List.length_append, List.length_cons] at hrow hcount
  have hprint : ∀ c ∈ Line.chars b ++ [' '], Printable c := by
    intro c hc
    rcases List.mem_append.mp hc with hc | hc
    · exact Line.printable hc
    · rw [List.mem_singleton.mp hc]
      decide
  have hemits := (emits_left.append (emits_printable hprint)).append
    (@emits_moveCursor (b.length + 1) (by omega))
  have hout : ['\x1b', '[', 'D'] ++ (Line.chars b ++ [' ']) ++ moveCursor (b.length + 1) 'D' =
      ['\x1b', '[', 'D'] ++ Line.chars b ++ ' ' :: moveCursor (b.length + 1) 'D' := by
    simp
  refine ⟨_, hout ▸ hemits, fun g hd => ?_⟩
  have hleft : Displays g₀ (lineText (Line.chars (a ++ x :: b))) a.length
      (g.vtAct (.cursorLeft 1)) := hd.moveLeft (Nat.le_add_left 1 a.length)
  have hdraw := hleft.print (Line.chars b ++ [' ']) hprint
    (by rw [List.length_append, Line.length_chars, List.length_singleton]; omega)
  rw [Line.chars_append, ← Line.length_chars a,
    overwrite_lineText _ _ _ (by simp [Line.chars]), ← List.append_assoc, lineText_blank,
    ← Line.chars_append, Line.length_chars, List.length_append, List.length_singleton,
    Line.length_chars] at hdraw
  have hback := hdraw.moveLeft (n := b.length + 1) (by omega)
  rw [Nat.add_sub_cancel] at hback
  rw [List.foldl_append, List.foldl_append]
  exact hback

/-- The line at a position of the history. -/
theorem Readline.lineAt_isOk {r : Readline} {history : CommandHistory} {lines : List Line}
    (hlines : history.buf.Represents lines) {pos : ℕ}
    (hpos : pos < lines.length ∨ (r.historyModified pos).isSome = true) :
    ∃ s, r.lineAt history pos = .ok s := by
  rw [Readline.lineAt]
  cases hmod : r.historyModified pos with
  | some s => exact ⟨s, rfl⟩
  | none =>
      have hlt : pos < lines.length := by simpa [hmod] using hpos
      refine ⟨lines[pos], ?_⟩
      dsimp only
      rw [hlines.get pos, List.getElem?_eq_getElem hlt]
      rfl

/-- **A move in the history.** The new line is drawn if the old one is erased, or is not
longer. -/
theorem Readline.moveHistory_spec (g₀ : Grid w h) {r : Readline}
    (hi : r.i ≤ r.s.length) {history : CommandHistory} {pos : ℕ} {s : Line}
    (hlen : r.historyPos < historyModifiedLen) (hpos : pos < historyModifiedLen)
    (hne : pos ≠ r.historyPos) (hs : r.lineAt history pos = .ok s) :
    ∃ r' out, r.moveHistory history pos = .ok (r', out) ∧
      r' = ⟨r.waiting, pos, Function.update
        (Function.update r.historyModified r.historyPos (some r.s)) pos none, s, s.length⟩ ∧
      (FitsRow g₀ r.s → FitsRow g₀ s →
        (1 < h ∨ 0 < g₀.col.val ∨ r.s.length ≤ s.length) → Draws g₀ r r' out) := by
  have hs' : Readline.lineAt { r with
      historyModified := Function.update r.historyModified r.historyPos (some r.s) } history pos =
        .ok s := by
    rw [← hs]
    unfold Readline.lineAt
    dsimp only
    rw [Function.update_of_ne hne]
  refine ⟨_, _, by
    rw [Readline.moveHistory, ensure_pos hlen, ok_bind, ensure_pos hpos, ok_bind, hs', ok_bind]
    rfl, rfl, fun hold hnew hshort => ?_⟩
  have hprint : ∀ c ∈ Line.chars s, Printable c := fun c hc => Line.printable hc
  have hover : ∀ {text : ℕ → Char} {g : Grid w h}, Displays g₀ text 0 g →
      (text = lineText [] ∨ text = lineText (Line.chars r.s) ∧ r.s.length ≤ s.length) →
      Displays g₀ (lineText (Line.chars s)) s.length
        (((Line.chars s).map Action.writeChar).foldl Grid.vtAct g) := by
    intro text g hd htext
    have hd' := hd.print (Line.chars s) hprint (by rw [Line.length_chars]; exact hnew.row)
    have htext' : overwrite text 0 (Line.chars s) = lineText (Line.chars s) := by
      rcases htext with rfl | ⟨rfl, hle⟩
      · exact overwrite_lineText [] [] _ (Nat.zero_le _)
      · exact overwrite_lineText [] (Line.chars r.s) _
          (by rw [Line.length_chars, Line.length_chars]; exact hle)
    rw [htext', Line.length_chars, Nat.zero_add] at hd'
    exact hd'
  by_cases hnil : r.s = []
  · rw [if_neg (fun h => h hnil)]
    refine ⟨_, emits_printable hprint, fun g hd => ?_⟩
    have hzero : r.i = 0 := by
      rw [hnil] at hi
      exact Nat.le_zero.mp hi
    rw [hzero, hnil] at hd
    exact hover hd (.inl rfl)
  · rw [if_pos hnil]
    have hemits := ((emits_moveCursor (Nat.le_trans hi hold.count)).append
      emits_erase).append (emits_printable hprint)
    refine ⟨_, hemits, fun g hd => ?_⟩
    have hleft := hd.moveLeft (Nat.le_refl r.i)
    rw [Nat.sub_self] at hleft
    rw [List.foldl_append, List.foldl_append]
    refine hover hleft.erase ?_
    by_cases hrow : 1 < h ∨ 0 < g₀.col.val
    · exact .inl (if_pos hrow)
    · exact .inr ⟨if_neg hrow, by omega⟩

/-! ### A character -/

/-- What holds of the variables of `readline`, when the history holds the lines. Above the
newest line of the history there is the line that was edited before moving into the history. -/
structure Readline.WellFormed (r : Readline) (lines : List Line) : Prop where
  i_le : r.i ≤ r.s.length
  pos_le : r.historyPos ≤ lines.length
  saved : r.historyPos < lines.length → (r.historyModified lines.length).isSome = true

/-- The variables before the loop. -/
theorem Readline.new_wellFormed {history : CommandHistory} {lines : List Line}
    (hlines : history.buf.Represents lines) : (Readline.new history).WellFormed lines :=
  ⟨Nat.le_refl 0, Nat.le_of_eq hlines.len,
    fun h => absurd (hlines.len ▸ h) (Nat.lt_irrefl _)⟩

/-- A move in the history leaves the variables as they should be. -/
theorem Readline.moveHistory_wellFormed {r : Readline} {lines : List Line}
    (hr : r.WellFormed lines) {pos : ℕ} (hpos : pos ≤ lines.length) (s : Line) :
    Readline.WellFormed ⟨r.waiting, pos, Function.update
      (Function.update r.historyModified r.historyPos (some r.s)) pos none, s, s.length⟩ lines := by
  refine ⟨Nat.le_refl _, hpos, fun hlt => ?_⟩
  dsimp only at hlt ⊢
  rw [Function.update_of_ne (Nat.ne_of_gt hlt)]
  rcases Nat.lt_or_eq_of_le hr.pos_le with hlt' | heq
  · rw [Function.update_of_ne (Nat.ne_of_gt hlt')]
    exact hr.saved hlt'
  · rw [heq, Function.update_self]
    rfl

/-- The position of the history that the end of a control sequence moves to. -/
def Readline.target (r : Readline) (history : CommandHistory) : Option Char → Option ℕ
  | some 'A' => if r.historyPos ≠ 0 then some (r.historyPos - 1) else none
  | some 'B' => if r.historyPos ≠ history.buf.len then some (r.historyPos + 1) else none
  | _ => none

/-- No move in the history that the character makes goes to a shorter line. -/
def Readline.KeepsLength (r : Readline) (history : CommandHistory) (ch : Option Char) : Prop :=
  r.waiting = .csi → ∀ pos s, r.target history ch = some pos → r.lineAt history pos = .ok s →
    r.s.length ≤ s.length

/-- What one character does to the variables of `readline`, and to the screen if the lines fit
and the old line is erased or covered. -/
def Advances (g₀ : Grid w h) (lines : List Line) (covers : Prop) (r r' : Readline)
    (out : List Char) : Prop :=
  r'.WellFormed lines ∧
    (FitsRow g₀ r.s → FitsRow g₀ r'.s →
      (1 < h ∨ 0 < g₀.col.val ∨ covers) → Draws g₀ r r' out)

/-- A move in the history. -/
theorem Readline.moveHistory_advances (g₀ : Grid w h) {r : Readline}
    {history : CommandHistory} {lines : List Line} (hlines : history.buf.Represents lines)
    (hr : r.WellFormed lines) {pos : ℕ} (hpos : pos ≤ lines.length) (hne : pos ≠ r.historyPos) :
    ∃ r' out, r.moveHistory history pos = .ok (r', out) ∧ r'.waiting = r.waiting ∧
      Advances g₀ lines (∀ s, r.lineAt history pos = .ok s → r.s.length ≤ s.length) r r' out := by
  have hle := hlines.le
  have hlen : historyModifiedLen = 65 := rfl
  obtain ⟨s, hs⟩ : ∃ s, r.lineAt history pos = .ok s := by
    refine Readline.lineAt_isOk hlines ?_
    rcases Nat.lt_or_eq_of_le hpos with hlt | rfl
    · exact .inl hlt
    · exact .inr (hr.saved (Nat.lt_of_le_of_ne hr.pos_le (Ne.symm hne)))
  obtain ⟨r', out, heq, rfl, hdraws⟩ := Readline.moveHistory_spec g₀ hr.i_le
    (by have := hr.pos_le; omega) (by omega) hne hs
  refine ⟨_, out, heq, rfl, Readline.moveHistory_wellFormed hr hpos s, fun hold hnew hcovers => ?_⟩
  refine hdraws hold hnew (hcovers.imp_right fun h => h.imp_right fun h => ?_)
  exact h s hs

/-- **The end of a control sequence.** -/
theorem Readline.arrow_advances (g₀ : Grid w h) {r : Readline}
    {history : CommandHistory} {lines : List Line} (hlines : history.buf.Represents lines)
    (hr : r.WellFormed lines) (ch : Option Char) :
    ∃ r' out, r.arrow history ch = .ok (r', out) ∧
      Advances g₀ lines (∀ pos s, r.target history ch = some pos →
        r.lineAt history pos = .ok s → r.s.length ≤ s.length) r r' out := by
  have hi := hr.i_le
  unfold Readline.arrow
  split
  · -- up
    split
    · rename_i hpos
      obtain ⟨r', out, heq, -, hwf, hdraws⟩ := Readline.moveHistory_advances g₀ hlines hr
        (Nat.le_trans (Nat.sub_le _ 1) hr.pos_le) (by omega)
      refine ⟨r', out, heq, hwf, fun hold hnew hcovers => hdraws hold hnew
        (hcovers.imp_right fun h => h.imp_right fun h s hs => h _ s ?_ hs)⟩
      exact if_pos hpos
    · exact ⟨r, [], rfl, hr, fun _ _ _ => draws_nil g₀ rfl rfl⟩
  · -- down
    split
    · rename_i hpos
      have hlt : r.historyPos < lines.length :=
        Nat.lt_of_le_of_ne hr.pos_le (hlines.len ▸ hpos)
      obtain ⟨r', out, heq, -, hwf, hdraws⟩ := Readline.moveHistory_advances g₀ hlines hr hlt
        (Nat.succ_ne_self _)
      refine ⟨r', out, heq, hwf, fun hold hnew hcovers => hdraws hold hnew
        (hcovers.imp_right fun h => h.imp_right fun h s hs => h _ s ?_ hs)⟩
      exact if_pos hpos
    · exact ⟨r, [], rfl, hr, fun _ _ _ => draws_nil g₀ rfl rfl⟩
  · -- right
    split
    · rename_i hne
      refine ⟨_, _, rfl, ⟨by dsimp only; omega, hr.pos_le, hr.saved⟩, fun hold _ _ =>
        ⟨_, emits_right, fun g hd => hd.moveRight (by have := hold.row; omega)⟩⟩
    · exact ⟨r, [], rfl, hr, fun _ _ _ => draws_nil g₀ rfl rfl⟩
  · -- left
    split
    · rename_i hne
      refine ⟨_, _, rfl, ⟨by dsimp only; omega, hr.pos_le, hr.saved⟩, fun _ _ _ =>
        ⟨_, emits_left, fun g hd => hd.moveLeft (by omega)⟩⟩
    · exact ⟨r, [], rfl, hr, fun _ _ _ => draws_nil g₀ rfl rfl⟩
  · exact ⟨r, [], rfl, hr, fun _ _ _ => draws_nil g₀ rfl rfl⟩

/-- The history takes a line. -/
theorem CommandHistory.push_isOk {history : CommandHistory} {lines : List Line}
    (hlines : history.buf.Represents lines) (s : Line) :
    ∃ history' lines', history.push s = .ok history' ∧ history'.buf.Represents lines' := by
  obtain ⟨room, lines', hroom, hlines', hlt⟩ : ∃ room lines',
      history.makeRoom = .ok room ∧ room.buf.Represents lines' ∧ lines'.length < 64 := by
    rw [CommandHistory.makeRoom]
    split
    · rename_i hfull
      rw [hlines.len] at hfull
      cases lines with
      | nil => exact absurd hfull (by decide)
      | cons line lines =>
          obtain ⟨buf, hpop, hbuf⟩ := hlines.popFront_cons
          refine ⟨⟨buf⟩, lines, ?_, hbuf, by rw [List.length_cons] at hfull; omega⟩
          rw [hpop]
          rfl
    · rename_i hfull
      have hle := hlines.le
      rw [hlines.len] at hfull
      exact ⟨history, lines, rfl, hlines, by omega⟩
  obtain ⟨buf, hpush, hbuf⟩ := hlines'.pushBack hlt s
  refine ⟨⟨buf⟩, _, ?_, hbuf⟩
  rw [CommandHistory.push, hroom, ok_bind, hpush]
  rfl

/-- **A character** that `readline` reads. -/
theorem Readline.next_spec (g₀ : Grid w h) {r : Readline}
    {history : CommandHistory} {lines : List Line} (hlines : history.buf.Represents lines)
    (hr : r.WellFormed lines) (ch : Option Char) :
    ∃ outcome history' out, r.next history ch = .ok (outcome, history', out) ∧
      ((∃ r', outcome = .running r' ∧ history' = history ∧
          Advances g₀ lines (r.KeepsLength history ch) r r' out) ∨
        ((∀ r', outcome ≠ .running r') ∧ ∃ lines', history'.buf.Represents lines')) := by
  unfold Readline.next
  split
  · exact ⟨_, _, _, rfl, .inl ⟨_, rfl, rfl, ⟨hr.i_le, hr.pos_le, hr.saved⟩, fun _ _ _ =>
      draws_nil g₀ rfl rfl⟩⟩
  · rename_i hcsi
    have hr' : Readline.WellFormed { r with waiting := .key } lines :=
      ⟨hr.i_le, hr.pos_le, hr.saved⟩
    obtain ⟨r', out, heq, hwf, hdraws⟩ := Readline.arrow_advances g₀ hlines hr' ch
    refine ⟨_, _, _, by rw [heq]; rfl, .inl ⟨r', rfl, rfl, hwf, fun hold hnew hcovers => ?_⟩⟩
    exact hdraws hold hnew (hcovers.imp_right fun h => h.imp_right fun h => h hcsi)
  · split
    · exact ⟨_, _, _, rfl, .inr ⟨fun r' h => (nomatch h), lines, hlines⟩⟩
    rename_i hkey _ ch
    split
    · obtain ⟨history', lines', hpush, hlines'⟩ := CommandHistory.push_isOk hlines r.s
      exact ⟨.ok r.s, history', _, by rw [hpush]; rfl,
        .inr ⟨fun r' h => (nomatch h), lines', hlines'⟩⟩
    split
    · obtain ⟨r', out, heq, ⟨s', i', rfl⟩, hi, hdraws⟩ := Readline.backspace_spec g₀ hr.i_le
      exact ⟨_, _, _, by rw [heq]; rfl, .inl ⟨_, rfl, rfl, ⟨hi, hr.pos_le, hr.saved⟩,
        fun hold _ _ => hdraws hold⟩⟩
    split
    · exact ⟨_, _, _, rfl, .inl ⟨_, rfl, rfl, ⟨hr.i_le, hr.pos_le, hr.saved⟩, fun _ _ _ =>
        draws_nil g₀ rfl rfl⟩⟩
    split
    · exact ⟨_, _, _, rfl, .inl ⟨r, rfl, rfl, hr, fun _ _ _ => draws_nil g₀ rfl rfl⟩⟩
    rename_i hdel _ hctl
    split
    · rename_i hlen
      obtain ⟨r', out, heq, rfl, hi, hdraws⟩ := Readline.insert_spec g₀ hr.i_le
        ⟨ch, Char.not_le.mp hctl, hdel, hlen⟩
      exact ⟨_, _, _, by rw [heq]; rfl, .inl ⟨_, rfl, rfl, ⟨hi, hr.pos_le, hr.saved⟩,
        fun _ hnew _ => hdraws hnew⟩⟩
    · exact ⟨_, _, _, rfl, .inl ⟨r, rfl, rfl, hr, fun _ _ _ => draws_nil g₀ rfl rfl⟩⟩

/-! ### Runs -/

/-- What holds in every state of a run. -/
structure Session.Inv (g₀ : Grid w h) (t : Session) : Prop where
  history : ∃ lines, t.history.buf.Represents lines ∧
    ∀ r, t.outcome = .running r → r.WellFormed lines
  shown : ∃ g : Grid w h, Shows t.vt g ∧ t.vt.ansi.state.InRange ∧
    ∀ r, t.outcome = .running r → t.vt.ansi.state = .normal ∧ FitsRow g₀ r.s ∧
      Displays g₀ (lineText (Line.chars r.s)) r.i g

/-- A line that is edited fits into the row of the terminal. -/
def Session.Fits (g₀ : Grid w h) (t : Session) : Prop :=
  ∀ r, t.outcome = .running r → g₀.col.val + r.s.length < w

/-- The length of a line that is edited is a `u32`. -/
def Session.FitsCount (t : Session) : Prop :=
  ∀ r, t.outcome = .running r → r.s.length ≤ u32Max

/-- The character makes no move in the history to a shorter line. -/
def Session.KeepsLength (t : Session) (ch : Option Char) : Prop :=
  ∀ r, t.outcome = .running r → r.KeepsLength t.history ch

/-- A step that leads to a line that fits, of a length that the parser reads. On a terminal of one
row, when the line begins in the first column, the step makes no move in the history to a
shorter line. -/
structure Step (g₀ : Grid w h) (t : Session) (ch : Option Char) (u : Session) : Prop where
  next : t.next ch = .ok u
  fits : u.Fits g₀
  count : u.FitsCount
  covers : 1 < h ∨ 0 < g₀.col.val ∨ t.KeepsLength ch

/-- Writing a string does not panic. -/
theorem writeStr_isOk {vt : VirtualTerminalInternals} {g : Grid w h} (hs : Shows vt g)
    (hp : vt.ansi.state.InRange) (out : List Char) :
    ∃ vt', writeStr vt out = .ok vt' ∧ vt'.ansi.state.InRange ∧ ∃ g' : Grid w h, Shows vt' g' := by
  obtain ⟨vt', hwrite, hp', hs'⟩ := hs.write (asBytes out) hp
  exact ⟨vt', by rw [writeStr, hwrite], hp', hs'⟩

/-- No character panics. -/
theorem Session.Inv.next_isOk {g₀ : Grid w h} {t : Session} (ht : t.Inv g₀)
    (ch : Option Char) : ∃ u, t.next ch = .ok u := by
  obtain ⟨outcome, history, vt⟩ := t
  obtain ⟨⟨lines, hlines, hr⟩, g, hs, hp, -⟩ := ht
  cases outcome with
  | running r =>
      obtain ⟨outcome, history', out, heq, -⟩ := Readline.next_spec g₀ hlines (hr r rfl) ch
      obtain ⟨vt', hwrite, -⟩ := writeStr_isOk hs hp out
      refine ⟨⟨outcome, history', vt'⟩, ?_⟩
      rw [Session.next]
      dsimp only
      rw [heq, ok_bind]
      dsimp only
      rw [hwrite]
      rfl
  | ok s => exact ⟨_, rfl⟩
  | err s => exact ⟨_, rfl⟩

/-- **A step** keeps what is shown. -/
theorem Session.Inv.step {g₀ : Grid w h} {t u : Session} {ch : Option Char}
    (ht : t.Inv g₀) (hstep : Step g₀ t ch u) : u.Inv g₀ := by
  obtain ⟨outcome, history, vt⟩ := t
  obtain ⟨⟨lines, hlines, hr⟩, g, hs, hp, hshown⟩ := ht
  obtain ⟨hnext, hrow, hcount, hcovers⟩ := hstep
  cases outcome with
  | ok s =>
      obtain rfl := Except.ok.inj hnext
      exact ⟨⟨lines, hlines, hr⟩, g, hs, hp, hshown⟩
  | err s =>
      obtain rfl := Except.ok.inj hnext
      exact ⟨⟨lines, hlines, hr⟩, g, hs, hp, hshown⟩
  | running r =>
      obtain ⟨hnormal, hfit, hd⟩ := hshown r rfl
      obtain ⟨outcome, history', out, heq, hcase⟩ :=
        Readline.next_spec g₀ hlines (hr r rfl) ch
      rw [Session.next] at hnext
      dsimp only at hnext
      rw [heq, ok_bind] at hnext
      obtain ⟨vt', hwrite, hnext⟩ := bind_eq_ok.mp hnext
      obtain rfl := Except.ok.inj hnext
      rcases hcase with ⟨r', rfl, rfl, hwf, hdraws⟩ | ⟨hdone, lines', hlines'⟩
      · have hfit' : FitsRow g₀ r'.s := ⟨hrow r' rfl, hcount r' rfl⟩
        obtain ⟨actions, hemits, hdisplays⟩ := hdraws hfit hfit'
          (hcovers.imp_right fun h => h.imp_right fun h => h r rfl)
        obtain ⟨vt'', hwrite', hnormal', hs'⟩ := hs.write_emits hnormal hemits
        rw [writeStr, hwrite'] at hwrite
        obtain rfl := Except.ok.inj hwrite
        refine ⟨⟨lines, hlines, ?_⟩, _, hs', by rw [hnormal']; exact trivial, ?_⟩
        · rintro _ ⟨⟩
          exact hwf
        · rintro _ ⟨⟩
          exact ⟨hnormal', hfit', hdisplays g hd⟩
      · obtain ⟨vt'', hwrite', hp', g', hs'⟩ := writeStr_isOk hs hp out
        obtain rfl := Except.ok.inj (hwrite'.symm.trans hwrite)
        exact ⟨⟨lines', hlines', fun r h => absurd h (hdone r)⟩, g', hs', hp',
          fun r h => absurd h (hdone r)⟩

/-- **The line on the screen is the line that is edited.** `readline` is called on a terminal
that shows a grid, between escape sequences, with blanks from the cursor to the end of its row.
No character panics, and while `readline` runs, the row shows the line that it edits, with the
cursor at the position where it inserts, and everything else is as it was before. -/
theorem readline_displays {w h : ℕ} {vt₀ : VirtualTerminalInternals} {g₀ : Grid w h}
    {history : CommandHistory} {lines : List Line} {chars : List (Option Char)} {t : Session}
    (hshows : Shows vt₀ g₀) (hnormal : vt₀.ansi.state = .normal)
    (hblank : ∀ x : Fin w, g₀.col ≤ x → (g₀.cells g₀.row x).ch = ' ')
    (hlines : history.buf.Represents lines)
    (hruns : Runs (Step g₀) (.start history vt₀) chars t) :
    (∀ ch, ∃ u, t.next ch = .ok u) ∧
      ∀ r, t.outcome = .running r →
        ∃ g : Grid w h, Shows t.vt g ∧ Displays g₀ (lineText (Line.chars r.s)) r.i g := by
  have hstart : (Session.start history vt₀).Inv g₀ := by
    refine ⟨⟨lines, hlines, ?_⟩, g₀, hshows, by
      rw [Session.start, hnormal]; exact trivial, ?_⟩
    · rintro _ ⟨⟩
      exact Readline.new_wellFormed hlines
    · rintro _ ⟨⟩
      exact ⟨hnormal, ⟨g₀.col.isLt, Nat.zero_le _⟩, rfl, rfl, fun x hx => hblank x hx,
        fun _ _ => rfl, fun _ _ _ => rfl⟩
  have hinv : t.Inv g₀ := hruns.invariant hstart fun t ch u ht hstep => ht.step hstep
  refine ⟨hinv.next_isOk, fun r hr => ?_⟩
  obtain ⟨g, hs, -, hd⟩ := hinv.shown
  exact ⟨g, hs, (hd r hr).2.2⟩

/-- A new terminal, for the examples. -/
def blankTerminal (w h : ℕ) : VirtualTerminalInternals :=
  ⟨List.replicate (w * h) ⟨' ', .white, .black⟩, 0, (w, h), .new, (0, 0), .white, .black⟩

/-- The grid that a new terminal shows. -/
def blankGrid (hw : 0 < w) (hh : 0 < h) : Grid w h :=
  ⟨fun _ _ => ⟨' ', .white, .black⟩, ⟨0, hw⟩, ⟨0, hh⟩, .white, .black⟩

/-- A new terminal shows a blank grid. -/
theorem blankTerminal_shows (hw : 0 < w) (hh : 0 < h) (hwh : w * h < 2 ^ 64) :
    Shows (blankTerminal w h) (blankGrid hw hh) := by
  obtain ⟨vt, hnew, -, hs⟩ := new_shows hw hh hwh
  rw [VirtualTerminalInternals.new, ensure_pos ⟨hw, hh, hwh⟩, ok_bind] at hnew
  obtain rfl := Except.ok.inj hnew
  exact hs

/-- Characters are read, one after another. -/
def Session.run (t : Session) (chars : List (Option Char)) : Except Panic Session :=
  chars.foldlM Session.next t

/-- A history of one line. -/
def oneLine : CommandHistory :=
  ⟨⟨0, 1, Function.update (fun _ => none) 0 (some [⟨'x', by decide⟩])⟩⟩

/-- The line is in the history. -/
theorem oneLine_represents : oneLine.buf.Represents [[⟨'x', by decide⟩]] := by
  obtain ⟨buf, hpush, hbuf⟩ := (@ArrayDeque.represents_new Line 64).pushBack
    (by decide) [⟨'x', by decide⟩]
  have heq : oneLine.buf = buf := congrArg Prod.snd (Except.ok.inj hpush)
  exact heq ▸ hbuf

/-- A test of the line and the terminal after a run, and what it says of other outcomes. -/
def testRunning (test : Readline → VirtualTerminalInternals → Bool) (other : Bool) :
    Except Panic Session → Bool
  | .ok ⟨.running r, _, vt⟩ => test r vt
  | _ => other

/-- What holds of an editor that runs can be tested. -/
instance decidableRunning (outcome : Outcome) (p : Readline → Prop) [DecidablePred p] :
    Decidable (∀ r, outcome = .running r → p r) :=
  match outcome with
  | .running r => decidable_of_iff (p r) ⟨fun h _ hr => Outcome.running.inj hr ▸ h,
      fun h => h r rfl⟩
  | .ok _ => isTrue fun _ h => Outcome.noConfusion h
  | .err _ => isTrue fun _ h => Outcome.noConfusion h

instance (g₀ : Grid w h) (t : Session) : Decidable (t.Fits g₀) :=
  inferInstanceAs (Decidable (∀ r, t.outcome = .running r → g₀.col.val + r.s.length < w))

instance (t : Session) : Decidable t.FitsCount :=
  inferInstanceAs (Decidable (∀ r, t.outcome = .running r → r.s.length ≤ u32Max))

/-- No character panics, and every line fits. -/
def Session.fitsAlong (g₀ : Grid w h) (t : Session) : List (Option Char) → Bool
  | [] => true
  | ch :: chars =>
      match t.next ch with
      | .ok u => decide (u.Fits g₀ ∧ u.FitsCount) && u.fitsAlong g₀ chars
      | .error _ => false

/-- On a terminal of several rows, such characters make a run. -/
theorem runs_of_fitsAlong {g₀ : Grid w h} (hh : 1 < h) {chars : List (Option Char)}
    {t u : Session} (hfits : t.fitsAlong g₀ chars = true) (hrun : t.run chars = .ok u) :
    Runs (Step g₀) t chars u := by
  induction chars generalizing t with
  | nil =>
      obtain rfl := Except.ok.inj hrun
      exact .refl
  | cons ch chars ih =>
      obtain ⟨v, hnext, hrun⟩ := bind_eq_ok.mp hrun
      rw [Session.fitsAlong, hnext] at hfits
      obtain ⟨hv, hfits⟩ := Bool.and_eq_true_iff.mp hfits
      obtain ⟨hrow, hcount⟩ := of_decide_eq_true hv
      exact .cons ⟨hnext, hrow, hcount, .inl hh⟩ (ih hfits hrun)

/-- The characters `ab`, a backspace, a move to the left, the character `c`, and a move up in the
history. -/
def editAndMoveUp : List (Option Char) :=
  [some 'a', some 'b', some '\x7f', some '\x1b', some '[', some 'D', some 'c',
    some '\x1b', some '[', some 'A']

/-- The theorem on a terminal of two rows: after the changes to the line, the row shows the line of
the history. -/
theorem readline_displays_edited :
    ∃ t r, (Session.start oneLine (blankTerminal 4 2)).run editAndMoveUp = .ok t ∧
      t.outcome = .running r ∧ Line.chars r.s = ['x'] ∧
      ∃ g : Grid 4 2, Shows t.vt g ∧ g.col.val = 1 ∧ (g.cells 0 0).ch = 'x' ∧
        (g.cells 0 1).ch = ' ' := by
  have hline : testRunning (fun r _ => decide (Line.chars r.s = ['x'] ∧ r.i = 1)) false
      ((Session.start oneLine (blankTerminal 4 2)).run editAndMoveUp) = true := by
    decide +kernel
  have hshows := blankTerminal_shows (w := 4) (h := 2) (by decide) (by decide) (by decide)
  cases hrun : (Session.start oneLine (blankTerminal 4 2)).run editAndMoveUp with
  | error why =>
      rw [hrun] at hline
      exact Bool.noConfusion hline
  | ok t =>
      have hfits : (Session.start oneLine (blankTerminal 4 2)).fitsAlong
          (blankGrid (w := 4) (h := 2) (by decide) (by decide)) editAndMoveUp = true := by
        decide +kernel
      have hruns := runs_of_fitsAlong (by decide) hfits hrun
      have hdisplays := readline_displays hshows rfl (fun _ _ => rfl) oneLine_represents hruns
      rw [hrun] at hline
      obtain ⟨outcome, history, vt⟩ := t
      cases outcome with
      | ok s => exact Bool.noConfusion hline
      | err s => exact Bool.noConfusion hline
      | running r =>
          obtain ⟨hs, hi⟩ := of_decide_eq_true hline
          obtain ⟨g, hg, hd⟩ := hdisplays.2 r rfl
          rw [hs, hi] at hd
          exact ⟨_, r, rfl, rfl, hs, g, hg, hd.col, hd.text 0 (Nat.zero_le _),
            hd.text 1 (Nat.zero_le _)⟩

/-- The characters `abc`, and the key that moves up in the history. -/
def typeAndMoveUp : List (Option Char) :=
  [some 'a', some 'b', some 'c', some '\x1b', some '[', some 'A']

/-- **On a terminal of one row a longer line is not erased.** After `abc` and a move to the line
`x` of the history, the row shows `xbc`. -/
theorem readline_leaves_line :
    ¬ ∀ (w h : ℕ) (vt₀ : VirtualTerminalInternals) (g₀ : Grid w h) (history : CommandHistory)
      (lines : List Line), Shows vt₀ g₀ → vt₀.ansi.state = .normal →
      (∀ x : Fin w, g₀.col ≤ x → (g₀.cells g₀.row x).ch = ' ') → history.buf.Represents lines →
      ∀ chars, (∀ n t, (Session.start history vt₀).run (chars.take n) = .ok t → t.Fits g₀) →
        ∃ t, (Session.start history vt₀).run chars = .ok t ∧
          ∀ r, t.outcome = .running r → ∃ g : Grid w h, Shows t.vt g ∧
            Displays g₀ (lineText (Line.chars r.s)) r.i g := by
  intro hclaim
  obtain ⟨t, hrun, hdisplays⟩ := hclaim 4 1 (blankTerminal 4 1)
    (blankGrid (by decide) (by decide)) oneLine _
    (blankTerminal_shows (by decide) (by decide) (by decide)) rfl (fun _ _ => rfl)
    oneLine_represents typeAndMoveUp (by
      have hcheck : ∀ n < 7, testRunning (fun r _ => decide (r.s.length < 4)) true
          ((Session.start oneLine (blankTerminal 4 1)).run (typeAndMoveUp.take n)) = true := by
        decide +kernel
      intro n t hrun r hr
      have htake : typeAndMoveUp.take n = typeAndMoveUp.take (min n 6) := by
        rcases Nat.le_total n 6 with hle | hle
        · rw [Nat.min_eq_left hle]
        · rw [Nat.min_eq_right hle]
          exact List.take_of_length_le hle
      have hn := hcheck (min n 6) (by omega)
      obtain ⟨outcome, history, vt⟩ := t
      obtain rfl : outcome = .running r := hr
      rw [← htake, hrun] at hn
      change 0 + r.s.length < 4
      rw [Nat.zero_add]
      exact of_decide_eq_true hn)
  have hcheck : testRunning (fun r vt => decide (Line.chars r.s = ['x'] ∧ vt.bufLine = 0 ∧
      vt.size = (4, 1) ∧ (vt.buf[1]?.map VTChar.ch) = some 'b')) false
      ((Session.start oneLine (blankTerminal 4 1)).run typeAndMoveUp) = true := by
    decide +kernel
  rw [hrun] at hcheck
  obtain ⟨outcome, history, vt⟩ := t
  cases outcome with
  | ok s => exact absurd hcheck Bool.false_ne_true
  | err s => exact absurd hcheck Bool.false_ne_true
  | running r =>
      obtain ⟨hs, hline, hsize, hcell⟩ := of_decide_eq_true hcheck
      obtain ⟨g, hshows, hd⟩ := hdisplays r rfl
      have htext := hd.text 1 (Nat.zero_le _)
      rw [hs] at htext
      have hbuf := hshows.cells 0 1
      rw [VirtualTerminalInternals.off] at hbuf
      dsimp only at hbuf
      rw [hline, hsize] at hbuf
      have hb : (g.cells 0 1).ch = 'b' := by
        have := congrArg (Option.map VTChar.ch) hbuf
        exact Option.some.inj (this.symm.trans hcell)
      exact absurd (htext.symm.trans hb) (by decide)

end HydroxKernel.Cmd
