import HydroxKernel.Io.AnsiText
import HydroxKernel.Io.Vt
import HydroxKernel.Lib.RowMajor

/-!
# The Virtual Terminal Refines a Grid

What a terminal is for is a grid of cells with a cursor. `Grid` is that grid, without a ring
buffer, and `Shows` says that the buffer of a terminal holds a grid. Every action of the
terminal does to the grid what the grid's own action does. The exception is erasing to the end
of the line on a terminal of one row with the cursor in its first column, where the range to
clear is taken to be empty.

## Main results

* `Shows.act`: an action of the terminal is the action of the grid.
* `vt_refines_grid`: writing any bytes to a new terminal does not panic, and in every state
  that it reaches the next byte does to the grid what it should.
-/

namespace HydroxKernel.Vt

open HydroxKernel.Ansi

variable {w h : ℕ}

/-! ### The grid -/

/-- A grid of `w` columns and `h` rows, with its cursor and colors. -/
structure Grid (w h : ℕ) where
  cells : Fin h → Fin w → VTChar
  col : Fin w
  row : Fin h
  fgColor : AnsiColor
  bgColor : AnsiColor

namespace Grid

/-- A blank cell, in the current colors. -/
def blank (g : Grid w h) : VTChar := ⟨' ', g.fgColor, g.bgColor⟩

/-- The first column. -/
def firstCol (g : Grid w h) : Fin w := ⟨0, Nat.lt_of_le_of_lt (Nat.zero_le _) g.col.isLt⟩

/-- The cursor moves to the beginning of the next row. In the last row, the rows move up by
one and the last row is blank. -/
def newLine (g : Grid w h) : Grid w h :=
  if hrow : g.row.val + 1 < h then { g with col := g.firstCol, row := ⟨g.row.val + 1, hrow⟩ }
  else
    { g with
      cells := fun y x => if hy : y.val + 1 < h then g.cells ⟨y.val + 1, hy⟩ x else g.blank
      col := g.firstCol }

/-- The cell under the cursor is replaced. -/
def setCell (g : Grid w h) (c : VTChar) : Grid w h :=
  { g with cells := fun y x => if y = g.row ∧ x = g.col then c else g.cells y x }

/-- The cursor advances, with a wrap to the next row. -/
def advance (g : Grid w h) : Grid w h :=
  if hcol : g.col.val + 1 < w then { g with col := ⟨g.col.val + 1, hcol⟩ } else g.newLine

/-- The cursor moves back, with a wrap to the row before. -/
def backspace (g : Grid w h) : Grid w h :=
  if 0 < g.col.val then { g with col := ⟨g.col.val - 1, by omega⟩ }
  else if 0 < g.row.val then
    { g with col := ⟨w - 1, Nat.sub_one_lt_of_lt g.col.isLt⟩, row := ⟨g.row.val - 1, by omega⟩ }
  else g

/-- A character is written. Control characters other than newline and backspace do nothing. -/
def writeChar (g : Grid w h) (ch : Char) : Grid w h :=
  if ch = '\n' then g.newLine
  else if ch = '\x08' then g.backspace
  else if ch ≤ '\x1f' ∨ ch = '\x7f' then g
  else (g.setCell ⟨ch, g.fgColor, g.bgColor⟩).advance

/-- A color is changed. -/
def applySgr (g : Grid w h) : SgrAction → Grid w h
  | .reset => { g with fgColor := .white, bgColor := .black }
  | .setFgColor color => { g with fgColor := color }
  | .setBgColor color => { g with bgColor := color }

/-- The cells from the cursor to the end of the row are blanked. -/
def eraseToLineEnd (g : Grid w h) : Grid w h :=
  { g with cells := fun y x => if y = g.row ∧ g.col ≤ x then g.blank else g.cells y x }

/-- A cursor that moves back stays in the grid. -/
theorem back_lt {k : ℕ} (i : Fin k) (n : ℕ) : i.val - n < k := by
  omega

/-- A cursor that moves on to the last place at most stays in the grid. -/
theorem forth_lt {k : ℕ} (i : Fin k) (n : ℕ) : min (i.val + n) (k - 1) < k := by
  omega

/-- What an action does to a grid. -/
def act (g : Grid w h) : Action → Grid w h
  | .writeChar ch => g.writeChar ch
  | .cursorUp n => { g with row := ⟨g.row.val - n, back_lt g.row n⟩ }
  | .cursorDown n => { g with row := ⟨min (g.row.val + n) (h - 1), forth_lt g.row n⟩ }
  | .cursorRight n => { g with col := ⟨min (g.col.val + n) (w - 1), forth_lt g.col n⟩ }
  | .cursorLeft n => { g with col := ⟨g.col.val - n, back_lt g.col n⟩ }
  | .eraseToLineEnd => g.eraseToLineEnd
  | .sgr actions => actions.foldl applySgr g

end Grid

/-! ### The buffer of a terminal -/

/-- The terminal holds the cells and the colors of the grid. -/
structure Holds (vt : VirtualTerminalInternals) (g : Grid w h) : Prop where
  size : vt.size = (w, h)
  line : vt.bufLine < h
  length : vt.buf.length = w * h
  fgColor : vt.fgColor = g.fgColor
  bgColor : vt.bgColor = g.bgColor
  cells : ∀ (y : Fin h) (x : Fin w), vt.buf[vt.off x y]? = some (g.cells y x)

/-- The terminal shows the grid: it holds it, and has the same cursor. -/
structure Shows (vt : VirtualTerminalInternals) (g : Grid w h) : Prop extends Holds vt g where
  cursor : vt.cursorPos = (g.col.val, g.row.val)

/-- The row of the buffer that holds a row of the screen, when the row `line` of the buffer is
at the top. -/
def bufRow (h line y : ℕ) : ℕ := if h ≤ y + line then y + line - h else y + line

/-- Rows of the screen lie in the buffer. -/
theorem bufRow_lt {line y : ℕ} (hline : line < h) (hy : y < h) : bufRow h line y < h := by
  rw [bufRow]
  split <;> omega

/-- Rows of the screen lie in different rows of the buffer. -/
theorem bufRow_inj {line y y' : ℕ} (hy : y < h) (hy' : y' < h) :
    bufRow h line y = bufRow h line y' ↔ y = y' := by
  unfold bufRow
  split <;> split <;> omega

/-- The offset of a cell, by the row of the buffer. -/
theorem off_eq {vt : VirtualTerminalInternals} (hsize : vt.size = (w, h)) (x y : ℕ) :
    vt.off x y = bufRow h vt.bufLine y * w + x := by
  rw [VirtualTerminalInternals.off, hsize, bufRow]

/-- The offset of a cell is in the buffer. -/
theorem Holds.off_lt {vt : VirtualTerminalInternals} {g : Grid w h} (hs : Holds vt g) (y : Fin h)
    (x : Fin w) : vt.off x y < vt.buf.length := by
  rw [off_eq hs.size, hs.length, Nat.mul_comm w]
  exact mul_add_lt x.isLt (bufRow_lt hs.line y.isLt)

/-- Different cells have different offsets. -/
theorem Holds.off_inj {vt : VirtualTerminalInternals} {g : Grid w h} (hs : Holds vt g)
    {y y' : Fin h} {x x' : Fin w} : vt.off x y = vt.off x' y' ↔ y = y' ∧ x = x' := by
  rw [off_eq hs.size, off_eq hs.size, mul_add_inj x.isLt x'.isLt, bufRow_inj y.isLt y'.isLt,
    Fin.ext_iff, Fin.ext_iff]

/-! ### Clearing -/

/-- A loop that writes cells of the buffer. -/
theorem setCells_spec (vt : VirtualTerminalInternals) (c : VTChar) {i n : ℕ}
    (hle : i + n ≤ vt.buf.length) :
    ∃ buf, vt.setCells c i n = .ok { vt with buf := buf } ∧ buf.length = vt.buf.length ∧
      ∀ j, buf[j]? = if i ≤ j ∧ j < i + n then some c else vt.buf[j]? := by
  induction n generalizing vt i with
  | zero =>
      refine ⟨vt.buf, rfl, rfl, fun j => ?_⟩
      rw [if_neg (by omega)]
  | succ n ih =>
      have hi : i < vt.buf.length := by omega
      obtain ⟨buf, heq, hlen, hbuf⟩ := ih { vt with buf := vt.buf.set i c } (i := i + 1)
        (by rw [List.length_set]; omega)
      rw [List.length_set] at hlen
      refine ⟨buf, ?_, hlen, fun j => ?_⟩
      · rw [VirtualTerminalInternals.setCells, VirtualTerminalInternals.setCell, ensure_pos hi]
        exact heq
      · rw [hbuf j, List.getElem?_set]
        by_cases hj : i = j
        · subst hj
          simp [hi]
        · rw [if_neg hj]
          by_cases hin : i + 1 ≤ j ∧ j < i + 1 + n
          · rw [if_pos hin, if_pos (by omega)]
          · rw [if_neg hin, if_neg (by omega)]

/-- The cells that `clear_range` clears. -/
def Cleared (vt : VirtualTerminalInternals) (start stop j : ℕ) : Prop :=
  (start ≤ stop ∧ start ≤ j ∧ j < stop) ∨
    (stop < start ∧ ((start ≤ j ∧ j < vt.bufEnd) ∨ j < stop))

instance (vt : VirtualTerminalInternals) (start stop j : ℕ) : Decidable (Cleared vt start stop j) :=
  inferInstanceAs (Decidable (_ ∨ _))

/-- **Clearing a range** writes blanks to its cells. -/
theorem clearRange_spec {vt : VirtualTerminalInternals} {start stop : ℕ}
    (hlen : vt.bufEnd = vt.buf.length) (hstart : start ≤ vt.buf.length)
    (hstop : stop ≤ vt.buf.length) :
    ∃ buf, vt.clearRange start stop = .ok { vt with buf := buf } ∧
      buf.length = vt.buf.length ∧
      ∀ j, buf[j]? = if Cleared vt start stop j then some vt.clearChar else vt.buf[j]? := by
  unfold VirtualTerminalInternals.clearRange
  dsimp only
  rw [ensure_pos hstart, ok_bind, ensure_pos hstop, ok_bind]
  by_cases hle : start ≤ stop
  · obtain ⟨buf, heq, hlen', hbuf⟩ := setCells_spec vt vt.clearChar (i := start) (n := stop - start)
      (by omega)
    refine ⟨buf, by rw [if_pos hle, heq], hlen', fun j => ?_⟩
    have hiff : Cleared vt start stop j ↔ start ≤ j ∧ j < start + (stop - start) := by
      rw [Cleared]
      omega
    rw [hbuf j]
    simp only [hiff]
  · obtain ⟨buf, heq, hlen', hbuf⟩ := setCells_spec vt vt.clearChar (i := start)
      (n := vt.bufEnd - start) (by omega)
    obtain ⟨buf', heq', hlen'', hbuf'⟩ := setCells_spec { vt with buf := buf } vt.clearChar (i := 0)
      (n := stop) (by simpa [hlen'] using hstop)
    refine ⟨buf', ?_, hlen''.trans hlen', fun j => ?_⟩
    · rw [if_neg hle, heq]
      exact heq'
    · rw [hbuf' j]
      by_cases hfirst : 0 ≤ j ∧ j < 0 + stop
      · rw [if_pos hfirst, if_pos (by unfold Cleared; omega)]
      · rw [if_neg hfirst]
        change buf[j]? = _
        rw [hbuf j]
        have hiff : Cleared vt start stop j ↔ start ≤ j ∧ j < start + (vt.bufEnd - start) := by
          rw [Cleared]
          omega
        simp only [hiff]

/-! ### The actions -/

/-- What `clear_range` clears from a cell to the beginning of the next row is the rest of the
row, unless the cell is the first one of the buffer and the row is the only one. -/
theorem cleared_iff {vt : VirtualTerminalInternals} (hsize : vt.size = (w, h))
    (hline : vt.bufLine < h) {y c : ℕ} (hy : y < h) (hc : c < w) (hrow : 1 < h ∨ 0 < c) {j : ℕ}
    (hj : j < w * h) :
    Cleared vt (vt.off c y) (vt.off 0 (y + 1)) j ↔
      bufRow h vt.bufLine y * w + c ≤ j ∧ j < bufRow h vt.bufLine y * w + w := by
  have hend : vt.bufEnd = w * h := by rw [VirtualTerminalInternals.bufEnd, hsize]
  rw [off_eq hsize, off_eq hsize]
  rw [Cleared]
  rw [hend]
  by_cases hlast : bufRow h vt.bufLine y + 1 = h
  · have hnext : bufRow h vt.bufLine (y + 1) = 0 := by
      rw [bufRow] at hlast ⊢
      split at hlast <;> split <;> omega
    have hmul : w * h = bufRow h vt.bufLine y * w + w := by
      rw [← Nat.succ_mul, Nat.mul_comm w]
      exact congrArg (· * w) hlast.symm
    have hpos : 0 < bufRow h vt.bufLine y * w + c := by
      rcases hrow with hrow | hrow
      · have hrow' : 0 < bufRow h vt.bufLine y := by omega
        have := Nat.mul_pos hrow' (Nat.lt_of_le_of_lt (Nat.zero_le _) hc)
        omega
      · omega
    rw [hnext, Nat.zero_mul, hmul]
    omega
  · have hnext : bufRow h vt.bufLine (y + 1) = bufRow h vt.bufLine y + 1 := by
      have := bufRow_lt hline hy
      unfold bufRow at hlast this ⊢
      split at hlast <;> split <;> omega
    rw [hnext, Nat.succ_mul]
    omega

/-- Clearing the cells of one row from a column on. -/
theorem Holds.clearRange {vt : VirtualTerminalInternals} {g : Grid w h} (hs : Holds vt g)
    {start stop : ℕ} (hstart : start ≤ w * h) (hstop : stop ≤ w * h) {y : Fin h} {c : ℕ}
    (hcleared : ∀ j, j < w * h → (Cleared vt start stop j ↔
      bufRow h vt.bufLine y * w + c ≤ j ∧ j < bufRow h vt.bufLine y * w + w)) :
    ∃ buf, vt.clearRange start stop = .ok { vt with buf := buf } ∧
      Holds { vt with buf := buf } { g with
        cells := fun y' x => if y' = y ∧ c ≤ x.val then g.blank else g.cells y' x } := by
  have hend : vt.bufEnd = vt.buf.length := by
    rw [VirtualTerminalInternals.bufEnd, hs.size, hs.length]
  obtain ⟨buf, heq, hlen, hbuf⟩ := clearRange_spec hend (hs.length ▸ hstart) (hs.length ▸ hstop)
  refine ⟨buf, heq, hs.size, hs.line, hlen.trans hs.length, hs.fgColor, hs.bgColor, ?_⟩
  intro y' x
  change buf[vt.off x y']? = _
  have hlt : vt.off x y' < w * h := hs.length ▸ hs.off_lt y' x
  have hiff : Cleared vt start stop (vt.off x y') ↔ y' = y ∧ c ≤ x.val := by
    rw [hcleared _ hlt, off_eq hs.size, mul_add_mem x.isLt, bufRow_inj y'.isLt y.isLt, Fin.ext_iff]
  rw [hbuf]
  simp only [hiff]
  split
  · rw [VirtualTerminalInternals.clearChar, hs.fgColor, hs.bgColor]
    rfl
  · exact hs.cells y' x

/-- The beginning of a row, or the end of the buffer, is in the buffer. -/
theorem Holds.off_le {vt : VirtualTerminalInternals} {g : Grid w h} (hs : Holds vt g) {c y : ℕ}
    (hc : c ≤ w) (hy : y ≤ h) : vt.off c y ≤ w * h := by
  rw [off_eq hs.size, Nat.mul_comm w]
  have hrow : bufRow h vt.bufLine y + 1 ≤ h := by
    have := hs.line
    rw [bufRow]
    split <;> omega
  calc bufRow h vt.bufLine y * w + c ≤ bufRow h vt.bufLine y * w + w := Nat.add_le_add_left hc _
    _ = (bufRow h vt.bufLine y + 1) * w := (Nat.succ_mul _ _).symm
    _ ≤ h * w := Nat.mul_le_mul_right w hrow

/-- Clearing from a cell to the beginning of the next row. -/
theorem Holds.clearRow {vt : VirtualTerminalInternals} {g : Grid w h} (hs : Holds vt g)
    (y : Fin h) (c : Fin w) (hrow : 1 < h ∨ 0 < c.val) :
    ∃ buf, vt.clearRange (vt.off c y) (vt.off 0 (y + 1)) = .ok { vt with buf := buf } ∧
      Holds { vt with buf := buf } { g with
        cells := fun y' x => if y' = y ∧ c ≤ x then g.blank else g.cells y' x } :=
  hs.clearRange (hs.off_le (Nat.le_of_lt c.isLt) (Nat.le_of_lt y.isLt))
    (hs.off_le (Nat.zero_le _) y.isLt)
    fun _ hj => cleared_iff hs.size hs.line y.isLt c.isLt hrow hj

/-- The grid whose first row has moved to the end. -/
def Grid.rotate (g : Grid w h) : Grid w h :=
  { g with
    cells := fun y x =>
      if hy : y.val + 1 < h then g.cells ⟨y.val + 1, hy⟩ x
      else g.cells ⟨0, Nat.lt_of_le_of_lt (Nat.zero_le _) y.isLt⟩ x }

/-- The terminal whose `buf_line` has moved by one row. -/
def scrolled (vt : VirtualTerminalInternals) (h : ℕ) (cursor : ℕ × ℕ) :
    VirtualTerminalInternals :=
  { vt with
    cursorPos := cursor
    bufLine := if h ≤ vt.bufLine + 1 then vt.bufLine + 1 - h else vt.bufLine + 1 }

/-- Where a row of the screen lies after `buf_line` has moved. -/
theorem bufRow_scrolled (vt : VirtualTerminalInternals) (cursor : ℕ × ℕ) {y : ℕ} (hh : 1 < h)
    (hline : vt.bufLine < h) (hy : y < h) :
    bufRow h (scrolled vt h cursor).bufLine y =
      bufRow h vt.bufLine (if y + 1 < h then y + 1 else 0) := by
  unfold bufRow scrolled
  dsimp only
  repeat' split
  all_goals omega

/-- Moving `buf_line` by one row moves the first row to the end. -/
theorem Holds.scrolled {vt : VirtualTerminalInternals} {g : Grid w h} (hs : Holds vt g)
    (hh : 1 < h) (cursor : ℕ × ℕ) : Holds (scrolled vt h cursor) g.rotate := by
  have hline := hs.line
  have hsize : (Vt.scrolled vt h cursor).size = (w, h) := hs.size
  refine ⟨hsize, ?_, hs.length, hs.fgColor, hs.bgColor, ?_⟩
  · rw [Vt.scrolled]
    dsimp only
    split <;> omega
  · intro y x
    rw [off_eq hsize, bufRow_scrolled vt cursor hh hline y.isLt]
    change vt.buf[_]? = _
    dsimp only [Grid.rotate]
    split
    · rw [← hs.cells, off_eq hs.size]
    · rw [← hs.cells, off_eq hs.size]

/-- Holding a grid is about its cells and colors. -/
theorem Holds.congr {vt : VirtualTerminalInternals} {g g' : Grid w h} (hs : Holds vt g)
    (hcells : g'.cells = g.cells) (hfg : g'.fgColor = g.fgColor) (hbg : g'.bgColor = g.bgColor) :
    Holds vt g' := by
  refine ⟨hs.size, hs.line, hs.length, hs.fgColor.trans hfg.symm, hs.bgColor.trans hbg.symm, ?_⟩
  rw [hcells]
  exact hs.cells

/-- Holding a grid is not about the cursor of the terminal. -/
theorem Holds.cursorAt {vt : VirtualTerminalInternals} {g : Grid w h} (hs : Holds vt g)
    (cursor : ℕ × ℕ) : Holds { vt with cursorPos := cursor } g :=
  ⟨hs.size, hs.line, hs.length, hs.fgColor, hs.bgColor, hs.cells⟩

/-- Moving the cursor. -/
theorem Holds.moveTo {vt : VirtualTerminalInternals} {g g' : Grid w h} {cursor : ℕ × ℕ}
    (hs : Holds vt g) (hcells : g'.cells = g.cells) (hfg : g'.fgColor = g.fgColor)
    (hbg : g'.bgColor = g.bgColor) (hcursor : cursor = (g'.col.val, g'.row.val)) :
    Shows { vt with cursorPos := cursor } g' :=
  ⟨(hs.congr hcells hfg hbg).cursorAt cursor, hcursor⟩

/-- A newline in the last row of a terminal of one row. -/
theorem Holds.scrollUp_one {vt : VirtualTerminalInternals} {g : Grid w h} (hs : Holds vt g)
    (hone : h ≤ 1) (hlast : ¬ g.row.val + 1 < h) :
    ∃ vt', vt.scrollUp 1 = .ok vt' ∧ vt'.ansi = vt.ansi ∧ Shows vt' g.newLine := by
  have hrow := g.row.isLt
  obtain rfl : h = 1 := by omega
  have hsize : vt.size.2 = 1 := by rw [hs.size]
  have hline : vt.bufLine = 0 := by
    have := hs.line
    omega
  have hend : vt.bufEnd = w * 1 := by rw [VirtualTerminalInternals.bufEnd, hs.size]
  have hcleared : ∀ j, j < w * 1 → (Cleared vt 0 vt.bufEnd j ↔
      bufRow 1 vt.bufLine g.row * w + 0 ≤ j ∧ j < bufRow 1 vt.bufLine g.row * w + w) := by
    intro j hj
    have hz : bufRow 1 vt.bufLine g.row = 0 := by
      rw [hline, bufRow]
      split <;> omega
    rw [hz, hend]
    rw [Cleared]
    omega
  obtain ⟨buf, heq, hholds⟩ := hs.clearRange (Nat.zero_le _) (Nat.le_of_eq hend) hcleared
  refine ⟨{ vt with buf := buf, cursorPos := (0, 0) }, ?_, rfl, ?_, ?_⟩
  · rw [VirtualTerminalInternals.scrollUp, VirtualTerminalInternals.clear]
    dsimp only
    rw [hsize, if_pos (Nat.le_refl 1), heq]
    rfl
  · have hcongr : Holds { vt with buf := buf } g.newLine := by
      refine hholds.congr ?_ ?_ ?_
      · rw [Grid.newLine, dif_neg hlast]
        funext y x
        have hy : y = g.row := by omega
        dsimp only
        rw [dif_neg (by omega), if_pos ⟨hy, Nat.zero_le _⟩]
      · rw [Grid.newLine, dif_neg hlast]
      · rw [Grid.newLine, dif_neg hlast]
    exact ⟨hcongr.size, hcongr.line, hcongr.length, hcongr.fgColor, hcongr.bgColor, hcongr.cells⟩
  · rw [Grid.newLine, dif_neg hlast]
    change (0, 0) = (0, g.row.val)
    rw [show g.row.val = 0 by omega]

/-- A newline in the last row of a terminal of more than one row. -/
theorem Holds.scrollUp_many {vt : VirtualTerminalInternals} {g : Grid w h} (hs : Holds vt g)
    (hh : 1 < h) (hlast : ¬ g.row.val + 1 < h) (hcursor : vt.cursorPos.2 = g.row.val + 1) :
    ∃ vt', vt.scrollUp 1 = .ok vt' ∧ vt'.ansi = vt.ansi ∧ Shows vt' g.newLine := by
  have hsize : vt.size.2 = h := by rw [hs.size]
  have hrow := g.row.isLt
  have hstop : h - 1 = g.row.val := by omega
  have hstop' : h = g.row.val + 1 := by omega
  obtain ⟨buf, heq, hholds⟩ := (hs.scrolled hh (0, g.row.val)).clearRow g.row g.firstCol (.inl hh)
  refine ⟨{ Vt.scrolled vt h (0, g.row.val) with buf := buf }, ?_, rfl, ?_, ?_⟩
  · rw [VirtualTerminalInternals.scrollUp]
    dsimp only
    rw [hsize, hcursor, if_neg (Nat.not_le.mpr hh), hstop, Nat.add_sub_cancel]
    have hoff : (Vt.scrolled vt h (0, g.row.val)).off 0 h =
        (Vt.scrolled vt h (0, g.row.val)).off 0 (g.row.val + 1) := by rw [← hstop']
    rw [← hoff] at heq
    exact heq
  · refine hholds.congr ?_ ?_ ?_
    · rw [Grid.newLine, dif_neg hlast]
      funext y x
      dsimp only [Grid.rotate]
      by_cases hy : y.val + 1 < h
      · have hne : ¬ (y = g.row ∧ g.firstCol ≤ x) := by
          rintro ⟨rfl, -⟩
          exact hlast hy
        rw [dif_pos hy, if_neg hne, dif_pos hy]
      · have heq' : y = g.row := by omega
        rw [dif_neg hy, if_pos ⟨heq', Nat.zero_le _⟩]
        rfl
    · rw [Grid.newLine, dif_neg hlast]
      rfl
    · rw [Grid.newLine, dif_neg hlast]
      rfl
  · rw [Grid.newLine, dif_neg hlast]
    rfl

/-- **A newline** on the terminal is a newline on the grid. -/
theorem Holds.newLine {vt : VirtualTerminalInternals} {g : Grid w h} (hs : Holds vt g)
    (hcursor : vt.cursorPos.2 = g.row.val) :
    ∃ vt', vt.newLine = .ok vt' ∧ vt'.ansi = vt.ansi ∧ Shows vt' g.newLine := by
  have hsize : vt.size.2 = h := by rw [hs.size]
  rw [VirtualTerminalInternals.newLine]
  dsimp only
  rw [hcursor, hsize]
  have hs' : Holds { vt with cursorPos := (0, g.row.val + 1) } g :=
    ⟨hs.size, hs.line, hs.length, hs.fgColor, hs.bgColor, hs.cells⟩
  by_cases hrow : g.row.val + 1 < h
  · rw [if_neg (Nat.not_le.mpr hrow), Grid.newLine, dif_pos hrow]
    exact ⟨_, rfl, rfl, ⟨hs.size, hs.line, hs.length, hs.fgColor, hs.bgColor, hs.cells⟩, rfl⟩
  · rw [if_pos (Nat.not_lt.mp hrow)]
    rcases Nat.lt_or_ge 1 h with hh | hh
    · exact hs'.scrollUp_many hh hrow rfl
    · exact hs'.scrollUp_one hh hrow

/-- Writing the cell under the cursor. -/
theorem Shows.setCell {vt : VirtualTerminalInternals} {g : Grid w h} (hs : Shows vt g)
    (c : VTChar) :
    vt.setCell vt.cursorOff c = .ok { vt with buf := vt.buf.set vt.cursorOff c } ∧
      Shows { vt with buf := vt.buf.set vt.cursorOff c } (g.setCell c) := by
  have hoff : vt.cursorOff = vt.off g.col g.row := by
    rw [VirtualTerminalInternals.cursorOff, hs.cursor]
  have hlt : vt.cursorOff < vt.buf.length := hoff ▸ hs.off_lt g.row g.col
  constructor
  · rw [VirtualTerminalInternals.setCell, ensure_pos hlt]
    rfl
  · refine ⟨⟨hs.size, hs.line, ?_, hs.fgColor, hs.bgColor, fun y x => ?_⟩, hs.cursor⟩
    · exact (List.length_set ..).trans hs.length
    · change (vt.buf.set vt.cursorOff c)[vt.off x y]? =
        some (if y = g.row ∧ x = g.col then _ else _)
      rw [List.getElem?_set, hoff]
      simp only [hs.off_inj]
      by_cases hyx : g.row = y ∧ g.col = x
      · rw [if_pos hyx, if_pos (hs.off_lt _ _), if_pos ⟨hyx.1.symm, hyx.2.symm⟩]
      · rw [if_neg hyx, if_neg (fun h => hyx ⟨h.1.symm, h.2.symm⟩)]
        exact hs.cells y x

/-- **A character** on the terminal is a character on the grid. -/
theorem Shows.writeChar {vt : VirtualTerminalInternals} {g : Grid w h} (hs : Shows vt g)
    (ch : Char) :
    ∃ vt', vt.writeChar ch = .ok vt' ∧ vt'.ansi = vt.ansi ∧ Shows vt' (g.writeChar ch) := by
  have hx : vt.cursorPos.1 = g.col.val := by rw [hs.cursor]
  have hy : vt.cursorPos.2 = g.row.val := by rw [hs.cursor]
  have hw : vt.size.1 = w := by rw [hs.size]
  rw [VirtualTerminalInternals.writeChar, Grid.writeChar]
  split
  · exact hs.toHolds.newLine hy
  · split
    · rw [hx, hy, hw, Grid.backspace]
      split
      · exact ⟨_, rfl, rfl, hs.moveTo rfl rfl rfl rfl⟩
      · split
        · exact ⟨_, rfl, rfl, hs.moveTo rfl rfl rfl rfl⟩
        · exact ⟨_, rfl, rfl, hs⟩
    · split
      · exact ⟨_, rfl, rfl, hs⟩
      · obtain ⟨heq, hs'⟩ := hs.setCell ⟨ch, vt.fgColor, vt.bgColor⟩
        rw [hs.fgColor, hs.bgColor] at heq hs' ⊢
        rw [heq, ok_bind]
        dsimp only
        rw [hx, hy, hw, Grid.advance]
        have hcol : (g.setCell ⟨ch, g.fgColor, g.bgColor⟩).col.val = g.col.val := rfl
        split
        · rw [dif_neg (by omega)]
          exact (hs'.toHolds.cursorAt _).newLine rfl
        · rw [dif_pos (by omega)]
          exact ⟨_, rfl, rfl, hs'.moveTo rfl rfl rfl rfl⟩

/-- Changing a color. -/
theorem Shows.applySgr {vt : VirtualTerminalInternals} {g : Grid w h} (hs : Shows vt g)
    (action : SgrAction) : Shows (vt.applySgr action) (g.applySgr action) := by
  cases action with
  | reset => exact ⟨⟨hs.size, hs.line, hs.length, rfl, rfl, hs.cells⟩, hs.cursor⟩
  | setFgColor color =>
      exact ⟨⟨hs.size, hs.line, hs.length, rfl, hs.bgColor, hs.cells⟩, hs.cursor⟩
  | setBgColor color =>
      exact ⟨⟨hs.size, hs.line, hs.length, hs.fgColor, rfl, hs.cells⟩, hs.cursor⟩

/-- Changing colors leaves the parser. -/
theorem applySgr_ansi (vt : VirtualTerminalInternals) (action : SgrAction) :
    (vt.applySgr action).ansi = vt.ansi := by
  cases action <;> rfl

/-- Changing colors, one after another. -/
theorem Shows.foldl_applySgr (actions : List SgrAction) {vt : VirtualTerminalInternals}
    {g : Grid w h} (hs : Shows vt g) :
    (actions.foldl VirtualTerminalInternals.applySgr vt).ansi = vt.ansi ∧
      Shows (actions.foldl VirtualTerminalInternals.applySgr vt)
        (actions.foldl Grid.applySgr g) := by
  induction actions generalizing vt g with
  | nil => exact ⟨rfl, hs⟩
  | cons action actions ih =>
      obtain ⟨hansi, hshows⟩ := ih (hs.applySgr action)
      exact ⟨hansi.trans (applySgr_ansi vt action), hshows⟩

/-- Erasing to the end of the line does what it should, unless the terminal has one row and the
cursor is in its first column. There it does nothing. -/
theorem Shows.eraseToLineEnd {vt : VirtualTerminalInternals} {g : Grid w h} (hs : Shows vt g) :
    ∃ buf, vt.act .eraseToLineEnd = .ok { vt with buf := buf } ∧
      Shows { vt with buf := buf } (if 1 < h ∨ 0 < g.col.val then g.eraseToLineEnd else g) := by
  have hact : vt.act .eraseToLineEnd =
      vt.clearRange (vt.off g.col.val g.row.val) (vt.off 0 (g.row.val + 1)) := by
    unfold VirtualTerminalInternals.act
    dsimp only
    rw [hs.cursor]
  rw [hact]
  by_cases hrow : 1 < h ∨ 0 < g.col.val
  · obtain ⟨buf, heq, hholds⟩ := hs.clearRow g.row g.col hrow
    rw [if_pos hrow]
    exact ⟨buf, heq, hholds, hs.cursor⟩
  · have hlt := g.row.isLt
    have hline := hs.line
    have hzero : vt.off g.col.val g.row.val = 0 := by
      rw [off_eq hs.size, bufRow, if_neg (by omega), show g.row.val + vt.bufLine = 0 by omega,
        show g.col.val = 0 by omega, Nat.zero_mul]
    have hzero' : vt.off 0 (g.row.val + 1) = 0 := by
      rw [off_eq hs.size, bufRow, if_pos (by omega),
        show g.row.val + 1 + vt.bufLine - h = 0 by omega, Nat.zero_mul]
    rw [if_neg hrow, hzero, hzero']
    refine ⟨vt.buf, ?_, hs⟩
    rw [VirtualTerminalInternals.clearRange, ensure_pos (Nat.zero_le _), ok_bind, ok_bind,
      if_pos (Nat.le_refl 0)]
    rfl

/-- What an action of the terminal does to the grid: `Grid.act`, but erasing to the end of the
line does nothing on a terminal of one row with the cursor in its first column. -/
def Grid.vtAct (g : Grid w h) (a : Action) : Grid w h :=
  if a = .eraseToLineEnd ∧ ¬ (1 < h ∨ 0 < g.col.val) then g else g.act a

/-- Every other action does what it should. -/
theorem Grid.vtAct_eq (g : Grid w h) {a : Action} (ha : a ≠ .eraseToLineEnd) :
    g.vtAct a = g.act a :=
  if_neg fun h => ha h.1

/-- **An action of the terminal is an action of the grid.** -/
theorem Shows.act {vt : VirtualTerminalInternals} {g : Grid w h} (hs : Shows vt g) (a : Action) :
    ∃ vt', vt.act a = .ok vt' ∧ vt'.ansi = vt.ansi ∧ Shows vt' (g.vtAct a) := by
  have hx : vt.cursorPos.1 = g.col.val := by rw [hs.cursor]
  have hy : vt.cursorPos.2 = g.row.val := by rw [hs.cursor]
  have hw : vt.size.1 = w := by rw [hs.size]
  have hh : vt.size.2 = h := by rw [hs.size]
  cases a with
  | writeChar ch =>
      rw [g.vtAct_eq (by simp)]
      exact hs.writeChar ch
  | cursorUp n =>
      rw [g.vtAct_eq (by simp), VirtualTerminalInternals.act, hx, hy]
      exact ⟨_, rfl, rfl, hs.moveTo rfl rfl rfl rfl⟩
  | cursorDown n =>
      rw [g.vtAct_eq (by simp), VirtualTerminalInternals.act, hx, hy, hh]
      exact ⟨_, rfl, rfl, hs.moveTo rfl rfl rfl rfl⟩
  | cursorRight n =>
      rw [g.vtAct_eq (by simp), VirtualTerminalInternals.act, hx, hy, hw]
      exact ⟨_, rfl, rfl, hs.moveTo rfl rfl rfl rfl⟩
  | cursorLeft n =>
      rw [g.vtAct_eq (by simp), VirtualTerminalInternals.act, hx, hy]
      exact ⟨_, rfl, rfl, hs.moveTo rfl rfl rfl rfl⟩
  | eraseToLineEnd =>
      have heq : g.vtAct .eraseToLineEnd =
          if 1 < h ∨ 0 < g.col.val then g.eraseToLineEnd else g := by
        rw [Grid.vtAct]
        split
        · rename_i hnot
          rw [if_neg hnot.2]
        · rename_i hnot
          rw [if_pos (Decidable.not_not.mp fun h => hnot ⟨rfl, h⟩)]
          rfl
      obtain ⟨buf, hact, hshows⟩ := hs.eraseToLineEnd
      rw [heq]
      exact ⟨_, hact, rfl, hshows⟩
  | sgr actions =>
      rw [g.vtAct_eq (by simp)]
      obtain ⟨hansi, hshows⟩ := Shows.foldl_applySgr actions hs
      exact ⟨_, rfl, hansi, hshows⟩

/-! ### Bytes -/

/-- What the action of a byte does to the grid, if it has one. -/
def Grid.vtStep (g : Grid w h) : Option Action → Grid w h
  | none => g
  | some a => g.vtAct a

/-- **A byte** does to the grid what its action does. -/
theorem Shows.writeByte {vt : VirtualTerminalInternals} {g : Grid w h} (hs : Shows vt g)
    (hp : vt.ansi.state.InRange) (b : UInt8) :
    ∃ action vt', vt.ansi.write b = .ok (action, vt'.ansi) ∧ vt.writeByte b = .ok vt' ∧
      vt'.ansi.state.InRange ∧ Shows vt' (g.vtStep action) := by
  obtain ⟨action, p, hwrite, hp'⟩ := write_spec hp b
  have hs' : Shows { vt with ansi := p } g :=
    ⟨⟨hs.size, hs.line, hs.length, hs.fgColor, hs.bgColor, hs.cells⟩, hs.cursor⟩
  rw [VirtualTerminalInternals.writeByte]
  rw [hwrite]
  cases action with
  | none => exact ⟨none, _, rfl, rfl, hp', hs'⟩
  | some a =>
      obtain ⟨vt', hact, hansi, hshows⟩ := hs'.act a
      exact ⟨some a, vt', by rw [hansi], hact, hansi ▸ hp', hshows⟩

/-- **Bytes** leave a terminal that shows a grid. -/
theorem Shows.write (bytes : List UInt8) {vt : VirtualTerminalInternals} {g : Grid w h}
    (hs : Shows vt g) (hp : vt.ansi.state.InRange) :
    ∃ vt', vt.write bytes = .ok vt' ∧ vt'.ansi.state.InRange ∧ ∃ g' : Grid w h, Shows vt' g' := by
  induction bytes generalizing vt g with
  | nil => exact ⟨vt, rfl, hp, g, hs⟩
  | cons b bytes ih =>
      obtain ⟨action, vt', -, hbyte, hp', hs'⟩ := hs.writeByte hp b
      obtain ⟨vt'', hwrite, hrest⟩ := ih hs' hp'
      refine ⟨vt'', ?_, hrest⟩
      rw [VirtualTerminalInternals.write, hbyte]
      exact hwrite

/-- The actions of bytes, one after another. -/
theorem Shows.write_actions (bytes : List UInt8) {vt : VirtualTerminalInternals} {g : Grid w h}
    {actions : List Action} {p : AnsiParser} (hs : Shows vt g) (hp : vt.ansi.state.InRange)
    (hwrite : vt.ansi.writeAll bytes = .ok (actions, p)) :
    ∃ vt', vt.write bytes = .ok vt' ∧ vt'.ansi = p ∧ Shows vt' (actions.foldl Grid.vtAct g) := by
  induction bytes generalizing vt g actions with
  | nil =>
      obtain ⟨rfl, rfl⟩ := Prod.mk.inj (Except.ok.inj hwrite)
      exact ⟨vt, rfl, rfl, hs⟩
  | cons b bytes ih =>
      obtain ⟨action, vt', hparse, hbyte, hp', hs'⟩ := hs.writeByte hp b
      rw [AnsiParser.writeAll, hparse, ok_bind] at hwrite
      obtain ⟨⟨rest, q⟩, hrest, hwrite⟩ := bind_eq_ok.mp hwrite
      obtain ⟨rfl, rfl⟩ := Prod.mk.inj (Except.ok.inj hwrite)
      obtain ⟨vt'', hwrite', hansi, hs''⟩ := ih hs' hp' hrest
      refine ⟨vt'', ?_, hansi, ?_⟩
      · rw [VirtualTerminalInternals.write, hbyte]
        exact hwrite'
      · cases action with
        | none => exact hs''
        | some a => exact hs''

/-- **A string** written between escape sequences does to the grid what its actions do. -/
theorem Shows.write_emits {s : List Char} {actions : List Action} {vt : VirtualTerminalInternals}
    {g : Grid w h} (hs : Shows vt g) (hp : vt.ansi.state = .normal) (he : Emits s actions) :
    ∃ vt', vt.write (asBytes s) = .ok vt' ∧ vt'.ansi.state = .normal ∧
      Shows vt' (actions.foldl Grid.vtAct g) := by
  obtain ⟨p, hwrite, hp'⟩ := he vt.ansi hp
  obtain ⟨vt', hok, hansi, hs'⟩ := hs.write_actions _ (by rw [hp]; exact trivial) hwrite
  exact ⟨vt', hok, hansi ▸ hp', hs'⟩

/-- A new terminal shows a blank grid. -/
theorem new_shows (hw : 0 < w) (hh : 0 < h) (hwh : w * h < 2 ^ 64) :
    ∃ vt, VirtualTerminalInternals.new w h = .ok vt ∧ vt.ansi = .new ∧
      Shows vt ⟨fun _ _ => ⟨' ', .white, .black⟩, ⟨0, hw⟩, ⟨0, hh⟩, .white, .black⟩ := by
  refine ⟨_, by rw [VirtualTerminalInternals.new, ensure_pos ⟨hw, hh, hwh⟩]; rfl, rfl,
    ⟨rfl, hh, List.length_replicate, rfl, rfl, fun y x => ?_⟩, rfl⟩
  refine List.getElem?_replicate_of_lt ?_
  rw [off_eq rfl, Nat.mul_comm w]
  exact mul_add_lt x.isLt (bufRow_lt hh y.isLt)

/-- The action does not write to a cell: it moves the cursor or changes the colors, or is a
control character that is ignored. -/
def KeepsCells : Action → Prop
  | .writeChar ch => ch ≠ '\n' ∧ (ch ≤ '\x1f' ∨ ch = '\x7f')
  | .eraseToLineEnd => False
  | .cursorUp _ => True
  | .cursorDown _ => True
  | .cursorRight _ => True
  | .cursorLeft _ => True
  | .sgr _ => True

/-- Changing colors leaves the cells. -/
theorem Grid.foldl_applySgr_cells (actions : List SgrAction) (g : Grid w h) :
    (actions.foldl Grid.applySgr g).cells = g.cells := by
  induction actions generalizing g with
  | nil => rfl
  | cons action actions ih =>
      rw [List.foldl_cons, ih]
      cases action <;> rfl

/-- An action that does not write to a cell leaves the cells. -/
theorem Grid.act_cells (g : Grid w h) {a : Action} (ha : KeepsCells a) :
    (g.act a).cells = g.cells := by
  cases a with
  | writeChar ch =>
      dsimp only [Grid.act, Grid.writeChar]
      rw [if_neg ha.1]
      split
      · rw [Grid.backspace]
        repeat' split
        all_goals rfl
      · rw [if_pos ha.2]
  | cursorUp n => rfl
  | cursorDown n => rfl
  | cursorRight n => rfl
  | cursorLeft n => rfl
  | eraseToLineEnd => exact absurd ha id
  | sgr actions => exact Grid.foldl_applySgr_cells actions g

/-- **The virtual terminal refines a scrolling grid.** Whatever bytes are written to a new
terminal, nothing panics, and the parser, the buffer and the cursor stay in range. The next
byte then does not panic either, and it does to the grid that the terminal shows what its
action should, if that is not to erase to the end of the line. -/
theorem vt_refines_grid (w h : ℕ) (hw : 0 < w) (hh : 0 < h) (hwh : w * h < 2 ^ 64)
    (bytes : List UInt8) :
    ∃ vt₀ vt, VirtualTerminalInternals.new w h = .ok vt₀ ∧ vt₀.write bytes = .ok vt ∧
      vt.ansi.state.InRange ∧ vt.buf.length = w * h ∧ vt.bufLine < h ∧
      vt.cursorPos.1 < w ∧ vt.cursorPos.2 < h ∧ (∃ g : Grid w h, Shows vt g) ∧
      ∀ b, ∃ action vt', vt.ansi.write b = .ok (action, vt'.ansi) ∧ vt.writeByte b = .ok vt' ∧
        ∀ g : Grid w h, Shows vt g →
          (action = none → Shows vt' g) ∧
          ∀ a, action = some a → a ≠ .eraseToLineEnd →
            Shows vt' (g.act a) ∧ (KeepsCells a → (g.act a).cells = g.cells) := by
  obtain ⟨vt₀, hnew, hansi, hshows⟩ := new_shows hw hh hwh
  obtain ⟨vt, hwrite, hp, g, hs⟩ := hshows.write bytes (by rw [hansi]; exact trivial)
  refine ⟨vt₀, vt, hnew, hwrite, hp, hs.length, hs.line, ?_, ?_, ⟨g, hs⟩, ?_⟩
  · rw [hs.cursor]
    exact g.col.isLt
  · rw [hs.cursor]
    exact g.row.isLt
  intro b
  obtain ⟨action, vt', hparse, hbyte, -, -⟩ := hs.writeByte hp b
  refine ⟨action, vt', hparse, hbyte, fun g' hs' => ?_⟩
  obtain ⟨action', vt'', hparse', hbyte', -, hshows'⟩ := hs'.writeByte hp b
  obtain rfl : vt'' = vt' := Except.ok.inj (hbyte'.symm.trans hbyte)
  obtain rfl : action' = action :=
    congrArg Prod.fst (Except.ok.inj (hparse'.symm.trans hparse))
  constructor
  · rintro rfl
    exact hshows'
  · rintro a rfl ha
    refine ⟨?_, Grid.act_cells g'⟩
    rw [← g'.vtAct_eq ha]
    exact hshows'

/-- The theorem on a terminal of two columns and two rows, after two newlines. -/
theorem vt_refines_grid_two :
    ∃ vt₀ vt, VirtualTerminalInternals.new 2 2 = .ok vt₀ ∧ vt₀.write [10, 10] = .ok vt ∧
      vt.bufLine < 2 := by
  obtain ⟨vt₀, vt, hnew, hwrite, -, -, hline, -⟩ :=
    vt_refines_grid 2 2 (by decide) (by decide) (by decide) [10, 10]
  exact ⟨vt₀, vt, hnew, hwrite, hline⟩

end HydroxKernel.Vt
