import HydroxKernel.Lib.Assert
import HydroxKernel.Lib.RowMajor

/-!
# The VGA Text Buffer

The screen of a text mode is a buffer of cells, row after row. The buffer is accessed without
checks: an index that is out of its range is undefined behavior, and an error here. The cursor
of the hardware is a place in the buffer, in two registers of a byte.

The `Writer` is what the panic screen is written with. It scrolls by copying cell by cell.

## Main results

* `Holds.set`, `Holds.copy`: what the operations of the buffer do to the cells that it holds.
-/

namespace HydroxKernel.Vga

/-- What goes wrong. -/
inductive Panic
  /-- An `assert!` on a position. -/
  | assertion
  /-- An index is out of the range of the buffer. -/
  | outOfRange
  deriving DecidableEq

/-- `Color`. -/
inductive Color
  | black
  | blue
  | green
  | cyan
  | red
  | magenta
  | brown
  | lightGray
  | darkGray
  | lightBlue
  | lightGreen
  | lightCyan
  | lightRed
  | pink
  | yellow
  | white
  deriving DecidableEq

/-- A `Color` as a `u8`. -/
def Color.toByte : Color → UInt8
  | .black => 0x0
  | .blue => 0x1
  | .green => 0x2
  | .cyan => 0x3
  | .red => 0x4
  | .magenta => 0x5
  | .brown => 0x6
  | .lightGray => 0x7
  | .darkGray => 0x8
  | .lightBlue => 0x9
  | .lightGreen => 0xa
  | .lightCyan => 0xb
  | .lightRed => 0xc
  | .pink => 0xd
  | .yellow => 0xe
  | .white => 0xf

/-- `ColorCode`. -/
structure ColorCode where
  val : UInt8
  deriving DecidableEq

/-- `ColorCode::new`. -/
def ColorCode.new (fg bg : Color) : ColorCode := ⟨(bg.toByte <<< 4) ||| fg.toByte⟩

/-- `ScreenChar`. -/
structure ScreenChar where
  ch : UInt8
  color : ColorCode
  deriving DecidableEq

/-- `VgaTextBuffer`, with the registers of the cursor. -/
structure VgaTextBuffer where
  buf : List ScreenChar
  width : ℕ
  height : ℕ
  cursor : UInt8 × UInt8

namespace VgaTextBuffer

/-- A read of the buffer. -/
def readCell (b : VgaTextBuffer) (i : ℕ) : Except Panic ScreenChar :=
  match b.buf[i]? with
  | some c => .ok c
  | none => .error .outOfRange

/-- A write of the buffer. -/
def writeCell (b : VgaTextBuffer) (i : ℕ) (c : ScreenChar) : Except Panic VgaTextBuffer := do
  ensure (i < b.buf.length) .outOfRange
  return { b with buf := b.buf.set i c }

/-- `VgaTextBuffer::clear`. -/
def clear (b : VgaTextBuffer) (fg bg : Color) : Except Panic VgaTextBuffer :=
  (List.range (b.width * b.height)).foldlM
    (fun b i => b.writeCell i ⟨' '.toUInt8, .new fg bg⟩) b

/-- `VgaTextBuffer::set`. -/
def set (b : VgaTextBuffer) (x y : ℕ) (ch : UInt8) (fg bg : Color) :
    Except Panic VgaTextBuffer := do
  ensure (x < b.width) .assertion
  ensure (y < b.height) .assertion
  b.writeCell (y * b.width + x) ⟨ch, .new fg bg⟩

/-- `VgaTextBuffer::copy`. The cell that is read is that of the row `from_y` and the column
`from_y`. -/
def copy (b : VgaTextBuffer) (fromX fromY toX toY : ℕ) : Except Panic VgaTextBuffer := do
  ensure (fromX < b.width) .assertion
  ensure (fromY < b.height) .assertion
  ensure (toX < b.width) .assertion
  ensure (toY < b.height) .assertion
  let c ← b.readCell (fromY * b.width + fromY)
  b.writeCell (toY * b.width + toX) c

/-- `VgaTextBuffer::move_cursor_internal`. -/
def moveCursorInternal (b : VgaTextBuffer) (pos : ℕ) : VgaTextBuffer :=
  { b with cursor := (UInt8.ofNat pos, UInt8.ofNat (pos >>> 8)) }

/-- `VgaTextBuffer::move_cursor`. -/
def moveCursor (b : VgaTextBuffer) (x y : ℕ) : Except Panic VgaTextBuffer := do
  ensure (x < b.width) .assertion
  ensure (y < b.height) .assertion
  return b.moveCursorInternal (y * b.width + x)

end VgaTextBuffer

/-- `Writer`. -/
structure Writer where
  x : ℕ
  y : ℕ
  fgColor : Color
  bgColor : Color
  buf : VgaTextBuffer

/-- The byte that is shown for a character. -/
def glyph (ch : Char) : UInt8 :=
  if ch.toNat < 0x80 ∧ ¬ (ch.toNat < 0x20 ∨ ch.toNat = 0x7f) then ch.toUInt8 else 0xfe

namespace Writer

/-- `Writer::new`. -/
def new (buf : VgaTextBuffer) : Writer := ⟨0, 0, .white, .black, buf⟩

/-- `Writer::set_color`. -/
def setColor (w : Writer) (fg bg : Color) : Writer := { w with fgColor := fg, bgColor := bg }

/-- `Writer::clear`. -/
def clear (w : Writer) : Except Panic Writer := do
  let buf ← w.buf.clear w.fgColor w.bgColor
  let buf ← buf.moveCursor 0 0
  return { w with x := 0, y := 0, buf := buf }

/-- The loops of `Writer::new_line` that move the rows up. -/
def moveUp (w : Writer) : Except Panic VgaTextBuffer :=
  (List.range (w.buf.height - 1)).foldlM
    (fun b y => (List.range w.buf.width).foldlM (fun b x => b.copy x (y + 1) x y) b) w.buf

/-- The loop of `Writer::new_line` that blanks the last row. -/
def blankLast (w : Writer) : Except Panic VgaTextBuffer :=
  (List.range w.buf.width).foldlM
    (fun b x => b.set x (w.buf.height - 1) ' '.toUInt8 w.fgColor w.bgColor) w.buf

/-- `Writer::new_line`. -/
def newLine (w : Writer) : Except Panic Writer :=
  let w := { w with x := 0, y := w.y + 1 }
  if w.buf.height ≤ w.y then do
    let w := { w with buf := ← w.moveUp }
    let w := { w with buf := ← w.blankLast }
    return { w with y := w.buf.height - 1 }
  else .ok w

/-- `Writer::write_char_impl`. -/
def writeCharImpl (w : Writer) (ch : Char) : Except Panic Writer :=
  if ch = '\n' then w.newLine
  else do
    let buf ← w.buf.set w.x w.y (glyph ch) w.fgColor w.bgColor
    let w := { w with buf := buf, x := w.x + 1 }
    if w.buf.width ≤ w.x then w.newLine else return w

/-- The loop of `Writer::write_str`. -/
def writeChars (w : Writer) (s : List Char) : Except Panic Writer :=
  s.foldlM writeCharImpl w

/-- `Writer::write_str`. -/
def writeStr (w : Writer) (s : List Char) : Except Panic Writer := do
  let w ← w.writeChars s
  let buf ← w.buf.moveCursor w.x w.y
  return { w with buf := buf }

end Writer

/-- `show_panic_crash_screen` up to its endless loop, given the text of the panic. -/
def showPanicCrashScreen (buf : VgaTextBuffer) (info : List Char) : Except Panic Writer := do
  let w ← ((Writer.new buf).setColor .white .red).clear
  w.writeStr info

/-! ### The cells of the buffer -/

variable {w h : ℕ}

/-- The buffer has `w` columns and `h` rows and holds the cells. -/
structure Holds (b : VgaTextBuffer) (cells : Fin h → Fin w → ScreenChar) : Prop where
  width : b.width = w
  height : b.height = h
  cells : RowMajor b.buf cells

/-- The buffer holds the same cells, described otherwise. -/
theorem Holds.congr {b : VgaTextBuffer} {cells cells' : Fin h → Fin w → ScreenChar}
    (hb : Holds b cells) (heq : ∀ y x, cells y x = cells' y x) : Holds b cells' := by
  rwa [show cells' = cells from funext fun y => funext fun x => (heq y x).symm]

/-- A cell of the buffer is written. -/
theorem Holds.writeCell {b : VgaTextBuffer} {cells : Fin h → Fin w → ScreenChar}
    (hb : Holds b cells) (y : Fin h) (x : Fin w) (c : ScreenChar) :
    ∃ b', b.writeCell (y.val * w + x.val) c = .ok b' ∧ Holds b' (setCell cells y x c) := by
  rw [VgaTextBuffer.writeCell, ensure_pos (hb.cells.lt y x)]
  exact ⟨_, rfl, hb.width, hb.height, hb.cells.set y x c⟩

/-- **`set`** writes a cell. -/
theorem Holds.set {b : VgaTextBuffer} {cells : Fin h → Fin w → ScreenChar} (hb : Holds b cells)
    (y : Fin h) (x : Fin w) (ch : UInt8) (fg bg : Color) :
    ∃ b', b.set x y ch fg bg = .ok b' ∧ Holds b' (setCell cells y x ⟨ch, .new fg bg⟩) := by
  have hx : x.val < b.width := hb.width ▸ x.isLt
  have hy : y.val < b.height := hb.height ▸ y.isLt
  rw [VgaTextBuffer.set, ensure_pos hx, ok_bind, ensure_pos hy, ok_bind, hb.width]
  exact hb.writeCell y x _

/-- **`copy`** writes a cell of the row and the column `from_y`, if there is one. -/
theorem Holds.copy {b : VgaTextBuffer} {cells : Fin h → Fin w → ScreenChar} (hb : Holds b cells)
    {fromX : ℕ} (hfrom : fromX < w) {fromY : ℕ} (hfromY : fromY < h) (hdiag : fromY < w)
    (y : Fin h) (x : Fin w) :
    ∃ b', b.copy fromX fromY x y = .ok b' ∧
      Holds b' (setCell cells y x (cells ⟨fromY, hfromY⟩ ⟨fromY, hdiag⟩)) := by
  have hx : x.val < b.width := hb.width ▸ x.isLt
  have hy : y.val < b.height := hb.height ▸ y.isLt
  have hread := hb.cells.get ⟨fromY, hfromY⟩ ⟨fromY, hdiag⟩
  rw [VgaTextBuffer.copy, ensure_pos (hb.width ▸ hfrom), ok_bind, ensure_pos (hb.height ▸ hfromY),
    ok_bind, ensure_pos hx, ok_bind, ensure_pos hy, ok_bind, VgaTextBuffer.readCell, hb.width,
    hread, ok_bind]
  exact hb.writeCell y x _

/-- **`clear`** blanks the buffer. -/
theorem Holds.clear {b : VgaTextBuffer} {cells : Fin h → Fin w → ScreenChar} (hb : Holds b cells)
    (fg bg : Color) :
    ∃ b', b.clear fg bg = .ok b' ∧
      Holds b' fun (_ : Fin h) (_ : Fin w) => ⟨' '.toUInt8, .new fg bg⟩ := by
  obtain ⟨b', hloop, hwidth, hheight, hlength, hblank⟩ := @foldlM_invariant _ _ _
    (fun b i => b.writeCell i ⟨' '.toUInt8, .new fg bg⟩) (List.range (w * h))
    (fun k b' => b'.width = w ∧ b'.height = h ∧ b'.buf.length = w * h ∧
      ∀ i < k, b'.buf[i]? = some ⟨' '.toUInt8, .new fg bg⟩) b
    ⟨hb.width, hb.height, hb.cells.length, fun i hi => absurd hi (Nat.not_lt_zero i)⟩ (by
      rintro k hk b₁ ⟨hwidth, hheight, hlength, hblank⟩
      rw [List.length_range] at hk
      rw [List.getElem_range, VgaTextBuffer.writeCell, ensure_pos (by rw [hlength]; exact hk)]
      refine ⟨_, rfl, hwidth, hheight, List.length_set.trans hlength, fun i hi => ?_⟩
      rw [List.getElem?_set]
      by_cases hki : k = i
      · rw [if_pos hki, if_pos (by rw [hlength]; exact hk)]
      · rw [if_neg hki]
        exact hblank i (by omega))
  rw [List.length_range] at hblank
  refine ⟨b', ?_, hwidth, hheight, hlength, fun y x => hblank _ ?_⟩
  · rw [VgaTextBuffer.clear, hb.width, hb.height]
    exact hloop
  · rw [← hb.cells.length]
    exact hb.cells.lt y x

/-- Every buffer of the right length holds cells. -/
theorem exists_holds {b : VgaTextBuffer} (hlength : b.buf.length = b.width * b.height) :
    ∃ cells : Fin b.height → Fin b.width → ScreenChar, Holds b cells := by
  have hlt : ∀ (y : Fin b.height) (x : Fin b.width), y.val * b.width + x.val < b.buf.length := by
    intro y x
    rw [hlength, Nat.mul_comm b.width]
    exact mul_add_lt x.isLt y.isLt
  exact ⟨fun y x => b.buf.get ⟨y.val * b.width + x.val, hlt y x⟩, rfl, rfl, hlength,
    fun y x => List.getElem?_eq_getElem (hlt y x)⟩

/-- The sizes of the buffer stay when a cell is written. -/
structure SameSize (b b' : VgaTextBuffer) : Prop where
  width : b'.width = b.width
  height : b'.height = b.height
  length : b'.buf.length = b.buf.length

/-- A write that returns leaves the sizes. -/
theorem sameSize_writeCell {b b' : VgaTextBuffer} {i : ℕ} {c : ScreenChar}
    (h : b.writeCell i c = .ok b') : SameSize b b' := by
  obtain ⟨-, h⟩ := ensure_bind_eq_ok.mp h
  obtain rfl := Except.ok.inj h
  exact ⟨rfl, rfl, List.length_set⟩

/-- A copy that returns has read a cell of the buffer, and leaves the sizes. -/
theorem copy_eq_ok {b b' : VgaTextBuffer} {fromX fromY toX toY : ℕ}
    (h : b.copy fromX fromY toX toY = .ok b') :
    fromY * b.width + fromY < b.buf.length ∧ SameSize b b' := by
  obtain ⟨-, h⟩ := ensure_bind_eq_ok.mp h
  obtain ⟨-, h⟩ := ensure_bind_eq_ok.mp h
  obtain ⟨-, h⟩ := ensure_bind_eq_ok.mp h
  obtain ⟨-, h⟩ := ensure_bind_eq_ok.mp h
  obtain ⟨c, hread, h⟩ := bind_eq_ok.mp h
  refine ⟨?_, sameSize_writeCell h⟩
  by_contra hge
  rw [VgaTextBuffer.readCell, List.getElem?_eq_none (Nat.not_lt.mp hge)] at hread
  cases hread

end HydroxKernel.Vga
