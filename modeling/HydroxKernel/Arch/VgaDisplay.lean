import HydroxKernel.Arch.VgaBuffer
import HydroxKernel.Io.VtGrid

/-!
# The VGA Display

A terminal is shown by writing all its cells to the VGA text buffer and moving the cursor of the
hardware to the one of the terminal, or behind the buffer if it is hidden.

## Main results

* `redraw_spec`: the display of a terminal shows the grid that the terminal shows.
-/

namespace HydroxKernel.Vga

open HydroxKernel.Ansi HydroxKernel.Vt

/-- `Color::from_ansi_color`. -/
def Color.fromAnsiColor : AnsiColor → Color
  | .black => black
  | .blue => blue
  | .green => green
  | .cyan => cyan
  | .red => red
  | .magenta => magenta
  | .brown => brown
  | .lightGray => lightGray
  | .darkGray => darkGray
  | .lightBlue => lightBlue
  | .lightGreen => lightGreen
  | .lightCyan => lightCyan
  | .lightRed => lightRed
  | .pink => pink
  | .yellow => yellow
  | .white => white

/-- `VgaTextBuffer::hide_cursor`. -/
def VgaTextBuffer.hideCursor (b : VgaTextBuffer) : VgaTextBuffer :=
  b.moveCursorInternal (b.width * b.height)

/-- The panics of drawing a terminal. -/
inductive RedrawPanic
  /-- The index of a cell is out of the buffer of the terminal. -/
  | vtIndex
  /-- A panic of the display. -/
  | vga (why : Panic)
  deriving DecidableEq

/-- The body of the loops of `redraw`: the cell of the terminal is written to the display. -/
def VgaTextBuffer.redrawCell (vt : VirtualTerminalInternals) (b : VgaTextBuffer) (y x : ℕ) :
    Except RedrawPanic VgaTextBuffer :=
  match vt.buf[vt.off x y]? with
  | none => .error .vtIndex
  | some c =>
      (b.set x y (glyph c.ch) (.fromAnsiColor c.fgColor) (.fromAnsiColor c.bgColor)).mapError .vga

/-- `VgaTextBufferDevice::redraw`, given whether the cursor is hidden. -/
def VgaTextBuffer.redraw (b : VgaTextBuffer) (vt : VirtualTerminalInternals)
    (cursorHidden : Bool) : Except RedrawPanic VgaTextBuffer := do
  let b ← (List.range (min vt.size.2 b.height)).foldlM
    (fun b' y => (List.range (min vt.size.1 b.width)).foldlM
      (fun b' x => b'.redrawCell vt y x) b') b
  if cursorHidden then return b.hideCursor
  else (b.moveCursor vt.cursorPos.1 vt.cursorPos.2).mapError .vga

variable {w h : ℕ}

/-- The cell of the display for a cell of a terminal. -/
def shown (c : VTChar) : ScreenChar :=
  ⟨glyph c.ch, .new (.fromAnsiColor c.fgColor) (.fromAnsiColor c.bgColor)⟩

/-- The registers of the cursor for a place in the buffer. -/
def cursorAt (pos : ℕ) : UInt8 × UInt8 := (UInt8.ofNat pos, UInt8.ofNat (pos >>> 8))

/-- The display shows a grid: its cells, and its cursor. -/
structure Displays (b : VgaTextBuffer) (g : Grid w h) : Prop where
  cells : Holds b fun y x => shown (g.cells y x)
  cursor : b.cursor = cursorAt (g.row.val * w + g.col.val)

/-- **Loops over all cells** that write one after another write a matrix. -/
theorem Holds.fill {ε : Type} {f : VgaTextBuffer → ℕ → ℕ → Except ε VgaTextBuffer}
    {b : VgaTextBuffer} {cells : Fin h → Fin w → ScreenChar} (hb : Holds b cells)
    (target : Fin h → Fin w → ScreenChar)
    (hf : ∀ b' cells' (y : Fin h) (x : Fin w), Holds b' cells' →
      ∃ b'', f b' y x = .ok b'' ∧ Holds b'' (setCell cells' y x (target y x))) :
    ∃ b', (List.range h).foldlM (fun b y => (List.range w).foldlM (fun b x => f b y x) b) b =
      .ok b' ∧ Holds b' target := by
  obtain ⟨b', hloop, hI⟩ := @foldlM_invariant _ _ _
    (fun b y => (List.range w).foldlM (fun b x => f b y x) b) (List.range h)
    (fun k b' => Holds b' fun y x => if y.val < k then target y x else cells y x) b
    (hb.congr fun y x => (if_neg (Nat.not_lt_zero _)).symm) (by
      intro k hk b₁ hb₁
      rw [List.length_range] at hk
      obtain ⟨b₂, hrow, hb₂⟩ := @foldlM_invariant _ _ _ (fun b x => f b k x) (List.range w)
        (fun j b' => Holds b' fun y x =>
          if y.val < k ∨ y.val = k ∧ x.val < j then target y x else cells y x) b₁
        (hb₁.congr fun y x => if_congr (by omega) rfl rfl) (by
          intro j hj b₃ hb₃
          rw [List.length_range] at hj
          obtain ⟨b₄, hcell, hb₄⟩ := hf b₃ _ ⟨k, hk⟩ ⟨j, hj⟩ hb₃
          rw [List.getElem_range]
          refine ⟨b₄, hcell, hb₄.congr fun y x => ?_⟩
          rw [setCell]
          by_cases hyx : y = ⟨k, hk⟩ ∧ x = ⟨j, hj⟩
          · obtain ⟨rfl, rfl⟩ := hyx
            rw [if_pos ⟨rfl, rfl⟩, if_pos (.inr ⟨rfl, Nat.lt_succ_self j⟩)]
          · rw [if_neg hyx]
            refine if_congr (or_congr_right (and_congr_right fun hy => ?_)) rfl rfl
            have hne : x.val ≠ j := fun hx => hyx ⟨Fin.ext hy, Fin.ext hx⟩
            omega)
      rw [List.getElem_range]
      rw [List.length_range] at hb₂
      refine ⟨b₂, hrow, hb₂.congr fun y x => if_congr ?_ rfl rfl⟩
      have := x.isLt
      omega)
  rw [List.length_range] at hI
  exact ⟨b', hloop, hI.congr fun y x => if_pos y.isLt⟩

/-- **A redraw** shows on the display what the terminal shows. -/
theorem redraw_spec {b : VgaTextBuffer} {cells : Fin h → Fin w → ScreenChar}
    {vt : VirtualTerminalInternals} {g : Grid w h} (hb : Holds b cells) (hs : Vt.Shows vt g) :
    ∃ b', b.redraw vt false = .ok b' ∧ Displays b' g := by
  obtain ⟨b', hloop, hb'⟩ := hb.fill (fun y x => shown (g.cells y x))
    (f := fun b y x => b.redrawCell vt y x) (by
      intro b₁ cells' y x hb₁
      obtain ⟨b₂, hset, hb₂⟩ := hb₁.set y x (glyph (g.cells y x).ch)
        (.fromAnsiColor (g.cells y x).fgColor) (.fromAnsiColor (g.cells y x).bgColor)
      refine ⟨b₂, ?_, hb₂⟩
      rw [VgaTextBuffer.redrawCell, hs.cells y x]
      dsimp only
      rw [hset]
      rfl)
  have hx : vt.cursorPos.1 = g.col.val := by rw [hs.cursor]
  have hy : vt.cursorPos.2 = g.row.val := by rw [hs.cursor]
  have hmove : b'.moveCursor g.col.val g.row.val =
      .ok (b'.moveCursorInternal (g.row.val * w + g.col.val)) := by
    rw [VgaTextBuffer.moveCursor, ensure_pos (hb'.width ▸ g.col.isLt), ok_bind,
      ensure_pos (hb'.height ▸ g.row.isLt), hb'.width]
    rfl
  refine ⟨b'.moveCursorInternal (g.row.val * w + g.col.val), ?_,
    ⟨hb'.width, hb'.height, hb'.cells⟩, rfl⟩
  rw [VgaTextBuffer.redraw, hs.size, hb.width, hb.height, Nat.min_self, Nat.min_self, hloop,
    ok_bind, if_neg Bool.false_ne_true, hx, hy, hmove]
  rfl

end HydroxKernel.Vga
