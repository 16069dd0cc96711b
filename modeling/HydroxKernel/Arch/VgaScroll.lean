import HydroxKernel.Arch.VgaBuffer

/-!
# Scrolling the VGA Text Buffer

The panic screen is a terminal: characters fill its cells, and in the last row the others move
up. `Screen` is that terminal. The code moves the rows up with copies of which every one reads
from the diagonal of the buffer, so that a row takes one cell of the next row for all its
columns, or reads behind the buffer if there are more rows than columns.

## Main results

* `Shows.writeChars`: what the code writes is a screen that smears its rows.
* `writeStr_keeps_iff`: a string is shown as it should exactly if no scrolling is needed, or if
  there are no more rows than columns and every row that is left above the last one has the
  same cell in all columns.
* `showPanicCrashScreen_iff`: when the panic screen shows its text.
-/

namespace HydroxKernel.Vga

variable {w h : ℕ}

/-! ### The screen -/

/-- A screen of `w` columns and `h` rows, with the cursor and the color of what is written. -/
structure Screen (w h : ℕ) where
  cells : Fin h → Fin w → ScreenChar
  col : Fin w
  row : Fin h
  color : ColorCode

namespace Screen

/-- A blank cell. -/
def blank (s : Screen w h) : ScreenChar := ⟨' '.toUInt8, s.color⟩

/-- The first column. -/
def firstCol (s : Screen w h) : Fin w := ⟨0, Nat.lt_of_le_of_lt (Nat.zero_le _) s.col.isLt⟩

/-- A way to scroll: the cells after the rows have moved up. -/
abbrev Scroll (w h : ℕ) := Screen w h → Fin h → Fin w → ScreenChar

/-- The cells after the rows have moved up by one: every row takes the cells of the next one,
and the last row is blank. -/
def movedUp : Scroll w h := fun s y x =>
  if hy : y.val + 1 < h then s.cells ⟨y.val + 1, hy⟩ x else s.blank

/-- The cells after the code has moved the rows up: every row takes, in all its columns, the
cell of the next row that is on the diagonal. -/
def smeared : Scroll w h := fun s y _ =>
  if hy : y.val + 1 < h ∧ y.val + 1 < w then s.cells ⟨y.val + 1, hy.1⟩ ⟨y.val + 1, hy.2⟩
  else s.blank

/-- A row that has a next one is smeared with one of its cells. -/
theorem smeared_of_lt (s : Screen w h) {y : ℕ} (hy : y + 1 < h) (hdiag : y + 1 < w) (x : Fin w) :
    s.smeared ⟨y, Nat.lt_of_succ_lt hy⟩ x = s.cells ⟨y + 1, hy⟩ ⟨y + 1, hdiag⟩ :=
  dif_pos ⟨hy, hdiag⟩

/-- A row that has a next one takes its cells. -/
theorem movedUp_of_lt (s : Screen w h) {y : Fin h} (hy : y.val + 1 < h) (x : Fin w) :
    s.movedUp y x = s.cells ⟨y.val + 1, hy⟩ x :=
  dif_pos hy

/-- The last row is blank. -/
theorem movedUp_last (s : Screen w h) {y : Fin h} (hy : ¬ y.val + 1 < h) (x : Fin w) :
    s.movedUp y x = s.blank :=
  dif_neg hy

/-- The last row is blank. -/
theorem smeared_last (s : Screen w h) {y : Fin h} (hy : ¬ y.val + 1 < h) (x : Fin w) :
    s.smeared y x = s.blank :=
  dif_neg fun h => hy h.1

/-- The cursor moves to the beginning of the next row. In the last row, the rows move up. -/
def newLine (scroll : Scroll w h) (s : Screen w h) : Screen w h :=
  if hrow : s.row.val + 1 < h then { s with col := s.firstCol, row := ⟨s.row.val + 1, hrow⟩ }
  else { s with cells := scroll s, col := s.firstCol }

/-- The cell under the cursor is filled. -/
def put (s : Screen w h) (ch : Char) : Screen w h :=
  { s with cells := setCell s.cells s.row s.col ⟨glyph ch, s.color⟩ }

/-- The cursor advances, with a wrap to the next row. -/
def advance (scroll : Scroll w h) (s : Screen w h) : Screen w h :=
  if hcol : s.col.val + 1 < w then { s with col := ⟨s.col.val + 1, hcol⟩ } else s.newLine scroll

/-- A character is written. -/
def writeChar (scroll : Scroll w h) (s : Screen w h) (ch : Char) : Screen w h :=
  if ch = '\n' then s.newLine scroll else (s.put ch).advance scroll

/-- A string is written. -/
def writeStr (scroll : Scroll w h) (s : Screen w h) (str : List Char) : Screen w h :=
  str.foldl (writeChar scroll) s

/-- The next character moves the rows up. -/
def ScrollsAt (s : Screen w h) (ch : Char) : Prop :=
  ¬ s.row.val + 1 < h ∧ (ch = '\n' ∨ ¬ s.col.val + 1 < w)

/-- Some character of the string moves the rows up. -/
def Scrolls (s : Screen w h) : List Char → Prop
  | [] => False
  | ch :: str => s.ScrollsAt ch ∨ (s.writeChar movedUp ch).Scrolls str

/-- Every row above the last one has the same cell in all columns. -/
def Flat (s : Screen w h) : Prop :=
  ∀ y : Fin h, y.val + 1 < h → ∀ x x', s.cells y x = s.cells y x'

end Screen

/-- The writer shows the screen. -/
structure Shows (wr : Writer) (s : Screen w h) : Prop where
  holds : Holds wr.buf s.cells
  x : wr.x = s.col.val
  y : wr.y = s.row.val
  color : ColorCode.new wr.fgColor wr.bgColor = s.color

/-! ### Moving the rows up -/

/-- A loop over the columns that writes the same cell in all of them. -/
theorem Holds.fillRow {f : VgaTextBuffer → ℕ → Except Panic VgaTextBuffer} {b : VgaTextBuffer}
    {cells : Fin h → Fin w → ScreenChar} (hb : Holds b cells) (y : Fin h) (c : ScreenChar)
    (hf : ∀ b' cells' (x : Fin w), Holds b' cells' → (∀ y' ≠ y, cells' y' = cells y') →
      ∃ b'', f b' x = .ok b'' ∧ Holds b'' (setCell cells' y x c)) :
    ∃ b', (List.range w).foldlM f b = .ok b' ∧
      Holds b' fun y' x => if y' = y then c else cells y' x := by
  obtain ⟨b', hloop, hI⟩ := @foldlM_invariant _ _ _ f (List.range w)
    (fun k b' => Holds b' fun y' x => if y' = y ∧ x.val < k then c else cells y' x) b
    (hb.congr fun y' x => by simp) (by
      intro k hk b₁ hb₁
      rw [List.length_range] at hk
      obtain ⟨b₂, hstep, hb₂⟩ := hf b₁ _ ⟨k, hk⟩ hb₁ fun y' hy' => by simp [hy']
      rw [List.getElem_range]
      refine ⟨b₂, hstep, hb₂.congr fun y' x => ?_⟩
      rw [setCell]
      by_cases hcell : y' = y ∧ x = ⟨k, hk⟩
      · rw [if_pos hcell, if_pos ⟨hcell.1, by rw [hcell.2]; exact Nat.lt_succ_self k⟩]
      · rw [if_neg hcell]
        refine if_congr (and_congr_right fun hy => ?_) rfl rfl
        have hne : x.val ≠ k := fun hx => hcell ⟨hy, Fin.ext hx⟩
        omega)
  rw [List.length_range] at hI
  exact ⟨b', hloop, hI.congr fun y' x => if_congr (and_iff_left x.isLt) rfl rfl⟩

/-- The loops that move the rows up smear them, if there are no more rows than columns. -/
theorem Shows.moveUp {wr : Writer} {s : Screen w h} (hb : Holds wr.buf s.cells) (hwh : h ≤ w) :
    ∃ b', wr.moveUp = .ok b' ∧ Holds b' fun y x =>
      if y.val + 1 < h then Screen.smeared s y x else s.cells y x := by
  obtain ⟨b', hloop, hI⟩ := @foldlM_invariant _ _ _
    (fun b y => (List.range w).foldlM (fun b x => b.copy x (y + 1) x y) b) (List.range (h - 1))
    (fun k b' => Holds b' fun y x => if y.val < k then Screen.smeared s y x else s.cells y x)
    wr.buf (hb.congr fun y x => by simp) (by
      intro k hk b₁ hb₁
      rw [List.length_range] at hk
      have hsucc : k + 1 < h := by omega
      have hdiag : k + 1 < w := by omega
      obtain ⟨b₂, hrow, hb₂⟩ := hb₁.fillRow ⟨k, by omega⟩
        (s.cells ⟨k + 1, hsucc⟩ ⟨k + 1, hdiag⟩) (f := fun b x => b.copy x (k + 1) x k) (by
          intro b' cells' x hb' hothers
          obtain ⟨b'', hcopy, hb''⟩ := hb'.copy x.isLt hsucc hdiag ⟨k, by omega⟩ x
          have hcell : cells' ⟨k + 1, hsucc⟩ ⟨k + 1, hdiag⟩ =
              s.cells ⟨k + 1, hsucc⟩ ⟨k + 1, hdiag⟩ :=
            (congrFun (hothers ⟨k + 1, hsucc⟩ (by simp)) _).trans (if_neg (by simp))
          rw [hcell] at hb''
          exact ⟨b'', hcopy, hb''⟩)
      rw [List.getElem_range]
      refine ⟨b₂, hrow, hb₂.congr fun y x => ?_⟩
      by_cases hy : y = ⟨k, by omega⟩
      · rw [if_pos hy, if_pos (by rw [hy]; exact Nat.lt_succ_self k), hy]
        exact (s.smeared_of_lt hsucc hdiag x).symm
      · rw [if_neg hy]
        refine if_congr ?_ rfl rfl
        have hne : y.val ≠ k := fun h => hy (Fin.ext h)
        omega)
  rw [List.length_range] at hI
  refine ⟨b', ?_, hI.congr fun y x => if_congr (by omega) rfl rfl⟩
  rw [Writer.moveUp, hb.width, hb.height]
  exact hloop

/-- With more rows than columns, the last row that is copied is read behind the buffer. -/
theorem moveUp_fails {wr : Writer} {cells : Fin h → Fin w → ScreenChar} (hb : Holds wr.buf cells)
    (hw : 0 < w) (hwh : w < h) (b' : VgaTextBuffer) : wr.moveUp ≠ .ok b' := by
  intro hloop
  obtain ⟨k, rfl⟩ : ∃ k, h = k + 2 := ⟨h - 2, by omega⟩
  rw [Writer.moveUp, hb.height, hb.width, show k + 2 - 1 = k + 1 by omega, List.range_succ,
    List.foldlM_append] at hloop
  obtain ⟨b₁, hfirst, hlast⟩ := bind_eq_ok.mp hloop
  have hsize : SameSize wr.buf b₁ := by
    refine foldlM_preserves (P := SameSize wr.buf) (fun y _ b b' hP hstep => ?_) ⟨rfl, rfl, rfl⟩
      hfirst
    refine foldlM_preserves (P := SameSize wr.buf) (fun x _ b b' hP hstep => ?_) hP hstep
    obtain ⟨-, hsame⟩ := copy_eq_ok hstep
    exact ⟨hsame.width.trans hP.width, hsame.height.trans hP.height,
      hsame.length.trans hP.length⟩
  rw [List.foldlM_cons] at hlast
  obtain ⟨b₂, hrow, -⟩ := bind_eq_ok.mp hlast
  obtain ⟨n, rfl⟩ : ∃ n, w = n + 1 := ⟨w - 1, by omega⟩
  rw [List.range_succ_eq_map, List.foldlM_cons] at hrow
  obtain ⟨b₃, hcopy, -⟩ := bind_eq_ok.mp hrow
  obtain ⟨hlt, -⟩ := copy_eq_ok hcopy
  rw [hsize.width, hsize.length, hb.cells.length, hb.width] at hlt
  have hmul : (n + 1) * (k + 2) = (k + 1) * (n + 1) + (n + 1) := by
    rw [Nat.mul_comm]
    exact Nat.succ_mul (k + 1) (n + 1)
  omega

/-- The last row is blanked. -/
theorem Holds.blankLast {wr : Writer} {cells : Fin h → Fin w → ScreenChar}
    (hb : Holds wr.buf cells) (hh : 0 < h) :
    ∃ b', wr.blankLast = .ok b' ∧ Holds b' fun y x =>
      if y.val + 1 < h then cells y x else ⟨' '.toUInt8, .new wr.fgColor wr.bgColor⟩ := by
  obtain ⟨b', hloop, hb'⟩ := hb.fillRow ⟨h - 1, Nat.sub_one_lt_of_lt hh⟩
    ⟨' '.toUInt8, .new wr.fgColor wr.bgColor⟩
    (f := fun b x => b.set x (h - 1) ' '.toUInt8 wr.fgColor wr.bgColor)
    fun b₁ cells' x hb₁ _ => hb₁.set ⟨h - 1, Nat.sub_one_lt_of_lt hh⟩ x _ _ _
  refine ⟨b', ?_, hb'.congr fun y x => ?_⟩
  · rw [Writer.blankLast, hb.width, hb.height]
    exact hloop
  · by_cases hy : y.val + 1 < h
    · rw [if_pos hy, if_neg]
      rintro rfl
      dsimp only at hy
      omega
    · rw [if_neg hy, if_pos (Fin.ext (by dsimp only; omega))]

/-- **A newline** of the writer smears the rows, if they move up. -/
theorem Holds.newLine {wr : Writer} {s : Screen w h} (hb : Holds wr.buf s.cells)
    (hy : wr.y = s.row.val) (hcolor : ColorCode.new wr.fgColor wr.bgColor = s.color)
    (hwh : ¬ s.row.val + 1 < h → h ≤ w) :
    ∃ wr', wr.newLine = .ok wr' ∧ Shows wr' (s.newLine Screen.smeared) := by
  rw [Writer.newLine]
  dsimp only
  rw [hy, hb.height, Screen.newLine]
  by_cases hrow : s.row.val + 1 < h
  · rw [if_neg (Nat.not_le.mpr hrow), dif_pos hrow]
    exact ⟨_, rfl, hb, rfl, rfl, hcolor⟩
  · have hlast := s.row.isLt
    rw [if_pos (Nat.not_lt.mp hrow), dif_neg hrow]
    obtain ⟨b₁, hup, hb₁⟩ :=
      @Shows.moveUp w h { wr with x := 0, y := s.row.val + 1 } s hb (hwh hrow)
    rw [hup, ok_bind]
    obtain ⟨b₂, hblank, hb₂⟩ :=
      @Holds.blankLast w h { wr with x := 0, y := s.row.val + 1, buf := b₁ } _ hb₁ (by omega)
    rw [hblank, ok_bind]
    refine ⟨_, rfl, hb₂.congr fun y x => ?_, rfl, ?_, hcolor⟩
    · by_cases hnext : y.val + 1 < h
      · rw [if_pos hnext, if_pos hnext]
      · rw [if_neg hnext]
        exact (congrArg _ hcolor).trans (s.smeared_last hnext x).symm
    · change b₂.height - 1 = s.row.val
      rw [hb₂.height]
      omega

/-! ### Characters -/

/-- **A character** is written, with smeared rows if they move up. -/
theorem Shows.writeChar {wr : Writer} {s : Screen w h} (hs : Shows wr s) {ch : Char}
    (hwh : s.ScrollsAt ch → h ≤ w) :
    ∃ wr', wr.writeCharImpl ch = .ok wr' ∧ Shows wr' (s.writeChar Screen.smeared ch) := by
  rw [Writer.writeCharImpl, Screen.writeChar]
  by_cases hnl : ch = '\n'
  · rw [if_pos hnl, if_pos hnl]
    exact hs.holds.newLine hs.y hs.color fun hrow => hwh ⟨hrow, .inl hnl⟩
  · rw [if_neg hnl, if_neg hnl]
    obtain ⟨b', hset, hb'⟩ := hs.holds.set s.row s.col (glyph ch) wr.fgColor wr.bgColor
    rw [hs.color] at hb'
    rw [hs.x, hs.y, hset, ok_bind]
    dsimp only
    rw [hb'.width, Screen.advance]
    have hcol : (s.put ch).col = s.col := rfl
    rw [hcol]
    by_cases hwrap : s.col.val + 1 < w
    · rw [if_neg (Nat.not_le.mpr hwrap), dif_pos hwrap]
      exact ⟨_, rfl, hb', rfl, rfl, hs.color⟩
    · rw [if_pos (Nat.not_lt.mp hwrap), dif_neg hwrap]
      exact @Holds.newLine w h ⟨s.col.val + 1, s.row.val, wr.fgColor, wr.bgColor, b'⟩ (s.put ch)
        hb' rfl hs.color fun hrow => hwh ⟨hrow, .inr hwrap⟩

/-- With more rows than columns, a character that moves the rows up is not written. -/
theorem Shows.writeChar_fails {wr : Writer} {s : Screen w h} (hs : Shows wr s) {ch : Char}
    (hscroll : s.ScrollsAt ch) (hwh : w < h) (wr' : Writer) : wr.writeCharImpl ch ≠ .ok wr' := by
  have hw : 0 < w := Nat.lt_of_le_of_lt (Nat.zero_le _) s.col.isLt
  obtain ⟨hrow, hch⟩ := hscroll
  have hnewLine : ∀ (wr₁ : Writer) (cells : Fin h → Fin w → ScreenChar), Holds wr₁.buf cells →
      wr₁.y = s.row.val → wr₁.newLine ≠ .ok wr' := by
    intro wr₁ cells hb hy hok
    rw [Writer.newLine] at hok
    dsimp only at hok
    rw [hy, hb.height, if_pos (Nat.not_lt.mp hrow)] at hok
    obtain ⟨b₁, hup, -⟩ := bind_eq_ok.mp hok
    exact @moveUp_fails w h { wr₁ with x := 0, y := s.row.val + 1 } _ hb hw hwh b₁ hup
  rw [Writer.writeCharImpl]
  by_cases hnl : ch = '\n'
  · rw [if_pos hnl]
    exact hnewLine wr _ hs.holds hs.y
  · have hwrap := hch.resolve_left hnl
    rw [if_neg hnl]
    obtain ⟨b', hset, hb'⟩ := hs.holds.set s.row s.col (glyph ch) wr.fgColor wr.bgColor
    rw [hs.x, hs.y, hset, ok_bind]
    dsimp only
    rw [hb'.width, if_pos (Nat.not_lt.mp hwrap)]
    exact hnewLine ⟨s.col.val + 1, s.row.val, wr.fgColor, wr.bgColor, b'⟩ _ hb' rfl

/-! ### The two ways to scroll -/

/-- The screen `t` has scrolled by smearing where `s` has moved its rows up: the last row and
the cursor are the same, and a row above the last one is smeared to one cell, which is right if
it should have one cell. -/
structure Smears (s t : Screen w h) : Prop where
  col : t.col = s.col
  row : t.row = s.row
  color : t.color = s.color
  last : ¬ s.row.val + 1 < h
  lastRow : ∀ x, t.cells s.row x = s.cells s.row x
  flat : t.Flat
  above : ∀ y : Fin h, y.val + 1 < h → (∀ x x', s.cells y x = s.cells y x') →
    ∀ x, t.cells y x = s.cells y x

/-- Scrolling smears the rows, where they were right if they have one cell. -/
theorem newLine_smears {s t : Screen w h} (hwh : h ≤ w) (hrow : t.row = s.row)
    (hcolor : t.color = s.color) (hlast : ¬ s.row.val + 1 < h)
    (hrows : ∀ y, (∀ x x', s.cells y x = s.cells y x') → ∀ x, t.cells y x = s.cells y x) :
    Smears (s.newLine Screen.movedUp) (t.newLine Screen.smeared) := by
  have hs : s.newLine Screen.movedUp = { s with cells := s.movedUp, col := s.firstCol } :=
    dif_neg hlast
  have ht : t.newLine Screen.smeared = { t with cells := t.smeared, col := t.firstCol } :=
    dif_neg (by rwa [hrow])
  have hrow' := s.row.isLt
  rw [hs, ht]
  refine ⟨rfl, hrow, hcolor, hlast, fun x => ?_, fun y hy x x' => ?_, fun y hy hconst x => ?_⟩
  · dsimp only
    rw [t.smeared_last hlast, s.movedUp_last hlast, Screen.blank, Screen.blank, hcolor]
  · exact (t.smeared_of_lt hy (by omega) x).trans (t.smeared_of_lt hy (by omega) x').symm
  · dsimp only at hconst ⊢
    simp only [s.movedUp_of_lt hy] at hconst ⊢
    exact ((t.smeared_of_lt hy (by omega) x).trans (hrows _ hconst _)).trans (hconst _ _)

/-- A character in the last row leaves the rows above it. -/
theorem Smears.put {s t : Screen w h} (hst : Smears s t) (ch : Char) :
    Smears (s.put ch) (t.put ch) := by
  have hne : ∀ y : Fin h, y.val + 1 < h → y ≠ s.row := by
    rintro y hy rfl
    exact hst.last hy
  have hcells : (t.put ch).cells = setCell t.cells s.row s.col ⟨glyph ch, s.color⟩ := by
    rw [Screen.put, hst.row, hst.col, hst.color]
  have habove : ∀ (cells : Fin h → Fin w → ScreenChar) (y : Fin h) (x : Fin w), y.val + 1 < h →
      setCell cells s.row s.col ⟨glyph ch, s.color⟩ y x = cells y x :=
    fun _ y _ hy => if_neg fun hcell => hne y hy hcell.1
  refine ⟨hst.col, hst.row, hst.color, hst.last, fun x => ?_, fun y hy x x' => ?_,
    fun y hy hconst x => ?_⟩
  · rw [hcells]
    exact if_congr Iff.rfl rfl (hst.lastRow x)
  · rw [hcells, habove _ _ _ hy, habove _ _ _ hy]
    exact hst.flat y hy x x'
  · have hput : ∀ x, (s.put ch).cells y x = s.cells y x := fun x => habove _ _ _ hy
    simp only [hput] at hconst ⊢
    rw [hcells, habove _ _ _ hy]
    exact hst.above y hy hconst x

/-- Smeared rows stay smeared. -/
theorem Smears.newLine {s t : Screen w h} (hst : Smears s t) (hwh : h ≤ w) :
    Smears (s.newLine Screen.movedUp) (t.newLine Screen.smeared) := by
  refine newLine_smears hwh hst.row hst.color hst.last fun y hconst x => ?_
  by_cases hy : y.val + 1 < h
  · exact hst.above y hy hconst x
  · have hlast := hst.last
    have hrow := s.row.isLt
    obtain rfl : y = s.row := Fin.ext (by omega)
    exact hst.lastRow x

/-- Smeared rows stay smeared when a character is written. -/
theorem Smears.writeChar {s t : Screen w h} (hst : Smears s t) (hwh : h ≤ w) (ch : Char) :
    Smears (s.writeChar Screen.movedUp ch) (t.writeChar Screen.smeared ch) := by
  unfold Screen.writeChar
  by_cases hnl : ch = '\n'
  · rw [if_pos hnl, if_pos hnl]
    exact hst.newLine hwh
  · rw [if_neg hnl, if_neg hnl]
    have hput := hst.put ch
    have hcol : (t.put ch).col = (s.put ch).col := hput.col
    unfold Screen.advance
    by_cases hwrap : (s.put ch).col.val + 1 < w
    · rw [dif_pos hwrap, dif_pos (by rwa [hcol])]
      exact ⟨Fin.ext (by dsimp only; rw [hcol]), hput.row, hput.color, hput.last, hput.lastRow,
        hput.flat, hput.above⟩
    · rw [dif_neg hwrap, dif_neg (by rwa [hcol])]
      exact hput.newLine hwh

/-- A character that moves the rows up smears them. -/
theorem Screen.ScrollsAt.smears {s : Screen w h} {ch : Char} (hscroll : s.ScrollsAt ch)
    (hwh : h ≤ w) : Smears (s.writeChar movedUp ch) (s.writeChar smeared ch) := by
  obtain ⟨hlast, hch⟩ := hscroll
  unfold writeChar
  by_cases hnl : ch = '\n'
  · rw [if_pos hnl, if_pos hnl]
    exact newLine_smears hwh rfl rfl hlast fun _ _ _ => rfl
  · have hwrap : ¬ (s.put ch).col.val + 1 < w := hch.resolve_left hnl
    rw [if_neg hnl, if_neg hnl, advance, advance, dif_neg hwrap, dif_neg hwrap]
    exact newLine_smears hwh rfl rfl hlast fun _ _ _ => rfl

/-- A character that does not move the rows up is the same. -/
theorem Screen.writeChar_eq {s : Screen w h} {ch : Char} (hno : ¬ s.ScrollsAt ch) :
    s.writeChar smeared ch = s.writeChar movedUp ch := by
  unfold writeChar
  by_cases hnl : ch = '\n'
  · have hrow : s.row.val + 1 < h := Decidable.not_not.mp fun hrow => hno ⟨hrow, .inl hnl⟩
    rw [if_pos hnl, if_pos hnl, newLine, newLine, dif_pos hrow, dif_pos hrow]
  · rw [if_neg hnl, if_neg hnl, advance, advance]
    by_cases hwrap : (s.put ch).col.val + 1 < w
    · rw [dif_pos hwrap, dif_pos hwrap]
    · have hrow : (s.put ch).row.val + 1 < h :=
        Decidable.not_not.mp fun hrow => hno ⟨hrow, .inr hwrap⟩
      rw [dif_neg hwrap, dif_neg hwrap, newLine, newLine, dif_pos hrow, dif_pos hrow]

/-! ### Strings -/

/-- Smeared rows stay smeared when a string is written. -/
theorem Smears.writeStr {s t : Screen w h} (hst : Smears s t) (hwh : h ≤ w) (str : List Char) :
    Smears (s.writeStr Screen.movedUp str) (t.writeStr Screen.smeared str) := by
  induction str generalizing s t with
  | nil => exact hst
  | cons ch str ih => exact ih (hst.writeChar hwh ch)

/-- A string that moves the rows up smears them. -/
theorem Screen.Scrolls.smears {s : Screen w h} {str : List Char} (hscrolls : s.Scrolls str)
    (hwh : h ≤ w) : Smears (s.writeStr movedUp str) (s.writeStr smeared str) := by
  induction str generalizing s with
  | nil => exact hscrolls.elim
  | cons ch str ih =>
      by_cases hscroll : s.ScrollsAt ch
      · exact (hscroll.smears hwh).writeStr hwh str
      · have hrest := ih (hscrolls.resolve_left hscroll)
        rw [← writeChar_eq hscroll] at hrest
        rw [writeStr, writeStr, List.foldl_cons, List.foldl_cons, ← writeChar_eq hscroll]
        exact hrest

/-- With no more rows than columns, a string is written with smeared rows. -/
theorem Shows.writeChars {wr : Writer} {s : Screen w h} (hs : Shows wr s) (hwh : h ≤ w)
    (str : List Char) :
    ∃ wr', wr.writeChars str = .ok wr' ∧ Shows wr' (s.writeStr Screen.smeared str) := by
  induction str generalizing wr s with
  | nil => exact ⟨wr, rfl, hs⟩
  | cons ch str ih =>
      obtain ⟨wr₁, hch, hs₁⟩ := hs.writeChar fun (_ : s.ScrollsAt ch) => hwh
      obtain ⟨wr₂, hrest, hs₂⟩ := ih hs₁
      refine ⟨wr₂, ?_, hs₂⟩
      rw [Writer.writeChars, List.foldlM_cons, hch, ok_bind]
      exact hrest

/-- A string that does not move the rows up is written as it should. -/
theorem Shows.writeChars_of_not_scrolls {wr : Writer} {s : Screen w h} (hs : Shows wr s)
    {str : List Char} (hno : ¬ s.Scrolls str) :
    ∃ wr', wr.writeChars str = .ok wr' ∧ Shows wr' (s.writeStr Screen.movedUp str) := by
  induction str generalizing wr s with
  | nil => exact ⟨wr, rfl, hs⟩
  | cons ch str ih =>
      have hnot : ¬ s.ScrollsAt ch := fun hscroll => hno (.inl hscroll)
      obtain ⟨wr₁, hch, hs₁⟩ := hs.writeChar fun hscroll => absurd hscroll hnot
      rw [Screen.writeChar_eq hnot] at hs₁
      obtain ⟨wr₂, hrest, hs₂⟩ := ih hs₁ fun hscrolls => hno (.inr hscrolls)
      refine ⟨wr₂, ?_, hs₂⟩
      rw [Writer.writeChars, List.foldlM_cons, hch, ok_bind]
      exact hrest

/-- With more rows than columns, a string that moves the rows up is not written. -/
theorem Shows.writeChars_fails {wr : Writer} {s : Screen w h} (hs : Shows wr s)
    {str : List Char} (hscrolls : s.Scrolls str) (hwh : w < h) (wr' : Writer) :
    wr.writeChars str ≠ .ok wr' := by
  intro hok
  induction str generalizing wr s with
  | nil => exact hscrolls
  | cons ch str ih =>
      rw [Writer.writeChars, List.foldlM_cons] at hok
      obtain ⟨wr₁, hch, hrest⟩ := bind_eq_ok.mp hok
      by_cases hscroll : s.ScrollsAt ch
      · exact hs.writeChar_fails hscroll hwh wr₁ hch
      · obtain ⟨wr₂, hch', hs₂⟩ := hs.writeChar fun h => absurd h hscroll
        obtain rfl : wr₁ = wr₂ := Except.ok.inj (hch.symm.trans hch')
        rw [Screen.writeChar_eq hscroll] at hs₂
        exact ih hs₂ (hscrolls.resolve_left hscroll) hrest

/-- The cursor of the hardware is moved to where the writer is. -/
theorem Shows.moveCursor {wr : Writer} {s : Screen w h} (hs : Shows wr s) :
    ∃ buf, wr.buf.moveCursor wr.x wr.y = .ok buf ∧ Shows { wr with buf := buf } s := by
  have hx : wr.x < wr.buf.width := by
    rw [hs.x, hs.holds.width]
    exact s.col.isLt
  have hy : wr.y < wr.buf.height := by
    rw [hs.y, hs.holds.height]
    exact s.row.isLt
  rw [VgaTextBuffer.moveCursor, ensure_pos hx, ok_bind, ensure_pos hy, ok_bind]
  exact ⟨_, rfl, ⟨hs.holds.width, hs.holds.height, hs.holds.cells⟩, hs.x, hs.y, hs.color⟩

/-- The string is written without an access out of range, and the screen is then as it should
be. -/
def Keeps (wr : Writer) (s : Screen w h) (str : List Char) : Prop :=
  ∃ wr', wr.writeStr str = .ok wr' ∧ Shows wr' (s.writeStr Screen.movedUp str)

/-- The string is kept if it is written, and its characters leave the screen as it should be. -/
theorem keeps_of_writeChars {wr wr' : Writer} {s : Screen w h} {str : List Char}
    (hok : wr.writeChars str = .ok wr') (hs : Shows wr' (s.writeStr Screen.movedUp str)) :
    Keeps wr s str := by
  obtain ⟨buf, hmove, hs'⟩ := hs.moveCursor
  refine ⟨{ wr' with buf := buf }, ?_, hs'⟩
  rw [Writer.writeStr, hok, ok_bind, hmove]
  rfl

/-- A string keeps the text of the screen that the writer shows exactly if it does not move the
rows up, or if the rows that it moves up are smeared to what they should be. -/
theorem Shows.keeps_iff {wr : Writer} {s : Screen w h} (hs : Shows wr s) (str : List Char) :
    Keeps wr s str ↔
      (s.Scrolls str → h ≤ w ∧ (s.writeStr Screen.movedUp str).Flat) := by
  by_cases hscrolls : s.Scrolls str
  · constructor
    · rintro ⟨wr', hok, hshows⟩ -
      obtain ⟨wr₁, hchars, hmove⟩ := bind_eq_ok.mp hok
      have hwh : h ≤ w := by
        by_contra hlt
        exact hs.writeChars_fails hscrolls (Nat.not_le.mp hlt) wr₁ hchars
      obtain ⟨wr₂, hchars', hs₂⟩ := hs.writeChars hwh str
      obtain rfl : wr₁ = wr₂ := Except.ok.inj (hchars.symm.trans hchars')
      obtain ⟨buf, hmove', hs₃⟩ := hs₂.moveCursor
      rw [hmove', ok_bind] at hmove
      obtain rfl := Except.ok.inj hmove
      have hcells := hs₃.holds.cells.unique hshows.holds.cells
      have hflat := (hscrolls.smears hwh).flat
      rw [Screen.Flat, hcells] at hflat
      exact ⟨hwh, hflat⟩
    · intro hcond
      obtain ⟨hwh, hflat⟩ := hcond hscrolls
      obtain ⟨wr', hchars, hs'⟩ := hs.writeChars hwh str
      have hst := hscrolls.smears hwh
      refine keeps_of_writeChars hchars ⟨hs'.holds.congr fun y x => ?_, ?_, ?_, ?_⟩
      · by_cases hy : y.val + 1 < h
        · exact hst.above y hy (hflat y hy) x
        · have hlast := hst.last
          have hrow := (s.writeStr Screen.movedUp str).row.isLt
          obtain rfl : y = (s.writeStr Screen.movedUp str).row := Fin.ext (by omega)
          exact hst.lastRow x
      · rw [hs'.x, hst.col]
      · rw [hs'.y, hst.row]
      · rw [hs'.color, hst.color]
  · refine iff_of_true ?_ fun h => absurd h hscrolls
    obtain ⟨wr', hchars, hs'⟩ := hs.writeChars_of_not_scrolls hscrolls
    exact keeps_of_writeChars hchars hs'

/-- **A string keeps the text of the screen** exactly if it does not move the rows up, or if
there are no more rows than columns and on the screen as it should be, every row above the last
one has the same cell in all columns. This holds for every size and contents of the buffer, and
every position of the writer on it. -/
theorem writeStr_keeps_iff (wr : Writer)
    (hlength : wr.buf.buf.length = wr.buf.width * wr.buf.height) (hx : wr.x < wr.buf.width)
    (hy : wr.y < wr.buf.height) (str : List Char) :
    ∃ s : Screen wr.buf.width wr.buf.height, Shows wr s ∧
      (Keeps wr s str ↔ (s.Scrolls str →
        wr.buf.height ≤ wr.buf.width ∧ (s.writeStr Screen.movedUp str).Flat)) := by
  obtain ⟨cells, hb⟩ := exists_holds hlength
  have hs : Shows wr ⟨cells, ⟨wr.x, hx⟩, ⟨wr.y, hy⟩, .new wr.fgColor wr.bgColor⟩ :=
    ⟨hb, rfl, rfl, rfl⟩
  exact ⟨_, hs, hs.keeps_iff str⟩

/-- A blank screen of two columns and two rows. -/
def blankTwo : Screen 2 2 :=
  ⟨fun _ _ => ⟨' '.toUInt8, .new .white .black⟩, 0, 0, .new .white .black⟩

/-- The writer of a blank screen of two columns and two rows. -/
def writerTwo : Writer :=
  .new ⟨List.replicate 4 ⟨' '.toUInt8, .new .white .black⟩, 2, 2, (0, 0)⟩

/-- The writer of the blank screen shows it. -/
theorem writerTwo_shows : Shows writerTwo blankTwo :=
  ⟨⟨rfl, rfl, rfl, by decide⟩, rfl, rfl, rfl⟩

/-- The writer shows one screen. -/
theorem Shows.unique {wr : Writer} {s s' : Screen w h} (hs : Shows wr s) (hs' : Shows wr s') :
    s = s' := by
  have hcells := hs.holds.cells.unique hs'.holds.cells
  have hcol : s.col = s'.col := Fin.ext (hs.x.symm.trans hs'.x)
  have hrow : s.row = s'.row := Fin.ext (hs.y.symm.trans hs'.y)
  have hcolor := hs.color.symm.trans hs'.color
  cases s
  cases s'
  congr

/-- A row of one letter moves up as it should. -/
theorem writeStr_keeps_letter : Keeps writerTwo blankTwo ['\n', 'b', 'b'] := by
  obtain ⟨s, hs, hiff⟩ :=
    writeStr_keeps_iff writerTwo rfl (by decide) (by decide) ['\n', 'b', 'b']
  obtain rfl : s = blankTwo := hs.unique writerTwo_shows
  refine hiff.mpr fun _ => ⟨Nat.le_refl 2, ?_⟩
  rw [Screen.Flat]
  decide

/-- **A row of two letters is smeared** when it moves up: the second letter is in both columns.
With more rows than columns, a cell behind the buffer is read. -/
theorem writeStr_smears :
    (writerTwo.writeStr ['\n', 'a', 'b']).map (fun wr => wr.buf.buf.map ScreenChar.ch) =
        .ok ['b'.toUInt8, 'b'.toUInt8, ' '.toUInt8, ' '.toUInt8] ∧
      (blankTwo.writeStr Screen.movedUp ['\n', 'a', 'b']).cells 0 0 =
        ⟨'a'.toUInt8, .new .white .black⟩ ∧
      Shows writerTwo blankTwo ∧ ¬ Keeps writerTwo blankTwo ['\n', 'a', 'b'] ∧
      panicOf ((Writer.new ⟨List.replicate 2 ⟨' '.toUInt8, .new .white .black⟩, 1, 2,
        (0, 0)⟩).writeStr ['\n', '\n']) = some .outOfRange := by
  refine ⟨by rfl, by rfl, writerTwo_shows, ?_, by rfl⟩
  rintro ⟨wr', hok, hshows⟩
  have hcell : (writerTwo.writeStr ['\n', 'a', 'b']).map (fun wr => wr.buf.buf[0]?) =
      .ok (some ⟨'b'.toUInt8, .new .white .black⟩) := by rfl
  have hshown : wr'.buf.buf[0]? = some ⟨'a'.toUInt8, .new .white .black⟩ :=
    hshows.holds.cells.get 0 0
  rw [hok] at hcell
  have hboth := hshown.symm.trans (Except.ok.inj hcell)
  exact absurd hboth (by decide)

/-! ### The panic screen -/

/-- A blank screen in the colors of the panic screen. -/
def panicScreen (hw : 0 < w) (hh : 0 < h) : Screen w h :=
  ⟨fun _ _ => ⟨' '.toUInt8, .new .white .red⟩, ⟨0, hw⟩, ⟨0, hh⟩, .new .white .red⟩

/-- **The panic screen** shows the text of the panic as it should exactly if the text does not
move the rows up, or if every row that it leaves above the last one has the same cell in all
columns, with no more rows than columns. -/
theorem showPanicCrashScreen_iff {b : VgaTextBuffer} {cells : Fin h → Fin w → ScreenChar}
    (hb : Holds b cells) (hw : 0 < w) (hh : 0 < h) (info : List Char) :
    (∃ wr, showPanicCrashScreen b info = .ok wr ∧
        Shows wr ((panicScreen hw hh).writeStr Screen.movedUp info)) ↔
      ((panicScreen hw hh).Scrolls info →
        h ≤ w ∧ ((panicScreen hw hh).writeStr Screen.movedUp info).Flat) := by
  obtain ⟨b₁, hclear, hb₁⟩ := hb.clear .white .red
  have hs : Shows ⟨0, 0, .white, .red, b₁⟩ (panicScreen hw hh) := ⟨hb₁, rfl, rfl, rfl⟩
  obtain ⟨b₂, hmove, hs₂⟩ := hs.moveCursor
  have hscreen : showPanicCrashScreen b info = (Writer.mk 0 0 .white .red b₂).writeStr info := by
    rw [showPanicCrashScreen, Writer.clear, Writer.setColor, Writer.new]
    dsimp only
    rw [hclear, ok_bind, hmove]
    rfl
  rw [hscreen]
  exact hs₂.keeps_iff info

end HydroxKernel.Vga
