import OSLib.Print.Cells
import OSLib.Foundation.Stores

/-!
# The screen as a grid of text

An abstract terminal keeps which character each cell shows, for the cells it has written, and a
cursor.  The frame buffer renders it over the pixels that were there before: the pixels of a written
cell are the bits of its character's glyph, most significant bit leftmost, and every other pixel is
the old one.  Printing a byte keeps that, since the cells of the grid share no pixel, and so does
printing a text without tabs and backspaces.

The terminal knows nothing of pixels, fonts or `int32`, and `Renders` is the relation between it and
the frame buffer: one step lemma for a byte, and a run by induction on the text.  Tabs and
backspaces are left to `Cells` and `Backspace`, since what they do to the pixels is not what a
terminal would do.
-/

namespace OSLib
namespace Print

/-! ## The abstract terminal -/

/-- A terminal of `columns` by `rows` cells.  A cell that has not been written shows nothing. -/
structure TextGrid where
  columns : ℤ
  rows : ℤ
  cells : ℤ → ℤ → Option (BitVec 8)
  col : ℤ
  row : ℤ

namespace TextGrid

variable (t : TextGrid)

/-- A terminal with nothing written. -/
def start (columns rows col row : ℤ) : TextGrid := ⟨columns, rows, fun _ _ => none, col, row⟩

/-- Going to the next row, or from the last row back to the first. -/
def newRow : TextGrid := { t with col := 0, row := if t.row + 1 = t.rows then 0 else t.row + 1 }

/-- Going to the next cell. -/
def advance : TextGrid := if t.col + 1 = t.columns then t.newRow else { t with col := t.col + 1 }

/-- Writing a character at the cursor. -/
def write (c : BitVec 8) : TextGrid :=
  { t with cells := fun x y => if x = t.col ∧ y = t.row then some c else t.cells x y }

/-- What a byte does. -/
def put (c : BitVec 8) : TextGrid := if c = newlineChar then t.newRow else (t.write c).advance

/-- The cell has been written. -/
def Written (x y : ℤ) : Prop := (t.cells x y).isSome

end TextGrid

/-! ## The screen -/

/-- `Pos` and the frame buffer. -/
structure Screen where
  pos : Position
  pixels : ℤ → Color

/-- `__print_char` with the pixels it writes. -/
def Screen.printChar (font : Font) (frColor bkColor : Color) (s : Screen) (c : BitVec 8) : Screen :=
  ⟨(s.pos.printChar c).1,
    (s.pos.printChar c).2.foldl
      (fun px q => stores px (putchar font s.pos.xResolution frColor bkColor q)) s.pixels⟩

theorem Screen.printChar_pos (font : Font) (frColor bkColor : Color) (s : Screen) (c : BitVec 8) :
    (s.printChar font frColor bkColor c).pos = (s.pos.printChar c).1 := by
  rw [Screen.printChar]

theorem Screen.printChar_pixels (font : Font) (frColor bkColor : Color) (s : Screen)
    (c : BitVec 8) :
    (s.printChar font frColor bkColor c).pixels = (s.pos.switch c).2.foldl
      (fun px q => stores px (putchar font s.pos.xResolution frColor bkColor q)) s.pixels := by
  unfold Screen.printChar Position.printChar
  rfl

/-- A text, byte by byte. -/
def Screen.print (font : Font) (frColor bkColor : Color) (s : Screen) (text : List (BitVec 8)) :
    Screen :=
  text.foldl (Screen.printChar font frColor bkColor) s

/-! ## Rendering -/

/-- The pixel in row `i` and column `j` of the glyph in a cell. -/
def cellPixel (xRes x y : ℤ) (i j : ℕ) : ℤ := xRes * (16 * y + i) + (8 * x + j)

/-- The colour of a pixel of a glyph, the most significant bit of a row being the leftmost. -/
def glyphColor (font : Font) (frColor bkColor : Color) (c : BitVec 8) (i j : ℕ) : Color :=
  if (font c i).getMsbD j then frColor else bkColor

/-- The pixels show the terminal over what was there before. -/
structure Renders (font : Font) (frColor bkColor : Color) (xRes : ℤ) (prior : ℤ → Color)
    (t : TextGrid) (pixels : ℤ → Color) : Prop where
  written : ∀ x y c, t.cells x y = some c → ∀ i < 16, ∀ j < 8,
    pixels (cellPixel xRes x y i j) = glyphColor font frColor bkColor c i j
  other : ∀ o, (∀ x y, t.Written x y → ∀ i < 16, ∀ j < 8, o ≠ cellPixel xRes x y i j) →
    pixels o = prior o

variable {font : Font} {frColor bkColor : Color} {p : Position} {s : Screen} {t : TextGrid}
  {prior : ℤ → Color} {c : BitVec 8}

/-! ## Cells share no pixel -/

theorem cellPixel_inj {xRes x y x' y' : ℤ} {i j i' j' : ℕ} (hx : 0 ≤ x ∧ x < xRes / 8)
    (hx' : 0 ≤ x' ∧ x' < xRes / 8) (hi : i < 16) (hi' : i' < 16) (hj : j < 8) (hj' : j' < 8)
    (h : cellPixel xRes x y i j = cellPixel xRes x' y' i' j') :
    x = x' ∧ y = y' ∧ i = i' ∧ j = j' := by
  have hline {x y : ℤ} {i j : ℕ} (hx : 0 ≤ x ∧ x < xRes / 8) (hj : j < 8) :
      cellPixel xRes x y i j / xRes = 16 * y + i := by
    unfold cellPixel
    rw [Int.mul_add_ediv_left _ _ (by omega : xRes ≠ 0),
      Int.ediv_eq_zero_of_lt (by omega) (by omega),
      Int.add_zero]
  have hrow : 16 * y + i = 16 * y' + (i' : ℤ) := by rw [← hline hx hj, h, hline hx' hj']
  unfold cellPixel at h
  rw [hrow] at h
  omega

/-- The bit a round of the inner loop tests. -/
theorem testval_iff (g : BitVec 8) {j : ℕ} (hj : j < 8) :
    g.setWidth 32 &&& 0x100#32 >>> (j + 1) ≠ 0 ↔ g.getMsbD j = true := by
  have hmask : ∀ j < 8, 0x100#32 >>> (j + 1) = BitVec.twoPow 32 (7 - j) ∧
      BitVec.twoPow 32 (7 - j) ≠ 0 := by decide
  obtain ⟨htwoPow, hne⟩ := hmask j hj
  rw [htwoPow, BitVec.and_twoPow, BitVec.getLsbD_setWidth, BitVec.getMsbD_eq_getLsbD,
    decide_eq_true hj, decide_eq_true (by omega : 7 - j < 32), Bool.true_and]
  split
  · next hbit => exact iff_of_true hne hbit
  · next hbit => exact iff_of_false (fun h => h rfl) hbit

/-- The pixels `__putchar` writes when it draws a cell. -/
theorem mem_putchar {q : Put} {x y : ℤ} (h : p.DrawsCell q x y) {w : ℤ × Color} :
    w ∈ putchar font p.xResolution frColor bkColor q ↔
      ∃ i < 16, ∃ j < 8, w = (cellPixel p.xResolution.toInt x y i j,
        glyphColor font frColor bkColor q.char i j) := by
  unfold putchar
  simp only [List.mem_flatMap, List.mem_map, List.mem_range]
  refine exists_congr fun i => and_congr_right fun hi => exists_congr fun j =>
    and_congr_right fun hj => ?_
  have hcolor : (if (font q.char i).setWidth 32 &&& 0x100#32 >>> (j + 1) ≠ 0 then frColor
      else bkColor) = glyphColor font frColor bkColor q.char i j := by
    unfold glyphColor
    simp only [testval_iff (font q.char i) hj]
  rw [h.pixel i hi j hj, hcolor]
  exact eq_comm

/-! ## One byte -/

/-- Only cells of the grid have been written. -/
def TextGrid.Bounded (t : TextGrid) : Prop := ∀ x y, t.Written x y → 0 ≤ x ∧ x < t.columns

theorem written_write {x y : ℤ} :
    (t.write c).Written x y ↔ x = t.col ∧ y = t.row ∨ t.Written x y := by
  unfold TextGrid.Written TextGrid.write
  simp only
  split
  · next h => exact iff_of_true rfl (.inl h)
  · next h => exact ⟨.inr, fun hor => hor.resolve_left h⟩

theorem TextGrid.Bounded.write (h : t.Bounded) (hcol : 0 ≤ t.col ∧ t.col < t.columns) :
    (t.write c).Bounded := by
  intro x y hxy
  rcases written_write.mp hxy with ⟨rfl, -⟩ | hold
  · exact hcol
  · exact h x y hold

/-- **Drawing the cell at the cursor writes it.** -/
theorem Renders.write {px : ℤ → Color} {q : Put}
    (h : Renders font frColor bkColor p.xResolution.toInt prior t px) (hb : t.Bounded)
    (hcols : t.columns = p.columns) (hcol : 0 ≤ t.col ∧ t.col < t.columns)
    (hdraws : p.DrawsCell q t.col t.row) :
    Renders font frColor bkColor p.xResolution.toInt prior (t.write q.char)
      (stores px (putchar font p.xResolution frColor bkColor q)) := by
  rw [Position.columns] at hcols
  refine ⟨fun x y c hc i hi j hj => ?_, fun o ho => ?_⟩
  · by_cases hcur : x = t.col ∧ y = t.row
    · obtain ⟨rfl, rfl⟩ := hcur
      have hchar : q.char = c := by
        unfold TextGrid.write at hc
        simp only [true_and, if_true] at hc
        exact Option.some.inj hc
      rw [← hchar]
      refine stores_of_mem ((mem_putchar hdraws).mpr ⟨i, hi, j, hj, rfl⟩) fun w hw hpix => ?_
      obtain ⟨i', hi', j', hj', rfl⟩ := (mem_putchar hdraws).mp hw
      obtain ⟨-, -, rfl, rfl⟩ :=
        cellPixel_inj (hcols ▸ hcol) (hcols ▸ hcol) hi' hi hj' hj hpix
      rfl
    · have hold : t.cells x y = some c := by
        unfold TextGrid.write at hc
        simpa only [if_neg hcur] using hc
      have hxy : t.Written x y := by rw [TextGrid.Written, hold]; rfl
      rw [stores_of_forall_ne]
      · exact h.written x y c hold i hi j hj
      · intro w hw hpix
        obtain ⟨i', hi', j', hj', rfl⟩ := (mem_putchar hdraws).mp hw
        obtain ⟨hx, hy, -⟩ :=
          cellPixel_inj (hcols ▸ hcol) (hcols ▸ hb x y hxy) hi' hi hj' hj hpix
        exact hcur ⟨hx.symm, hy.symm⟩
  · rw [stores_of_forall_ne]
    · exact h.other o fun x y hxy => ho x y (written_write.mpr (.inr hxy))
    · intro w hw hpix
      obtain ⟨i, hi, j, hj, rfl⟩ := (mem_putchar hdraws).mp hw
      exact ho t.col t.row (written_write.mpr (.inl ⟨rfl, rfl⟩)) i hi j hj hpix.symm

/-- The screen shows the terminal, and the two cursors are one. -/
structure Shows (font : Font) (frColor bkColor : Color) (prior : ℤ → Color) (s : Screen)
    (t : TextGrid) : Prop where
  geometry : Geometry s.pos
  fits : FrameFits s.pos
  inGrid : s.pos.InGrid
  columns : t.columns = s.pos.columns
  rows : t.rows = s.pos.rows
  cursor : s.pos.cursor = (t.col, t.row)
  bounded : t.Bounded
  renders : Renders font frColor bkColor s.pos.xResolution.toInt prior t s.pixels

/-- A new row is a carry. -/
theorem cursor_newRow (hcols : 1 ≤ t.columns) (hrow : t.row < t.rows) :
    carry t.columns t.rows (0, t.row + 1) = (t.newRow.col, t.newRow.row) := by
  unfold carry TextGrid.newRow
  simp only
  rw [if_neg (by omega)]
  refine Prod.ext rfl ?_
  simp only
  split <;> split <;> omega

theorem cursor_advance_grid (hcol : t.col < t.columns) (hrow : t.row < t.rows) :
    carry t.columns t.rows (t.col + 1, t.row) = (t.advance.col, t.advance.row) := by
  unfold carry TextGrid.advance TextGrid.newRow
  by_cases hlast : t.col + 1 = t.columns
  · rw [if_pos hlast]
    simp only
    rw [if_pos (by omega)]
    refine Prod.ext rfl ?_
    simp only
    split <;> split <;> omega
  · rw [if_neg hlast]
    simp only
    rw [if_neg (by omega), if_neg (by omega)]

/-- Terminals that differ in their cursors. -/
structure TextGrid.SameCells (t t' : TextGrid) : Prop where
  columns : t'.columns = t.columns
  rows : t'.rows = t.rows
  cells : t'.cells = t.cells

theorem sameCells_newRow (t : TextGrid) : t.SameCells t.newRow := ⟨rfl, rfl, rfl⟩

theorem sameCells_advance (t : TextGrid) : t.SameCells t.advance := by
  unfold TextGrid.advance
  split
  · exact sameCells_newRow t
  · exact ⟨rfl, rfl, rfl⟩

/-- The screen after a byte, from what was drawn and where the cursors went. -/
theorem Shows.moved {s' : Screen} {t₁ t' : TextGrid} {x y : Int32}
    (h : Shows font frColor bkColor prior s t) (hgrid : s'.pos.InGrid)
    (hpos : s'.pos = s.pos.moved x y)
    (hsame : t₁.SameCells t') (hcols : t₁.columns = t.columns) (hrows : t₁.rows = t.rows)
    (hcursor : s'.pos.cursor = (t'.col, t'.row)) (hbound : t₁.Bounded)
    (hrenders : Renders font frColor bkColor s.pos.xResolution.toInt prior t₁ s'.pixels) :
    Shows font frColor bkColor prior s' t' := by
  obtain ⟨p', px⟩ := s'
  obtain ⟨columns, rows, cells, col, row⟩ := t'
  simp only at hpos
  subst hpos
  obtain rfl : cells = t₁.cells := hsame.cells
  obtain rfl : columns = t₁.columns := hsame.columns
  obtain rfl : rows = t₁.rows := hsame.rows
  exact ⟨h.geometry.moved x y, h.fits, hgrid, hcols.trans h.columns, hrows.trans h.rows, hcursor,
    hbound, hrenders.written, hrenders.other⟩

/-- **One byte.** -/
theorem Shows.printChar (h : Shows font frColor bkColor prior s t) (hc : c ≠ backspaceChar)
    (ht : c ≠ tabChar) :
    Shows font frColor bkColor prior (s.printChar font frColor bkColor c) (t.put c) := by
  have hcursor := cursor_printChar h.inGrid h.geometry c
  obtain ⟨x, y, hpos⟩ := printChar_moved s.pos c
  have hgrid := inGrid_printChar h.inGrid h.geometry c
  have hin := inGrid_iff.mp h.inGrid
  have hrow := h.fits.rowFits h.geometry hin.2.2.2
  have hdraws := drawsCell_put h.inGrid h.geometry hrow c
  rw [h.cursor, ← h.columns, ← h.rows] at hin hcursor
  rw [h.cursor] at hdraws
  have hcols : 1 ≤ t.columns := by rw [h.columns]; exact h.geometry.columns_bounds.1
  have hpixels := s.printChar_pixels font frColor bkColor c
  rw [← s.printChar_pos font frColor bkColor c] at hcursor hpos hgrid
  unfold move at hcursor
  unfold Position.switch at hpixels
  unfold TextGrid.put
  by_cases hnew : c = newlineChar
  · rw [if_pos hnew] at hcursor hpixels ⊢
    rw [cursor_newRow hcols hin.2.2.2] at hcursor
    simp only [List.foldl_nil] at hpixels
    refine h.moved hgrid hpos (sameCells_newRow t) rfl rfl hcursor h.bounded ?_
    rw [hpixels]
    exact h.renders
  · rw [if_neg hnew, if_neg hc, if_neg ht] at hcursor hpixels
    simp only [List.foldl_cons, List.foldl_nil] at hpixels
    rw [if_neg hnew]
    have hadv := cursor_advance_grid (t := t.write c) hin.2.1 hin.2.2.2
    refine h.moved hgrid hpos (sameCells_advance (t.write c)) rfl rfl (hcursor.trans hadv)
      (h.bounded.write ⟨hin.1, hin.2.1⟩) ?_
    rw [hpixels]
    exact h.renders.write h.bounded h.columns ⟨hin.1, hin.2.1⟩ hdraws

/-! ## Whole texts -/

theorem Shows.print (h : Shows font frColor bkColor prior s t) {text : List (BitVec 8)}
    (htext : ∀ c ∈ text, c ≠ backspaceChar ∧ c ≠ tabChar) :
    Shows font frColor bkColor prior (s.print font frColor bkColor text)
      (text.foldl TextGrid.put t) := by
  induction text generalizing s t with
  | nil => exact h
  | cons c text ih =>
    obtain ⟨⟨hc, ht⟩, htext⟩ := List.forall_mem_cons.mp htext
    exact ih (h.printChar hc ht) htext

theorem print_moved (font : Font) (frColor bkColor : Color) (s : Screen) (text : List (BitVec 8)) :
    ∃ x y, (s.print font frColor bkColor text).pos = s.pos.moved x y := by
  induction text generalizing s with
  | nil => exact ⟨s.pos.xPosition, s.pos.yPosition, rfl⟩
  | cons c text ih =>
    obtain ⟨x, y, hprint⟩ := ih (s.printChar font frColor bkColor c)
    obtain ⟨x', y', hchar⟩ := printChar_moved s.pos c
    rw [← s.printChar_pos font frColor bkColor c] at hchar
    rw [hchar] at hprint
    exact ⟨x, y, hprint⟩

/-- **Printing a text renders it.**  From any cursor inside the grid and over any pixels, a text
without backspaces and tabs leaves the frame buffer showing the terminal that received it, and the
cursor where the terminal has its own. -/
theorem print_renders (font : Font) (frColor bkColor : Color) (prior : ℤ → Color)
    (hg : Geometry p) (hf : FrameFits p) (h : p.InGrid) {text : List (BitVec 8)}
    (htext : ∀ c ∈ text, c ≠ backspaceChar ∧ c ≠ tabChar) :
    let t := text.foldl TextGrid.put
      (TextGrid.start p.columns p.rows p.xPosition.toInt p.yPosition.toInt)
    let s := Screen.print font frColor bkColor ⟨p, prior⟩ text
    Renders font frColor bkColor p.xResolution.toInt prior t s.pixels ∧
      s.pos.cursor = (t.col, t.row) := by
  have hstart : Shows font frColor bkColor prior ⟨p, prior⟩
      (TextGrid.start p.columns p.rows p.xPosition.toInt p.yPosition.toInt) :=
    ⟨hg, hf, h, rfl, rfl, rfl, fun _ _ hw => Bool.noConfusion hw,
      ⟨fun _ _ _ hc => by simp [TextGrid.start] at hc, fun _ _ => rfl⟩⟩
  have hend := (hstart.print htext).renders
  obtain ⟨x, y, hpos⟩ := print_moved font frColor bkColor ⟨p, prior⟩ text
  rw [hpos] at hend
  exact ⟨hend, (hstart.print htext).cursor⟩

/-- A character in the lower right corner of the screen `resolution_init` sets, and then another
one, a newline and a third. -/
theorem corner_renders :
    let font : Font := fun c _ => c
    let t := [0x41, 0x42, newlineChar, 0x43].foldl TextGrid.put (TextGrid.start 180 56 179 55)
    let s := Screen.print font 0xffffff 0 ⟨resolutionInit.moved 179 55, fun _ => 7⟩
      [0x41, 0x42, newlineChar, 0x43]
    (t.cells 179 55 = some 0x41 ∧ t.cells 0 0 = some 0x42 ∧ t.cells 0 1 = some 0x43) ∧
      Renders font 0xffffff 0 1440 (fun _ => 7) t s.pixels ∧ s.pos.cursor = (t.col, t.row) :=
  ⟨by decide, print_renders _ _ _ _ (geometry_resolutionInit 179 55)
    (by decide : (1440 : ℤ) * 900 ≤ 2 ^ 31)
    ⟨by decide, by decide, by decide, by decide⟩ (by decide)⟩

end Print
end OSLib
