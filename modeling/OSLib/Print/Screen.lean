import OSLib.Foundation.MachineInt
import OSLib.Foundation.Runs
import Mathlib.Data.BitVec

/-!
# `__putchar` and `__print_char`

The frame buffer is an array of pixels; a pixel is named by its distance from `FB_addr`, which may
leave the array on either side.  `printChar` gives the position after a byte and the calls of
`__putchar` it makes, and `putchar` the pixels such a call writes, in the order of its loops.

A cursor inside the grid of `XResolution / XCharSize` columns stays inside whatever is printed, the
range check at the end of `__print_char` sees to that.  Before that check the byte is drawn, and
what is drawn lies in a cell of the grid unless the byte is a backspace that leaves its row, since
the new position is counted in pixels there, or a tab that passes the last column.

The pixels are written one by one, and only their addresses and values matter, so a call is the list
of its stores (`Stores`) and the frame buffer a function of the distance.  What the hardware does
with a pixel outside the visible part is not modelled; such a store is in the list like any other,
and the guard of `Cells` says when there is none.

The lemmas are in two layers.  `carry` and `move` are arithmetic on pairs of integers, the columns
and rows of a grid, and `cursor_printChar` says that the `int32` code computes them from a cursor
inside the grid.  Whatever is shown about cursors afterwards is about the integers.
-/

namespace OSLib
namespace Print

/-- `uint32`, as a colour. -/
abbrev Color := BitVec 32

/-- `font_ascii`: the rows of the glyph of a character. -/
abbrev Font := BitVec 8 → ℕ → BitVec 8

/-- `position_s`.  `FB_addr` is where pixels are counted from. -/
structure Position where
  xResolution : Int32
  yResolution : Int32
  xPosition : Int32
  yPosition : Int32
  xCharSize : Int32
  yCharSize : Int32
  deriving DecidableEq

/-- The arguments `x`, `y` and `font` of a call of `__putchar`. -/
structure Put where
  x : Int32
  y : Int32
  char : BitVec 8
  deriving DecidableEq

/-! ## `__putchar` -/

/-- `addr` in round `i` and `j` of the loops. -/
def pixelAddr (xSize x y : Int32) (i j : ℕ) : ℤ := (xSize * (y + Int32.ofNat i)).toInt + x.toInt + j

/-- `__putchar`: the pixels it writes and their colours. -/
def putchar (font : Font) (xSize : Int32) (frColor bkColor : Color) (q : Put) : List (ℤ × Color) :=
  (List.range 16).flatMap fun i => (List.range 8).map fun j =>
    (pixelAddr xSize q.x q.y i j,
      if (font q.char i).setWidth 32 &&& 0x100#32 >>> (j + 1) ≠ 0 then frColor else bkColor)

/-! ## `__print_char` -/

/-- `'\b'`. -/
def backspaceChar : BitVec 8 := 0x08

/-- `'\t'`. -/
def tabChar : BitVec 8 := 0x09

/-- `'\n'`. -/
def newlineChar : BitVec 8 := 0x0a

/-- `' '`. -/
def blank : BitVec 8 := 0x20

namespace Position

variable (p : Position)

/-- The call of `__putchar` at the position. -/
def put (c : BitVec 8) : Put := ⟨p.xPosition * p.xCharSize, p.yPosition * p.yCharSize, c⟩

/-- The case `'\n'`. -/
def newline : Position := { p with yPosition := p.yPosition + 1, xPosition := 0 }

/-- The case `'\b'`, before the blank is drawn. -/
def backspace : Position :=
  let p := { p with xPosition := p.xPosition - 1 }
  if p.xPosition < 0 then
    let p := { p with
      xPosition := (p.xResolution / p.xCharSize - 1) * p.xCharSize
      yPosition := p.yPosition - 1 }
    if p.yPosition < 0 then
      { p with yPosition := (p.yResolution / p.yCharSize - 1) * p.yCharSize }
    else p
  else p

/-- `tab_cnt`. -/
def tabCnt : Int32 := ((p.xPosition + 8) &&& ~~~(8 - 1)) - p.xPosition

/-- `Pos.XPosition++`. -/
def advance : Position := { p with xPosition := p.xPosition + 1 }

/-- The loop of the case `'\t'`, with the rounds left. -/
def tab : ℕ → Position → Position × List Put
  | 0, p => (p, [])
  | n + 1, p => ((tab n p.advance).1, p.put blank :: (tab n p.advance).2)

/-- The first range check at the end. -/
def checkX : Position :=
  if p.xPosition ≥ p.xResolution / p.xCharSize then
    { p with yPosition := p.yPosition + 1, xPosition := 0 }
  else p

/-- The second range check. -/
def checkY : Position :=
  if p.yPosition ≥ p.yResolution / p.yCharSize then { p with yPosition := 0 } else p

/-- The `switch` of `__print_char`. -/
def switch (c : BitVec 8) : Position × List Put :=
  if c = newlineChar then (p.newline, [])
  else if c = backspaceChar then (p.backspace, [p.backspace.put blank])
  else if c = tabChar then p.tab p.tabCnt.toBitVec.toNat
  else (p.advance, [p.put c])

/-- `__print_char`: the position afterwards and the calls of `__putchar`. -/
def printChar (c : BitVec 8) : Position × List Put :=
  let r := p.switch c
  (r.1.checkX.checkY, r.2)

end Position

/-! ## The grid -/

/-- A screen of cells of 8 by 16 pixels with at least one cell. -/
structure Geometry (p : Position) : Prop where
  xChar : p.xCharSize = 8
  yChar : p.yCharSize = 16
  xRes : 8 ≤ p.xResolution
  yRes : 16 ≤ p.yResolution

namespace Position

variable (p : Position)

/-- The number of columns. -/
def columns : ℤ := p.xResolution.toInt / 8

/-- The number of rows. -/
def rows : ℤ := p.yResolution.toInt / 16

/-- The cursor is inside the grid. -/
structure InGrid : Prop where
  x_nonneg : 0 ≤ p.xPosition.toInt
  x_lt : p.xPosition.toInt < p.columns
  y_nonneg : 0 ≤ p.yPosition.toInt
  y_lt : p.yPosition.toInt < p.rows

/-- The call draws the cell of column `x` and row `y`: it names the corner of the cell, and its
pixel in row `i` and column `j` of the glyph lies on scan line `i` of the cell. -/
structure DrawsCell (q : Put) (x y : ℤ) : Prop where
  x_eq : q.x.toInt = 8 * x
  y_eq : q.y.toInt = 16 * y
  pixel : ∀ i < 16, ∀ j < 8,
    pixelAddr p.xResolution q.x q.y i j = p.xResolution.toInt * (16 * y + i) + (8 * x + j)

/-- The call draws a cell of the grid. -/
def DrawsInGrid (q : Put) : Prop :=
  ∃ x y, 0 ≤ x ∧ x < p.columns ∧ 0 ≤ y ∧ y < p.rows ∧ p.DrawsCell q x y

/-- The addresses of the pixels of a row of cells fit an `int32`. -/
def RowFits (y : ℤ) : Prop := p.xResolution.toInt * (16 * y + 15) < 2 ^ 31

instance (y : ℤ) : Decidable (p.RowFits y) := inferInstanceAs (Decidable (_ < _))

end Position

variable {p : Position} {c : BitVec 8}

/-! ## Numbers of cells -/

namespace Geometry

variable (h : Geometry p)
include h

theorem xRes_ge : 8 ≤ p.xResolution.toInt := Int32.le_iff_toInt_le.mp h.xRes

theorem yRes_ge : 16 ≤ p.yResolution.toInt := Int32.le_iff_toInt_le.mp h.yRes

theorem toInt_columns : (p.xResolution / p.xCharSize).toInt = p.columns := by
  have hres := h.xRes_ge
  rw [h.xChar, toInt_div_of_nonneg (by omega) (by decide)]
  rfl

theorem toInt_rows : (p.yResolution / p.yCharSize).toInt = p.rows := by
  have hres := h.yRes_ge
  rw [h.yChar, toInt_div_of_nonneg (by omega) (by decide)]
  rfl

theorem columns_bounds : 1 ≤ p.columns ∧ 8 * p.columns < 2 ^ 31 := by
  have hres := h.xRes_ge
  have hlt := p.xResolution.toInt_lt
  unfold Position.columns
  omega

theorem rows_bounds : 1 ≤ p.rows ∧ 16 * p.rows < 2 ^ 31 := by
  have hres := h.yRes_ge
  have hlt := p.yResolution.toInt_lt
  unfold Position.rows
  omega

end Geometry

/-! ## The cursor -/

/-- The range checks, on the column and the row. -/
def carry (columns rows : ℤ) (q : ℤ × ℤ) : ℤ × ℤ :=
  let q := if columns ≤ q.1 then (0, q.2 + 1) else q
  (q.1, if rows ≤ q.2 then 0 else q.2)

/-- The moves of the `switch`, on the column and the row. -/
def move (columns rows : ℤ) (c : BitVec 8) (q : ℤ × ℤ) : ℤ × ℤ :=
  if c = newlineChar then (0, q.2 + 1)
  else if c = backspaceChar then
    if 0 < q.1 then (q.1 - 1, q.2)
    else ((columns - 1) * 8, if 0 < q.2 then q.2 - 1 else (rows - 1) * 16)
  else if c = tabChar then (q.1 + (8 - q.1 % 8), q.2)
  else (q.1 + 1, q.2)

/-- The checks bring a cursor back into the grid that has left it to the right or below. -/
theorem carry_inGrid {columns rows : ℤ} {q : ℤ × ℤ} (hc : 1 ≤ columns) (hr : 1 ≤ rows)
    (hx : 0 ≤ q.1) (hy : 0 ≤ q.2) :
    0 ≤ (carry columns rows q).1 ∧ (carry columns rows q).1 < columns ∧
      0 ≤ (carry columns rows q).2 ∧ (carry columns rows q).2 < rows := by
  unfold carry
  by_cases hx' : columns ≤ q.1
  · simp only [if_pos hx']
    split <;> omega
  · simp only [if_neg hx']
    split <;> omega

/-- A move out of the grid leaves it to the right or below. -/
theorem move_nonneg {columns rows : ℤ} {q : ℤ × ℤ} (c : BitVec 8) (hx : 0 ≤ q.1 ∧ q.1 < columns)
    (hy : 0 ≤ q.2 ∧ q.2 < rows) :
    0 ≤ (move columns rows c q).1 ∧ 0 ≤ (move columns rows c q).2 ∧
      (move columns rows c q).2 < 16 * rows := by
  unfold move
  split
  · simp only
    omega
  · split
    · split
      · simp only
        omega
      · simp only
        split <;> omega
    · split <;> (simp only; omega)

namespace Position

/-- The column and the row. -/
def cursor (p : Position) : ℤ × ℤ := (p.xPosition.toInt, p.yPosition.toInt)

/-- A position on the same screen. -/
def moved (p : Position) (x y : Int32) : Position := { p with xPosition := x, yPosition := y }

end Position

theorem Geometry.moved (h : Geometry p) (x y : Int32) : Geometry (p.moved x y) :=
  ⟨h.xChar, h.yChar, h.xRes, h.yRes⟩

theorem inGrid_iff : p.InGrid ↔
    0 ≤ p.cursor.1 ∧ p.cursor.1 < p.columns ∧ 0 ≤ p.cursor.2 ∧ p.cursor.2 < p.rows :=
  ⟨fun h => ⟨h.1, h.2, h.3, h.4⟩, fun h => ⟨h.1, h.2.1, h.2.2.1, h.2.2.2⟩⟩

theorem checkX_moved (p : Position) : ∃ x y, p.checkX = p.moved x y := by
  unfold Position.checkX
  split
  · exact ⟨0, p.yPosition + 1, rfl⟩
  · exact ⟨p.xPosition, p.yPosition, rfl⟩

theorem checkY_moved (p : Position) : ∃ x y, p.checkY = p.moved x y := by
  unfold Position.checkY
  split
  · exact ⟨p.xPosition, 0, rfl⟩
  · exact ⟨p.xPosition, p.yPosition, rfl⟩

/-- The range checks only move the cursor. -/
theorem check_moved (p : Position) : ∃ x y, p.checkX.checkY = p.moved x y := by
  obtain ⟨x, y, hx⟩ := checkX_moved p
  obtain ⟨x', y', hy⟩ := checkY_moved p.checkX
  exact ⟨x', y', by rw [hy, hx]; rfl⟩

theorem toInt_succ {a : Int32} (h : a.toInt + 1 < 2 ^ 31) : (a + 1).toInt = a.toInt + 1 :=
  toInt_add_of_fits ⟨by rw [show (1 : Int32).toInt = 1 from rfl]; have := a.le_toInt; omega, h⟩

theorem cursor_checkX (h : Geometry p) (hlt : p.cursor.2 + 1 < 2 ^ 31) :
    p.checkX.cursor = if p.columns ≤ p.cursor.1 then (0, p.cursor.2 + 1) else p.cursor := by
  unfold Position.checkX Position.cursor
  simp only [ge_iff_le, Int32.le_iff_toInt_le, h.toInt_columns]
  split
  · exact congrArg (Prod.mk 0) (toInt_succ hlt)
  · rfl

theorem cursor_checkY (h : Geometry p) :
    p.checkY.cursor = (p.cursor.1, if p.rows ≤ p.cursor.2 then 0 else p.cursor.2) := by
  unfold Position.checkY Position.cursor
  simp only [ge_iff_le, Int32.le_iff_toInt_le, h.toInt_rows]
  split <;> rfl

/-- **The range checks carry.** -/
theorem cursor_check (h : Geometry p) (hlt : p.cursor.2 + 1 < 2 ^ 31) :
    p.checkX.checkY.cursor = carry p.columns p.rows p.cursor := by
  obtain ⟨x, y, hmoved⟩ := checkX_moved p
  have hy := cursor_checkY (p := p.checkX) (hmoved ▸ h.moved x y)
  rw [hy, cursor_checkX h hlt, show p.checkX.rows = p.rows by rw [hmoved]; rfl]
  rfl

/-- A cursor inside the grid. -/
theorem Position.InGrid.lt (h : p.InGrid) (hg : Geometry p) :
    8 * (p.xPosition.toInt + 1) < 2 ^ 31 ∧ 16 * (p.yPosition.toInt + 1) < 2 ^ 31 := by
  have hcols := hg.columns_bounds
  have hrows := hg.rows_bounds
  have hx := h.x_lt
  have hy := h.y_lt
  omega

/-! ## The moves -/

theorem cursor_newline (h : p.InGrid) (hg : Geometry p) :
    p.newline.cursor = (0, p.cursor.2 + 1) :=
  congrArg (Prod.mk 0) (toInt_succ (by have := (h.lt hg).2; omega))

theorem cursor_backspace (h : p.InGrid) (hg : Geometry p) :
    p.backspace.cursor = if 0 < p.cursor.1 then (p.cursor.1 - 1, p.cursor.2)
      else ((p.columns - 1) * 8, if 0 < p.cursor.2 then p.cursor.2 - 1 else (p.rows - 1) * 16) := by
  have hcols := hg.columns_bounds
  have hrows := hg.rows_bounds
  have hx := h.x_nonneg
  have hy := h.y_nonneg
  have hlt := h.lt hg
  have hone : (1 : Int32).toInt = 1 := rfl
  have hpred {a : Int32} (ha : 0 ≤ a.toInt) : (a - 1).toInt = a.toInt - 1 :=
    toInt_sub_of_fits ⟨by omega, by have := a.toInt_lt; omega⟩
  have hlastX : ((p.xResolution / p.xCharSize - 1) * p.xCharSize).toInt = (p.columns - 1) * 8 := by
    have hsub := hpred (a := p.xResolution / p.xCharSize) (by rw [hg.toInt_columns]; omega)
    have height : p.xCharSize.toInt = 8 := by rw [hg.xChar]; rfl
    rw [toInt_mul_of_fits] <;> rw [hsub, hg.toInt_columns, height]
    exact ⟨by omega, by omega⟩
  have hlastY : ((p.yResolution / p.yCharSize - 1) * p.yCharSize).toInt = (p.rows - 1) * 16 := by
    have hsub := hpred (a := p.yResolution / p.yCharSize) (by rw [hg.toInt_rows]; omega)
    have hsixteen : p.yCharSize.toInt = 16 := by rw [hg.yChar]; rfl
    rw [toInt_mul_of_fits] <;> rw [hsub, hg.toInt_rows, hsixteen]
    exact ⟨by omega, by omega⟩
  unfold Position.backspace Position.cursor
  simp only [Int32.lt_iff_toInt_lt, hpred hx, hpred hy, show (0 : Int32).toInt = 0 from rfl]
  by_cases hx0 : 0 < p.xPosition.toInt
  · rw [if_neg (by omega), if_pos hx0]
    exact congrArg (·, p.yPosition.toInt) (hpred hx)
  · rw [if_pos (by omega), if_neg hx0]
    by_cases hy0 : 0 < p.yPosition.toInt
    · rw [if_neg (by omega), if_pos hy0]
      exact Prod.ext hlastX (hpred hy)
    · rw [if_pos (by omega), if_neg hy0]
      exact Prod.ext hlastX hlastY

theorem cursor_advance (hlt : p.cursor.1 + 1 < 2 ^ 31) :
    p.advance.cursor = (p.cursor.1 + 1, p.cursor.2) :=
  congrArg (·, p.cursor.2) (toInt_succ hlt)

/-- The loop draws at one column after the other. -/
theorem tab_eq (n : ℕ) (p : Position) :
    p.tab n = (p.moved (p.xPosition + Int32.ofNat n) p.yPosition,
      (List.range n).map fun k =>
        (p.moved (p.xPosition + Int32.ofNat k) p.yPosition).put blank) := by
  induction n generalizing p with
  | zero =>
    have hzero : p.moved (p.xPosition + Int32.ofNat 0) p.yPosition = p :=
      congrArg (p.moved · p.yPosition) (Int32.add_zero p.xPosition)
    rw [hzero]
    rfl
  | succ n ih =>
    have hsucc (k : ℕ) : p.advance.moved (p.advance.xPosition + Int32.ofNat k) p.advance.yPosition =
        p.moved (p.xPosition + Int32.ofNat (k + 1)) p.yPosition := by
      have hadd : p.xPosition + 1 + Int32.ofNat k = p.xPosition + Int32.ofNat (k + 1) := by
        rw [Int32.add_assoc, Int32.add_comm 1, Int32.ofNat_add]
        rfl
      exact congrArg (p.moved · p.yPosition) hadd
    have hzero : p.moved (p.xPosition + Int32.ofNat 0) p.yPosition = p :=
      congrArg (p.moved · p.yPosition) (Int32.add_zero p.xPosition)
    rw [Position.tab, ih, List.range_succ_eq_map, List.map_cons, List.map_map, hzero, hsucc]
    simp only [hsucc]
    rfl

/-- A tab goes to the next multiple of 8. -/
theorem toNat_tabCnt (h : 0 ≤ p.cursor.1) (hlt : p.cursor.1 + 8 < 2 ^ 31) :
    (p.tabCnt.toBitVec.toNat : ℤ) = 8 - p.cursor.1 % 8 := by
  have hcnt : p.tabCnt.toBitVec =
      ((p.xPosition.toBitVec + 8#32) &&& ~~~7#32) - p.xPosition.toBitVec := rfl
  have hand := toNat_and_not_seven (p.xPosition.toBitVec + 8#32)
  have hx : p.cursor.1 = p.xPosition.toBitVec.toNat := toInt_of_nonneg h
  rw [BitVec.toNat_add, BitVec.toNat_ofNat] at hand
  rw [hcnt, BitVec.toNat_sub, hand]
  omega

theorem cursor_moved_add {k : ℕ} (h : 0 ≤ p.cursor.1) (hlt : p.cursor.1 + k < 2 ^ 31) :
    (p.moved (p.xPosition + Int32.ofNat k) p.yPosition).cursor = (p.cursor.1 + k, p.cursor.2) := by
  have hk : (Int32.ofNat k).toInt = k := toInt_ofNat_of_lt (by omega)
  have hfits : FitsInt32 (p.xPosition.toInt + (Int32.ofNat k).toInt) := by
    rw [hk]
    exact ⟨by unfold Position.cursor at h; omega, hlt⟩
  exact congrArg (·, p.cursor.2) ((toInt_add_of_fits hfits).trans (by rw [hk]; rfl))

/-- The `switch` moves the cursor and nothing else of the position. -/
theorem switch_moved (p : Position) (c : BitVec 8) : ∃ x y, (p.switch c).1 = p.moved x y := by
  unfold Position.switch
  split
  · exact ⟨0, p.yPosition + 1, rfl⟩
  · split
    · unfold Position.backspace
      simp only
      split
      · split <;> exact ⟨_, _, rfl⟩
      · exact ⟨p.xPosition - 1, p.yPosition, rfl⟩
    · split
      · rw [tab_eq]
        exact ⟨_, p.yPosition, rfl⟩
      · exact ⟨p.xPosition + 1, p.yPosition, rfl⟩

theorem printChar_moved (p : Position) (c : BitVec 8) : ∃ x y, (p.printChar c).1 = p.moved x y := by
  obtain ⟨x, y, hswitch⟩ := switch_moved p c
  obtain ⟨x', y', hcheck⟩ := check_moved (p.switch c).1
  exact ⟨x', y', hcheck.trans (by rw [hswitch]; rfl)⟩

/-- **What the `switch` does to the cursor.** -/
theorem cursor_switch (h : p.InGrid) (hg : Geometry p) (c : BitVec 8) :
    (p.switch c).1.cursor = move p.columns p.rows c p.cursor := by
  have hx : 0 ≤ p.cursor.1 := h.x_nonneg
  have hlt : 8 * (p.cursor.1 + 1) < 2 ^ 31 := (h.lt hg).1
  unfold Position.switch move
  split
  · exact cursor_newline h hg
  · split
    · exact cursor_backspace h hg
    · split
      · have hcnt := toNat_tabCnt hx (by omega)
        rw [tab_eq]
        exact (cursor_moved_add hx (by omega)).trans (by rw [hcnt])
      · exact cursor_advance (by omega)

/-- **What `__print_char` does to the cursor.** -/
theorem cursor_printChar (h : p.InGrid) (hg : Geometry p) (c : BitVec 8) :
    (p.printChar c).1.cursor = carry p.columns p.rows (move p.columns p.rows c p.cursor) := by
  have hcursor := cursor_switch h hg c
  obtain ⟨x, y, hmoved⟩ := switch_moved p c
  have hbound := move_nonneg c ⟨h.x_nonneg, h.x_lt⟩ ⟨h.y_nonneg, h.y_lt⟩ (q := p.cursor)
  have hrows := hg.rows_bounds
  have hcheck := cursor_check (p := (p.switch c).1) (hmoved ▸ hg.moved x y) (by
    rw [hcursor]
    omega)
  rw [hcursor] at hcheck
  exact hcheck.trans (by rw [hmoved]; rfl)

/-- **The cursor stays inside the grid**, whatever is printed. -/
theorem inGrid_printChar (h : p.InGrid) (hg : Geometry p) (c : BitVec 8) :
    (p.printChar c).1.InGrid := by
  have hcursor := cursor_printChar h hg c
  obtain ⟨x, y, hmoved⟩ := printChar_moved p c
  have hbound := move_nonneg c ⟨h.x_nonneg, h.x_lt⟩ ⟨h.y_nonneg, h.y_lt⟩ (q := p.cursor)
  have hcarry := carry_inGrid hg.columns_bounds.1 hg.rows_bounds.1 hbound.1 hbound.2.1
  rw [← hcursor] at hcarry
  refine inGrid_iff.mpr ?_
  rw [hmoved] at hcarry ⊢
  exact hcarry

end Print
end OSLib
