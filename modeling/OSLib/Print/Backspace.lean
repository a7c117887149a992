import OSLib.Print.TextGrid

/-!
# What a backspace undoes

A backspace after a character brings the cursor back and blanks the cell, as long as the character
was not printed in the last column: there the cursor has gone on to the next row, and the backspace,
which goes back to the last column in pixels instead of cells, ends where it was.  More generally a
backspace for every character of a text that ends before the last column blanks the cells of the
text and leaves every other pixel alone (`print_backspaces`).

The position is in pixels in the code and in cells in the statement, and the last column is where
the two differ: there is a cell in the next row for the cursor to go to, and the backspace does not
know that it came from the row before.

`print_cons_backspaces` peels a text from both ends, the first character and the last backspace, so
that the induction on the text has the same cursor before and after.  The statement about a single
character is the case of one of both, with the converse added: in the last column the cursor after
the two is another one, and where the cell does not fit into the frame the pixels are.
-/

namespace OSLib
namespace Print

variable {font : Font} {frColor bkColor : Color} {p : Position} {s : Screen} {t : TextGrid}
  {prior px : ℤ → Color} {c : BitVec 8}

/-- A byte `__print_char` has no case for. -/
structure Ordinary (c : BitVec 8) : Prop where
  ne_newline : c ≠ newlineChar
  ne_backspace : c ≠ backspaceChar
  ne_tab : c ≠ tabChar

/-! ## There and back -/

theorem switch_ordinary (hc : Ordinary c) : p.switch c = (p.advance, [p.put c]) := by
  rw [Position.switch, if_neg hc.ne_newline, if_neg hc.ne_backspace, if_neg hc.ne_tab]

theorem move_ordinary {columns rows : ℤ} (hc : Ordinary c) (q : ℤ × ℤ) :
    move columns rows c q = (q.1 + 1, q.2) := by
  rw [move, if_neg hc.ne_newline, if_neg hc.ne_backspace, if_neg hc.ne_tab]

theorem switch_backspace : p.switch backspaceChar = (p.backspace, [p.backspace.put blank]) := rfl

/-- The range checks leave a cursor inside the grid alone. -/
theorem check_eq_self (h : p.InGrid) (hg : Geometry p) : p.checkX.checkY = p := by
  have hx := h.x_lt
  have hy := h.y_lt
  have hcheckX : p.checkX = p := by
    rw [Position.checkX, if_neg]
    rw [ge_iff_le, Int32.le_iff_toInt_le, hg.toInt_columns]
    omega
  rw [hcheckX, Position.checkY, if_neg]
  rw [ge_iff_le, Int32.le_iff_toInt_le, hg.toInt_rows]
  omega

theorem backspace_advance (h : 0 ≤ p.cursor.1) : p.advance.backspace = p := by
  have hback : p.xPosition + 1 - 1 = p.xPosition := by
    rw [Int32.sub_eq_add_neg, Int32.add_assoc, Int32.add_right_neg, Int32.add_zero]
  have hnonneg : ¬p.xPosition < 0 := by
    rw [Int32.lt_iff_toInt_lt]
    exact not_lt.mpr h
  rw [Position.backspace, Position.advance]
  simp only [hback, if_neg hnonneg]

theorem inGrid_advance (h : p.InGrid) (hg : Geometry p) (hlt : p.cursor.1 + 1 < p.columns) :
    p.advance.InGrid := by
  have hcols := hg.columns_bounds
  have hin := inGrid_iff.mp h
  rw [inGrid_iff, cursor_advance (by omega)]
  exact ⟨by omega, hlt, hin.2.2⟩

/-- A character before the last column. -/
theorem printChar_ordinary (h : p.InGrid) (hg : Geometry p) (hc : Ordinary c)
    (hlt : p.cursor.1 + 1 < p.columns) : p.printChar c = (p.advance, [p.put c]) := by
  have hcheck := check_eq_self (inGrid_advance h hg hlt) (hg.moved (p.xPosition + 1) p.yPosition)
  rw [Position.printChar, switch_ordinary hc]
  exact congrArg (·, [p.put c]) hcheck

/-- A backspace in the column after that. -/
theorem printChar_backspace (h : p.InGrid) (hg : Geometry p) :
    p.advance.printChar backspaceChar = (p, [p.put blank]) := by
  rw [Position.printChar, switch_backspace, backspace_advance h.x_nonneg]
  exact congrArg (·, [p.put blank]) (check_eq_self h hg)

theorem Screen.printChar_ordinary (h : p.InGrid) (hg : Geometry p) (hc : Ordinary c)
    (hlt : p.cursor.1 + 1 < p.columns) :
    Screen.printChar font frColor bkColor ⟨p, px⟩ c =
      ⟨p.advance, stores px (putchar font p.xResolution frColor bkColor (p.put c))⟩ := by
  show (⟨(p.printChar c).1, (p.printChar c).2.foldl
    (fun px q => stores px (putchar font p.xResolution frColor bkColor q)) px⟩ : Screen) = _
  rw [Print.printChar_ordinary h hg hc hlt, List.foldl_cons, List.foldl_nil]

theorem Screen.printChar_backspace (h : p.InGrid) (hg : Geometry p) :
    Screen.printChar font frColor bkColor ⟨p.advance, px⟩ backspaceChar =
      ⟨p, stores px (putchar font p.xResolution frColor bkColor (p.put blank))⟩ := by
  show (⟨(p.advance.printChar backspaceChar).1, (p.advance.printChar backspaceChar).2.foldl
    (fun px q => stores px (putchar font p.xResolution frColor bkColor q)) px⟩ : Screen) = _
  rw [Print.printChar_backspace h hg, List.foldl_cons, List.foldl_nil]

theorem Screen.print_append (s : Screen) (text text' : List (BitVec 8)) :
    s.print font frColor bkColor (text ++ text') =
      (s.print font frColor bkColor text).print font frColor bkColor text' :=
  List.foldl_append

/-- The last backspace of a text comes after those of the text without its first character. -/
theorem print_cons_backspaces (h : p.InGrid) (hg : Geometry p) (hc : Ordinary c)
    (hlt : p.cursor.1 + 1 < p.columns) (text : List (BitVec 8)) :
    Screen.print font frColor bkColor ⟨p, px⟩
        (c :: text ++ List.replicate (c :: text).length backspaceChar) =
      (Screen.print font frColor bkColor
        ⟨p.advance, stores px (putchar font p.xResolution frColor bkColor (p.put c))⟩
        (text ++ List.replicate text.length backspaceChar)).printChar font frColor bkColor
          backspaceChar := by
  rw [List.length_cons, List.replicate_succ', ← List.append_assoc, Screen.print_append,
    List.cons_append, ← Screen.printChar_ordinary h hg hc hlt]
  rfl

/-! ## Words -/

/-- The terminal with `n` blanks from the cursor on. -/
def TextGrid.blanked (t : TextGrid) (n : ℕ) : TextGrid :=
  { t with cells := fun x y =>
      if (t.col ≤ x ∧ x < t.col + n) ∧ y = t.row then some blank else t.cells x y }

theorem written_blanked {n : ℕ} {x y : ℤ} (h : (t.blanked n).Written x y) :
    (t.col ≤ x ∧ x < t.col + n) ∧ y = t.row ∨ t.Written x y := by
  unfold TextGrid.Written TextGrid.blanked at h
  simp only at h
  split at h
  · next hin => exact .inl hin
  · exact .inr h

/-- The terminal with the cursor in another column. -/
def TextGrid.inColumn (t : TextGrid) (x : ℤ) : TextGrid := { t with col := x }

/-- One blank more, to the left. -/
theorem blanked_succ (t : TextGrid) (c : BitVec 8) (n : ℕ) :
    (((((t.write c).inColumn (t.col + 1)).blanked n).inColumn t.col).write blank).cells =
      (t.blanked (n + 1)).cells := by
  funext x y
  show (if x = t.col ∧ y = t.row then some blank
      else if (t.col + 1 ≤ x ∧ x < t.col + 1 + n) ∧ y = t.row then some blank
      else if x = t.col ∧ y = t.row then some c else t.cells x y) =
    if (t.col ≤ x ∧ x < t.col + (n + 1 : ℕ)) ∧ y = t.row then some blank else t.cells x y
  by_cases hcur : x = t.col ∧ y = t.row
  · rw [if_pos hcur, if_pos (by omega)]
  · rw [if_neg hcur, if_neg hcur]
    refine if_congr ?_ rfl rfl
    omega

theorem Renders.congr {xRes : ℤ} {t' : TextGrid}
    (h : Renders font frColor bkColor xRes prior t px) (hcells : t'.cells = t.cells) :
    Renders font frColor bkColor xRes prior t' px := by
  obtain ⟨columns, rows, cells, col, row⟩ := t'
  obtain rfl : cells = t.cells := hcells
  exact ⟨h.written, h.other⟩

/-- **A text and a backspace for each of its characters** leave blanks in the place of the text, and
the cursor where it was. -/
theorem print_backspaces (font : Font) (frColor bkColor : Color) (h : p.InGrid) (hg : Geometry p)
    (hfits : p.RowFits p.cursor.2) {text : List (BitVec 8)} (htext : ∀ c ∈ text, Ordinary c)
    (hlt : p.cursor.1 + text.length < p.columns) (hcursor : p.cursor = (t.col, t.row))
    (hcols : t.columns = p.columns) (hb : t.Bounded)
    (hr : Renders font frColor bkColor p.xResolution.toInt prior t px) :
    let s := Screen.print font frColor bkColor ⟨p, px⟩
      (text ++ List.replicate text.length backspaceChar)
    s.pos = p ∧
      Renders font frColor bkColor p.xResolution.toInt prior (t.blanked text.length) s.pixels := by
  induction text generalizing p px t with
  | nil =>
    refine ⟨rfl, hr.congr ?_⟩
    funext x y
    exact if_neg (by simp only [List.length_nil]; omega)
  | cons c text ih =>
    obtain ⟨hc, htext⟩ := List.forall_mem_cons.mp htext
    have hin := inGrid_iff.mp h
    have hbounds := hg.columns_bounds
    rw [List.length_cons] at hlt
    have hnext : p.cursor.1 + 1 < p.columns := by omega
    have hadv := cursor_advance (p := p) (by omega)
    have hdraws (c : BitVec 8) : p.DrawsCell (p.put c) t.col t.row := by
      have hcell := drawsCell_put h hg hfits c
      rwa [hcursor] at hcell
    rw [hcursor] at hin hadv hlt
    have hcol : 0 ≤ t.col ∧ t.col < t.columns := ⟨hin.1, hcols ▸ hin.2.1⟩
    -- the character is drawn, the rest of the text and its backspaces follow
    have hwrite := hr.write hb hcols hcol (hdraws c)
    have hb₁ : ((t.write c).inColumn (t.col + 1)).Bounded := hb.write hcol
    obtain ⟨hpos, hrest⟩ := ih (inGrid_advance h hg hnext) (hg.moved _ _) hfits htext
      (t := (t.write c).inColumn (t.col + 1))
      (by rw [hadv]; show t.col + 1 + text.length < p.columns; simp only at hlt; omega) hadv hcols
      hb₁
      (hwrite.congr rfl)
    -- the last backspace draws a blank over the character
    simp only
    rw [print_cons_backspaces h hg hc hnext]
    generalize Screen.print font frColor bkColor ⟨p.advance, _⟩
      (text ++ List.replicate text.length backspaceChar) = s at hpos hrest ⊢
    obtain ⟨pos, px₂⟩ := s
    obtain rfl : pos = p.advance := hpos
    have hb₂ : (((t.write c).inColumn (t.col + 1)).blanked text.length).Bounded := by
      intro x y hxy
      rcases written_blanked hxy with ⟨hx, -⟩ | hold
      · show 0 ≤ x ∧ x < t.columns
        have hx' : t.col + 1 ≤ x ∧ x < t.col + 1 + text.length := hx
        simp only at hlt
        omega
      · exact hb₁ x y hold
    have hlast : Renders font frColor bkColor p.xResolution.toInt prior
        ((((t.write c).inColumn (t.col + 1)).blanked text.length).inColumn t.col) px₂ :=
      hrest.congr rfl
    rw [Screen.printChar_backspace h hg]
    exact ⟨rfl, (hlast.write hb₂ hcols hcol (hdraws blank)).congr
      (blanked_succ t c text.length).symm⟩

/-! ## One character -/

/-- The screen `s'` is the screen `s` with the cell at the cursor blank: its pixels show the glyph
of `' '`, which has no bit set in `font_ascii`. -/
structure Erased (font : Font) (frColor bkColor : Color) (s s' : Screen) : Prop where
  pos : s'.pos = s.pos
  cell : ∀ i < 16, ∀ j < 8,
    s'.pixels (cellPixel s.pos.xResolution.toInt s.pos.cursor.1 s.pos.cursor.2 i j) =
      glyphColor font frColor bkColor blank i j
  other : ∀ o, (∀ i < 16, ∀ j < 8,
      o ≠ cellPixel s.pos.xResolution.toInt s.pos.cursor.1 s.pos.cursor.2 i j) →
    s'.pixels o = s.pixels o

/-- The character and a backspace after it erase the cell at the cursor, whatever the frame buffer
shows. -/
def BackspaceUndoes (font : Font) (frColor bkColor : Color) (p : Position) (c : BitVec 8) : Prop :=
  ∀ pixels, Erased font frColor bkColor ⟨p, pixels⟩
    (Screen.print font frColor bkColor ⟨p, pixels⟩ [c, backspaceChar])

theorem renders_start (px : ℤ → Color) {columns rows col row xRes : ℤ} :
    Renders font frColor bkColor xRes px (TextGrid.start columns rows col row) px :=
  ⟨fun _ _ _ hc => by simp [TextGrid.start] at hc, fun _ _ => rfl⟩

theorem bounded_start {columns rows col row : ℤ} :
    (TextGrid.start columns rows col row).Bounded :=
  fun _ _ hw => Bool.noConfusion hw

/-- Before the last column. -/
theorem backspaceUndoes_of_lt (h : p.InGrid) (hg : Geometry p) (hc : Ordinary c)
    (hlt : p.cursor.1 + 1 < p.columns) (hfits : p.RowFits p.cursor.2) :
    BackspaceUndoes font frColor bkColor p c := by
  intro pixels
  obtain ⟨hpos, hrenders⟩ := print_backspaces font frColor bkColor h hg hfits
    (List.forall_mem_singleton.mpr hc) hlt
    (t := TextGrid.start p.columns p.rows p.cursor.1 p.cursor.2) rfl rfl bounded_start
    (renders_start pixels)
  refine ⟨hpos, fun i hi j hj => ?_, fun o ho => ?_⟩
  · refine hrenders.written _ _ _ (if_pos ⟨⟨le_rfl, ?_⟩, rfl⟩) i hi j hj
    exact Int.lt_succ p.cursor.1
  · refine hrenders.other o fun x y hxy => ?_
    rcases written_blanked hxy with ⟨hx, hy⟩ | hold
    · have hx' : p.cursor.1 ≤ x ∧ x < p.cursor.1 + 1 := hx
      obtain rfl : x = p.cursor.1 := by omega
      obtain rfl : y = p.cursor.2 := hy
      exact ho
    · exact absurd hold Bool.false_ne_true

/-- There and back on a grid of at least two columns: only a cursor before the last column is back
where it was. -/
theorem carry_move_backspace {columns rows x y : ℤ} (hcols : 2 ≤ columns)
    (hx : 0 ≤ x ∧ x < columns) (hy : 0 ≤ y ∧ y < rows) :
    carry columns rows (move columns rows backspaceChar (carry columns rows (x + 1, y))) = (x, y) ↔
      x + 1 < columns := by
  by_cases hlast : x + 1 < columns
  · refine iff_of_true ?_ hlast
    have hfirst : carry columns rows (x + 1, y) = (x + 1, y) := by
      unfold carry
      simp only
      rw [if_neg (by omega), if_neg (by omega)]
    have hback : move columns rows backspaceChar (x + 1, y) = (x, y) := by
      show (if 0 < x + 1 then (x + 1 - 1, y) else _) = _
      rw [if_pos (by omega), Int.add_sub_cancel]
    rw [hfirst, hback]
    unfold carry
    simp only
    rw [if_neg (by omega), if_neg (by omega)]
  · refine iff_of_false (fun hcarry => ?_) hlast
    have hwrap : (carry columns rows (x + 1, y)).1 = 0 := by
      unfold carry
      simp only
      rw [if_pos (by omega)]
    -- the column is counted in pixels, so the range check takes it for one past the last
    have hpixels (y : ℤ) : (move columns rows backspaceChar (0, y)).1 = (columns - 1) * 8 := rfl
    have hzero : x = 0 := by
      have hfst := congrArg Prod.fst hcarry
      rw [show carry columns rows (x + 1, y) = (0, (carry columns rows (x + 1, y)).2) from
        Prod.ext hwrap rfl] at hfst
      unfold carry at hfst
      rw [hpixels, if_pos (by omega)] at hfst
      exact hfst.symm
    omega

/-- Where the cursor is after the character and the backspace. -/
theorem cursor_print_backspace (font : Font) (frColor bkColor : Color) (px : ℤ → Color)
    (h : p.InGrid) (hg : Geometry p) (hc : Ordinary c) :
    (Screen.print font frColor bkColor ⟨p, px⟩ [c, backspaceChar]).pos.cursor =
      carry p.columns p.rows (move p.columns p.rows backspaceChar
        (carry p.columns p.rows (p.cursor.1 + 1, p.cursor.2))) := by
  have hin := inGrid_printChar h hg c
  have hcursor := cursor_printChar h hg c
  obtain ⟨x, y, hmoved⟩ := printChar_moved p c
  rw [move_ordinary hc] at hcursor
  rw [hmoved] at hin hcursor
  have hback : ((p.moved x y).printChar backspaceChar).1.cursor =
      carry p.columns p.rows (move p.columns p.rows backspaceChar (p.moved x y).cursor) :=
    cursor_printChar hin (hg.moved x y) backspaceChar
  rw [Screen.print, List.foldl_cons, List.foldl_cons, List.foldl_nil, Screen.printChar_pos,
    Screen.printChar_pos, hmoved, hback, hcursor]

/-- A pixel of the last scan line of a cell whose offset overflows is not written. -/
theorem pixelAddr_ne {xSize x y : Int32} {i j : ℕ} (hsize : 8 ≤ xSize.toInt) (hy : 0 ≤ y.toInt)
    (hlt : y.toInt + 15 < 2 ^ 31) (hi : i < 16) (hj : j < 8)
    (hover : 2 ^ 31 ≤ xSize.toInt * (y.toInt + 15)) :
    pixelAddr xSize x y i j ≠ xSize.toInt * (y.toInt + 15) + x.toInt := by
  have hnat : (Int32.ofNat i).toInt = i := toInt_ofNat_of_lt (by omega)
  have hline : (y + Int32.ofNat i).toInt = y.toInt + i := by
    rw [toInt_add_of_fits, hnat]
    rw [hnat]
    exact ⟨by omega, by omega⟩
  have hnonneg : 0 ≤ xSize.toInt * (y.toInt + i) := Int.mul_nonneg (by omega) (by omega)
  have hoffset := (xSize * (y + Int32.ofNat i)).toInt_lt
  have hreduced := bmod_eq_or_le hnonneg
  rw [← hline, ← Int32.toInt_mul, hline] at hreduced
  -- the offsets of two scan lines are the length of one apart at least
  have hapart : xSize.toInt * (y.toInt + i) = xSize.toInt * (y.toInt + 15) ∨
      xSize.toInt * (y.toInt + i) + xSize.toInt ≤ xSize.toInt * (y.toInt + 15) := by
    by_cases hlast : i = 15
    · exact .inl (by rw [hlast]; rfl)
    · have hle := Int.mul_le_mul_of_nonneg_left (by omega : y.toInt + i + 1 ≤ y.toInt + 15)
        (by omega : 0 ≤ xSize.toInt)
      rw [mul_add xSize.toInt (y.toInt + i), mul_one] at hle
      exact .inr hle
  unfold pixelAddr
  omega

/-- The pixels `__putchar` writes when the last scan line of the cell overflows. -/
theorem putchar_ne (h : p.InGrid) (hg : Geometry p) (hfits : ¬p.RowFits p.cursor.2)
    {w : ℤ × Color} (hw : w ∈ putchar font p.xResolution frColor bkColor (p.put c)) :
    w.1 ≠ cellPixel p.xResolution.toInt p.cursor.1 p.cursor.2 15 0 := by
  have hin := inGrid_iff.mp h
  have hlt : 8 * (p.cursor.1 + 1) < 2 ^ 31 ∧ 16 * (p.cursor.2 + 1) < 2 ^ 31 := h.lt hg
  have hx := put_x (c := c) hg hin.1 (by omega)
  have hy := put_y (c := c) hg hin.2.2.1 (by omega)
  unfold putchar at hw
  simp only [List.mem_flatMap, List.mem_map, List.mem_range] at hw
  obtain ⟨i, hi, j, hj, rfl⟩ := hw
  have hne := pixelAddr_ne (x := (p.put c).x) (y := (p.put c).y) hg.xRes_ge (by omega) (by omega)
    hi hj (by rw [hy]; exact not_lt.mp hfits)
  rw [hx, hy] at hne
  unfold cellPixel
  rwa [Nat.cast_zero, add_zero]

/-- **Backspace undoes a character that is not printed in the last column**, on a grid of at least
two columns, and only such a one; the number of rows does not matter.  The pixels of its cell have
to be inside the range of the offsets, which they are on a frame of at most `2 ^ 31` pixels. -/
theorem backspaceUndoes_iff (font : Font) (frColor bkColor : Color) (hg : Geometry p)
    (hcols : 2 ≤ p.columns) (h : p.InGrid) (hc : Ordinary c) :
    BackspaceUndoes font frColor bkColor p c ↔
      p.cursor.1 + 1 < p.columns ∧ p.RowFits p.cursor.2 := by
  have hin := inGrid_iff.mp h
  refine ⟨fun hundoes => ?_, fun ⟨hlt, hfits⟩ => backspaceUndoes_of_lt h hg hc hlt hfits⟩
  have hlt : p.cursor.1 + 1 < p.columns := by
    have hback := cursor_print_backspace font frColor bkColor (fun _ => 0) h hg hc
    rw [(hundoes fun _ => 0).pos] at hback
    exact (carry_move_backspace hcols ⟨hin.1, hin.2.1⟩ hin.2.2).mp hback.symm
  refine ⟨hlt, ?_⟩
  by_contra hfits
  -- a frame buffer of one colour that is not the one of the pixel keeps it there
  obtain ⟨other, hother⟩ : ∃ other, other ≠ glyphColor font frColor bkColor blank 15 0 :=
    ⟨_, (BitVec.ne_not_self (by decide)).symm⟩
  have hcell := (hundoes fun _ => other).cell 15 (by decide) 0 (by decide)
  rw [Screen.print, List.foldl_cons, List.foldl_cons, List.foldl_nil,
    Screen.printChar_ordinary h hg hc hlt, Screen.printChar_backspace h hg] at hcell
  have hkept (c : BitVec 8) (px : ℤ → Color) :
      stores px (putchar font p.xResolution frColor bkColor (p.put c))
        (cellPixel p.xResolution.toInt p.cursor.1 p.cursor.2 15 0) =
      px (cellPixel p.xResolution.toInt p.cursor.1 p.cursor.2 15 0) :=
    stores_of_forall_ne fun w hw => putchar_ne h hg hfits hw
  simp only at hcell
  rw [hkept, hkept] at hcell
  exact hother hcell

/-- A character in the middle of the screen `resolution_init` sets. -/
theorem resolutionInit_backspaceUndoes :
    BackspaceUndoes (fun c _ => c) 0xffffff 0 (resolutionInit.moved 5 3) 0x41 :=
  (backspaceUndoes_iff _ _ _ (geometry_resolutionInit 5 3) (by decide)
    ⟨by decide, by decide, by decide, by decide⟩ ⟨by decide, by decide, by decide⟩).mpr
    ⟨by decide, by decide⟩

/-- **In the last column** the backspace leaves the cursor in the next row. -/
theorem lastColumn_not_backspaceUndoes :
    let p := resolutionInit.moved 179 0
    Geometry p ∧ 2 ≤ p.columns ∧ 2 ≤ p.rows ∧ p.InGrid ∧ p.cursor ≠ (p.columns - 1, p.rows - 1) ∧
      Ordinary 0x41 ∧
      (Screen.print (fun c _ => c) 0xffffff 0 ⟨p, fun _ => 7⟩ [0x41, backspaceChar]).pos.cursor =
        (0, 1) ∧
      ¬BackspaceUndoes (fun c _ => c) 0xffffff 0 p 0x41 := by
  have hin : (resolutionInit.moved 179 0).InGrid := ⟨by decide, by decide, by decide, by decide⟩
  have hc : Ordinary 0x41 := ⟨by decide, by decide, by decide⟩
  have hcursor (px : ℤ → Color) := cursor_print_backspace (fun c _ => c) 0xffffff 0 px hin
    (geometry_resolutionInit 179 0) hc
  refine ⟨geometry_resolutionInit 179 0, by decide, by decide, hin, by decide, hc, ?_,
    fun hundoes => ?_⟩
  · exact (hcursor _).trans (by decide)
  · have hback := hcursor fun _ => 7
    rw [(hundoes fun _ => 7).pos] at hback
    exact absurd hback (by decide)

end Print
end OSLib
