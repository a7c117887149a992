import OSLib.Print.Screen

/-!
# Drawing inside the grid

The cell a call of `__putchar` draws is the one its corner names.  From a cursor inside the grid the
pixels of the cell are where they belong as soon as the offsets of its scan lines, which are
products of two `int32`, do not overflow.  `Guarded` lists what a byte may be in a position: it
holds of every byte but a backspace that leaves its row, a tab that passes the last column, and
characters in a row of cells whose pixels do not fit.  On a frame of at most `2 ^ 31` pixels the
last case does not occur, and `Guarded` is exact.

The condition is on the cursor and the byte before the call, so a text can be checked byte by byte,
and the last clause of `Guarded` is the only one that depends on the size of the screen.
-/

namespace OSLib
namespace Print

variable {p : Position} {c : BitVec 8}

/-! ## One call of `__putchar` -/

theorem put_x (hg : Geometry p) (h : 0 ≤ p.cursor.1) (hlt : 8 * p.cursor.1 < 2 ^ 31) :
    (p.put c).x.toInt = 8 * p.cursor.1 := by
  have height : p.xCharSize.toInt = 8 := by rw [hg.xChar]; rfl
  have hmul : p.xPosition.toInt * p.xCharSize.toInt = 8 * p.cursor.1 := by
    rw [height, mul_comm]
    rfl
  exact (toInt_mul_of_fits (hmul ▸ ⟨by omega, hlt⟩)).trans hmul

theorem put_y (hg : Geometry p) (h : 0 ≤ p.cursor.2) (hlt : 16 * p.cursor.2 < 2 ^ 31) :
    (p.put c).y.toInt = 16 * p.cursor.2 := by
  have hsixteen : p.yCharSize.toInt = 16 := by rw [hg.yChar]; rfl
  have hmul : p.yPosition.toInt * p.yCharSize.toInt = 16 * p.cursor.2 := by
    rw [hsixteen, mul_comm]
    rfl
  exact (toInt_mul_of_fits (hmul ▸ ⟨by omega, hlt⟩)).trans hmul

/-- The address of a pixel of a scan line whose offset does not overflow. -/
theorem pixelAddr_eq {xSize x y : Int32} {i : ℕ} (j : ℕ) (hx : 0 ≤ xSize.toInt) (hy : 0 ≤ y.toInt)
    (hi : y.toInt + i < 2 ^ 31) (hfits : xSize.toInt * (y.toInt + i) < 2 ^ 31) :
    pixelAddr xSize x y i j = xSize.toInt * (y.toInt + i) + x.toInt + j := by
  have hnat : (Int32.ofNat i).toInt = i := toInt_ofNat_of_lt (by omega)
  have hline : (y + Int32.ofNat i).toInt = y.toInt + i := by
    rw [toInt_add_of_fits, hnat]
    rw [hnat]
    exact ⟨by omega, hi⟩
  have hnonneg : 0 ≤ xSize.toInt * (y.toInt + i) := Int.mul_nonneg hx (by omega)
  unfold pixelAddr
  rw [toInt_mul_of_fits, hline]
  rw [hline]
  exact ⟨by omega, hfits⟩

/-- **A call at a cursor inside the grid draws its cell.** -/
theorem drawsCell_put (h : p.InGrid) (hg : Geometry p) (hfits : p.RowFits p.cursor.2)
    (c : BitVec 8) : p.DrawsCell (p.put c) p.cursor.1 p.cursor.2 := by
  have hx : 0 ≤ p.cursor.1 := h.x_nonneg
  have hy : 0 ≤ p.cursor.2 := h.y_nonneg
  have hlt : 8 * (p.cursor.1 + 1) < 2 ^ 31 ∧ 16 * (p.cursor.2 + 1) < 2 ^ 31 := h.lt hg
  have hres := hg.xRes_ge
  have hputx := put_x (c := c) hg hx (by omega)
  have hputy := put_y (c := c) hg hy (by omega)
  refine ⟨hputx, hputy, fun i hi j _ => ?_⟩
  have hline : p.xResolution.toInt * (16 * p.cursor.2 + i) < 2 ^ 31 :=
    (Int.mul_le_mul_of_nonneg_left (by omega) (by omega)).trans_lt hfits
  rw [pixelAddr_eq j (by omega) (by omega) (by omega) (by rwa [hputy]), hputx, hputy, add_assoc]

theorem drawsInGrid_put (h : p.InGrid) (hg : Geometry p) (hfits : p.RowFits p.cursor.2)
    (c : BitVec 8) : p.DrawsInGrid (p.put c) :=
  ⟨p.cursor.1, p.cursor.2, h.x_nonneg, h.x_lt, h.y_nonneg, h.y_lt, drawsCell_put h hg hfits c⟩

/-! ## One byte -/

/-- The calls a byte makes draw inside the grid. -/
def Draws (p : Position) (c : BitVec 8) : Prop := ∀ q ∈ (p.printChar c).2, p.DrawsInGrid q

/-- A byte that may be printed at a position. -/
def Guarded (p : Position) (c : BitVec 8) : Prop :=
  if c = newlineChar then True
  else if c = backspaceChar then
    0 < p.cursor.1 ∧ p.RowFits p.cursor.2 ∨
      p.columns = 1 ∧ (0 < p.cursor.2 ∧ p.RowFits (p.cursor.2 - 1) ∨ p.rows = 1 ∧ p.RowFits 0)
  else if c = tabChar then p.cursor.1 / 8 * 8 + 8 ≤ p.columns ∧ p.RowFits p.cursor.2
  else p.RowFits p.cursor.2

instance : Decidable (Guarded p c) := by
  unfold Guarded
  infer_instance

/-- A position on the same screen, at a cell of the grid, draws in it. -/
theorem drawsInGrid_moved {x y : Int32} {col row : ℤ} (hg : Geometry p)
    (hcursor : (p.moved x y).cursor = (col, row)) (hcol : 0 ≤ col ∧ col < p.columns)
    (hrow : 0 ≤ row ∧ row < p.rows) (hfits : p.RowFits row) (c : BitVec 8) :
    p.DrawsInGrid ((p.moved x y).put c) := by
  have hin : (p.moved x y).InGrid := by
    rw [inGrid_iff, hcursor]
    exact ⟨hcol.1, hcol.2, hrow.1, hrow.2⟩
  have hfits' : (p.moved x y).RowFits (p.moved x y).cursor.2 := by
    rw [hcursor]
    exact hfits
  obtain ⟨a, b, ha, ha', hb, hb', hdraws⟩ := drawsInGrid_put hin (hg.moved x y) hfits' c
  exact ⟨a, b, ha, ha', hb, hb', hdraws.x_eq, hdraws.y_eq, hdraws.pixel⟩

theorem draws_backspace (h : p.InGrid) (hg : Geometry p) (hguard : Guarded p backspaceChar) :
    p.DrawsInGrid (p.backspace.put blank) := by
  have hcursor := cursor_backspace h hg
  obtain ⟨x, y, hmoved⟩ := switch_moved p backspaceChar
  have hback : p.backspace = p.moved x y := hmoved
  have hcols := hg.columns_bounds
  have hin := inGrid_iff.mp h
  rw [hback] at hcursor ⊢
  rcases hguard with ⟨hx, hfits⟩ | ⟨hone, hrest⟩
  · rw [if_pos hx] at hcursor
    exact drawsInGrid_moved hg hcursor (by omega) (by omega) hfits _
  · rw [if_neg (by omega), hone] at hcursor
    rcases hrest with ⟨hy, hfits⟩ | ⟨hrow, hfits⟩
    · rw [if_pos hy] at hcursor
      exact drawsInGrid_moved hg hcursor (by omega) (by omega) hfits _
    · rw [if_neg (by omega), hrow] at hcursor
      exact drawsInGrid_moved hg hcursor (by omega) (by omega) hfits _

/-- The columns a tab draws at. -/
theorem mem_tab (h : p.InGrid) (hg : Geometry p) {q : Put} :
    q ∈ (p.tab p.tabCnt.toBitVec.toNat).2 ↔
      ∃ k : ℕ, (k : ℤ) < 8 - p.cursor.1 % 8 ∧
        (p.moved (p.xPosition + Int32.ofNat k) p.yPosition).put blank = q := by
  have hx : 0 ≤ p.cursor.1 := h.x_nonneg
  have hlt : 8 * (p.cursor.1 + 1) < 2 ^ 31 := (h.lt hg).1
  have hcnt := toNat_tabCnt hx (by omega)
  rw [tab_eq]
  simp only [List.mem_map, List.mem_range]
  constructor
  · rintro ⟨k, hk, rfl⟩
    exact ⟨k, by omega, rfl⟩
  · rintro ⟨k, hk, rfl⟩
    exact ⟨k, by omega, rfl⟩

/-- **A guarded byte draws inside the grid.** -/
theorem Guarded.draws (h : p.InGrid) (hg : Geometry p) (hguard : Guarded p c) : Draws p c := by
  have hin := inGrid_iff.mp h
  intro q hq
  unfold Position.printChar Position.switch at hq
  by_cases hnew : c = newlineChar
  · rw [if_pos hnew] at hq
    cases hq
  by_cases hback : c = backspaceChar
  · subst hback
    rw [if_neg hnew, if_pos rfl] at hq
    rw [List.mem_singleton.mp hq]
    exact draws_backspace h hg hguard
  by_cases htab : c = tabChar
  · rw [if_neg hnew, if_neg hback, if_pos htab] at hq
    unfold Guarded at hguard
    rw [if_neg hnew, if_neg hback, if_pos htab] at hguard
    obtain ⟨k, hk, rfl⟩ := (mem_tab h hg).mp hq
    have hcols := hg.columns_bounds
    have hcursor := cursor_moved_add (k := k) hin.1 (by omega)
    exact drawsInGrid_moved hg hcursor (by omega) (by omega) hguard.2 _
  · rw [if_neg hnew, if_neg hback, if_neg htab] at hq
    unfold Guarded at hguard
    rw [if_neg hnew, if_neg hback, if_neg htab] at hguard
    rw [List.mem_singleton.mp hq]
    exact drawsInGrid_put h hg hguard c

/-- A frame of at most `2 ^ 31` pixels. -/
def FrameFits (p : Position) : Prop := p.xResolution.toInt * p.yResolution.toInt ≤ 2 ^ 31

theorem FrameFits.rowFits (h : FrameFits p) (hg : Geometry p) {y : ℤ} (hy : y < p.rows) :
    p.RowFits y := by
  have hres := hg.xRes_ge
  have hrow : 16 * y + 15 + 1 ≤ p.yResolution.toInt := by
    unfold Position.rows at hy
    omega
  have hle := Int.mul_le_mul_of_nonneg_left hrow (by omega : 0 ≤ p.xResolution.toInt)
  rw [mul_add, mul_one] at hle
  unfold FrameFits at h
  unfold Position.RowFits
  omega

/-- On such a frame there are few columns and rows. -/
theorem FrameFits.bounds (h : FrameFits p) (hg : Geometry p) :
    p.columns ≤ 2 ^ 24 ∧ p.rows ≤ 2 ^ 24 := by
  have hxres := hg.xRes_ge
  have hyres := hg.yRes_ge
  unfold FrameFits at h
  have hx := Int.mul_le_mul_of_nonneg_left hyres (by omega : 0 ≤ p.xResolution.toInt)
  have hy := Int.mul_le_mul_of_nonneg_right hxres (by omega : 0 ≤ p.yResolution.toInt)
  unfold Position.columns Position.rows
  omega

/-- A backspace drawn inside the grid. -/
theorem column_of_drawsInGrid_backspace (h : p.InGrid) (hg : Geometry p) (hf : FrameFits p)
    (hdraws : p.DrawsInGrid (p.backspace.put blank)) :
    0 < p.cursor.1 ∨ p.columns = 1 ∧ (0 < p.cursor.2 ∨ p.rows = 1) := by
  have hcursor := cursor_backspace h hg
  obtain ⟨x, y, hmoved⟩ := switch_moved p backspaceChar
  have hback : p.backspace = p.moved x y := hmoved
  have hcols := hg.columns_bounds
  have hrows := hg.rows_bounds
  have hbounds := hf.bounds hg
  obtain ⟨a, b, ha, ha', hb, hb', hdraws⟩ := hdraws
  have hx := hdraws.x_eq
  have hy := hdraws.y_eq
  rw [hback] at hcursor hx hy
  by_cases hpos : 0 < p.cursor.1
  · exact .inl hpos
  -- the column is counted in pixels
  rw [if_neg hpos] at hcursor
  have hcol : (p.moved x y).cursor.1 = (p.columns - 1) * 8 := congrArg Prod.fst hcursor
  rw [put_x (hg.moved x y) (by omega) (by omega), hcol] at hx
  refine .inr ⟨by omega, ?_⟩
  by_cases hrow : 0 < p.cursor.2
  · exact .inl hrow
  -- and so is the row
  rw [if_neg hrow] at hcursor
  have hlast : (p.moved x y).cursor.2 = (p.rows - 1) * 16 := congrArg Prod.snd hcursor
  by_cases hfits : 16 * (p.moved x y).cursor.2 < 2 ^ 31
  · rw [put_y (hg.moved x y) (by omega) hfits, hlast] at hy
    omega
  · have hsixteen : p.yCharSize.toInt = 16 := by rw [hg.yChar]; rfl
    have hmul : y.toInt * p.yCharSize.toInt = 16 * ((p.rows - 1) * 16) := by
      rw [hsixteen, mul_comm, ← hlast]
      rfl
    have hputy : ((p.moved x y).put blank).y.toInt = 16 * ((p.rows - 1) * 16) - 2 ^ 32 := by
      show (y * p.yCharSize).toInt = _
      rw [Int32.toInt_mul, hmul, bmod_of_ge (by omega) (by omega)]
    omega

/-- **On a frame of at most `2 ^ 31` pixels the guard is exact.** -/
theorem Draws.guarded (h : p.InGrid) (hg : Geometry p) (hf : FrameFits p) (hdraws : Draws p c) :
    Guarded p c := by
  have hin := inGrid_iff.mp h
  have hrow := hf.rowFits hg hin.2.2.2
  unfold Draws Position.printChar Position.switch at hdraws
  unfold Guarded
  split
  · trivial
  next hnew =>
  rw [if_neg hnew] at hdraws
  split
  · next hback =>
    rw [if_pos hback] at hdraws
    rcases column_of_drawsInGrid_backspace h hg hf (hdraws _ (List.mem_singleton_self _)) with
      hx | ⟨hcol, hy | hone⟩
    · exact .inl ⟨hx, hrow⟩
    · exact .inr ⟨hcol, .inl ⟨hy, hf.rowFits hg (by omega)⟩⟩
    · exact .inr ⟨hcol, .inr ⟨hone, hf.rowFits hg (by omega)⟩⟩
  next hback =>
  rw [if_neg hback] at hdraws
  split
  · next htab =>
    rw [if_pos htab] at hdraws
    refine ⟨?_, hrow⟩
    by_contra hcross
    have hlt := hg.columns_bounds
    obtain ⟨k, hk⟩ := Int.eq_ofNat_of_zero_le (show 0 ≤ p.columns - p.cursor.1 by omega)
    have hcursor := cursor_moved_add (k := k) hin.1 (by omega)
    -- the call in the first column past the last one
    obtain ⟨a, b, ha, ha', -, -, hcell⟩ := hdraws _ ((mem_tab h hg).mpr ⟨k, by omega, rfl⟩)
    have hx := hcell.x_eq
    have hcol := congrArg Prod.fst hcursor
    rw [put_x (hg.moved _ _) (by rw [hcol]; show 0 ≤ p.cursor.1 + k; omega)
      (by rw [hcol]; show 8 * (p.cursor.1 + k) < 2 ^ 31; omega), hcol] at hx
    simp only at hx
    omega
  · exact hrow

/-! ## Whole texts -/

/-- The run of the positions a text makes. -/
def printed (p : Position) (text : List (BitVec 8)) : List (BitVec 8 × Position) :=
  runOf (fun p c => (p.printChar c).1) p text

theorem printed_cons (p : Position) (c : BitVec 8) (text : List (BitVec 8)) :
    printed p (c :: text) = (c, (p.printChar c).1) :: printed (p.printChar c).1 text := rfl

/-- **Printing stays inside the grid.**  The cursor never leaves it, and every byte of a text draws
inside it as long as the bytes are guarded; on a frame of at most `2 ^ 31` pixels only then. -/
theorem always_draws (h : p.InGrid) (hg : Geometry p) (text : List (BitVec 8)) :
    Always (fun _ _ q => q.InGrid) p (printed p text) ∧
    (Always (fun p c _ => Guarded p c) p (printed p text) →
      Always (fun p c _ => Draws p c) p (printed p text)) ∧
    (FrameFits p → Always (fun p c _ => Draws p c) p (printed p text) →
      Always (fun p c _ => Guarded p c) p (printed p text)) := by
  induction text generalizing p with
  | nil => exact ⟨trivial, fun _ => trivial, fun _ _ => trivial⟩
  | cons c text ih =>
    obtain ⟨x, y, hmoved⟩ := printChar_moved p c
    have hin := inGrid_printChar h hg c
    have hg' : Geometry (p.printChar c).1 := hmoved ▸ hg.moved x y
    obtain ⟨hall, hdraws, hguard⟩ := ih hin hg'
    have hfits : FrameFits p → FrameFits (p.printChar c).1 := fun hf => hmoved ▸ hf
    simp only [printed_cons, Always.cons]
    refine ⟨⟨hin, hall⟩, ?_, ?_⟩
    · rintro ⟨hc, hrun⟩
      exact ⟨hc.draws h hg, hdraws hrun⟩
    · rintro hf ⟨hc, hrun⟩
      exact ⟨hc.guarded h hg hf, hguard (hfits hf) hrun⟩

/-- The position `resolution_init` sets. -/
def resolutionInit : Position :=
  { xResolution := 1440, yResolution := 900, xPosition := 0, yPosition := 0, xCharSize := 8,
    yCharSize := 16 }

theorem geometry_resolutionInit (x y : Int32) : Geometry (resolutionInit.moved x y) :=
  ⟨rfl, rfl, show (8 : Int32) ≤ 1440 by decide, show (16 : Int32) ≤ 900 by decide⟩

/-- A character and a newline at the start of the screen. -/
theorem resolutionInit_draws :
    Always (fun _ _ q => q.InGrid) resolutionInit (printed resolutionInit [0x41, newlineChar]) ∧
      Always (fun p c _ => Draws p c) resolutionInit
        (printed resolutionInit [0x41, newlineChar]) := by
  obtain ⟨hin, hdraws, -⟩ := always_draws (p := resolutionInit) ⟨by decide, by decide, by decide,
    by decide⟩ (geometry_resolutionInit 0 0) [0x41, newlineChar]
  exact ⟨hin, hdraws (by decide +kernel)⟩

/-- **A tab near the right edge** draws blanks past the last of the 180 columns. -/
theorem tab_not_draws :
    let p := resolutionInit.moved 176 0
    Geometry p ∧ p.InGrid ∧ ¬ Draws p tabChar := by
  refine ⟨geometry_resolutionInit 176 0, ⟨by decide, by decide, by decide, by decide⟩, fun h => ?_⟩
  -- the fifth blank
  obtain ⟨x, y, -, hx, -, -, hcell⟩ := h ⟨1440, 0, blank⟩ (by decide +kernel)
  have hcorner : (1440 : ℤ) = 8 * x := hcell.x_eq
  have hlt : x < 180 := hx
  omega

end Print
end OSLib
