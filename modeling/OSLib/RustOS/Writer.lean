import OSLib.Foundation.Loops
import Mathlib.Logic.Function.Basic

/-!
# rustOS: `vga_buffer.rs`

A `Writer` prints at the bottom of the 25 rows of the VGA buffer.  A full row is left lazily: a
character goes to a new row when the column of the writer is already 80.  A new row moves the other
rows up in place, cell by cell, and blanks the last one.

The rows that have left the screen are gone from the buffer, so the purpose of all this is stated
with a terminal that keeps them: it numbers its rows, and a new row is the next number.
`writeStrings_shows` says that the buffer shows the last 25 rows of the terminal, whatever is
printed.

An index out of range would panic; an operation that panics has no result.

The indices are natural numbers and compared with the sizes of the arrays where the code indexes
them.  The order in which `new_line` moves the cells matters, since it moves them in place, and so
it is done cell by cell here too; that the result is the rows moved up is a lemma.  Volatile writes
are writes.

`Shows` relates a writer to a terminal: the buffer is the last 25 rows, and the columns agree.  It
is kept by one byte, with the lazy new row as its only case of interest, and so by a text and by a
list of texts.  What a row held when it left the screen is then a fact about terminals, whose rows
are never written again once the cursor has passed them (`KeptBy`).
-/

namespace OSLib
namespace RustOS

/-! ## The writer -/

/-- `BUFFER_HEIGHT`. -/
def bufferHeight : ℕ := 25

/-- `BUFFER_WIDTH`. -/
def bufferWidth : ℕ := 80

/-- `ScreenChar`. -/
structure ScreenChar where
  ascii : BitVec 8
  color : BitVec 8
  deriving DecidableEq, Repr

/-- A row of the screen. -/
abbrev Row := Fin bufferWidth → ScreenChar

/-- `Buffer`. -/
abbrev Buffer := Fin bufferHeight → Row

namespace Buffer

variable (b : Buffer) (row col : ℕ)

/-- `chars[row][col].read()`. -/
def read : Option ScreenChar :=
  if h : row < bufferHeight ∧ col < bufferWidth then some (b ⟨row, h.1⟩ ⟨col, h.2⟩) else none

/-- `chars[row][col].write(c)`. -/
def write (c : ScreenChar) : Option Buffer :=
  if h : row < bufferHeight ∧ col < bufferWidth then
    some (Function.update b ⟨row, h.1⟩ (Function.update (b ⟨row, h.1⟩) ⟨col, h.2⟩ c))
  else none

end Buffer

/-- `Writer`. -/
structure Writer where
  colPos : ℕ
  color : BitVec 8
  buffer : Buffer

/-- The bytes of a string. -/
abbrev Text := List (BitVec 8)

/-- `b'\n'`. -/
def newline : BitVec 8 := 0x0a

namespace Writer

/-- The inner loop of `new_line`: copy a row to the one above. -/
def copyRow (row : ℕ) (b : Buffer) : Option Buffer :=
  forRange 0 bufferWidth (fun col b => do b.write (row - 1) col (← b.read row col)) b

/-- `clear_row`. -/
def clearRow (w : Writer) (row : ℕ) : Option Writer := do
  let b ← forRange 0 bufferWidth (fun col b => b.write row col ⟨0x20, w.color⟩) w.buffer
  return { w with buffer := b }

/-- `new_line`. -/
def newLine (w : Writer) : Option Writer := do
  let b ← forRange 1 (bufferHeight - 1) copyRow w.buffer
  let w ← clearRow { w with buffer := b } (bufferHeight - 1)
  return { w with colPos := 0 }

/-- `write_byte`. -/
def writeByte (w : Writer) (byte : BitVec 8) : Option Writer :=
  if byte = newline then w.newLine
  else do
    let w ← if w.colPos ≥ bufferWidth then w.newLine else some w
    let b ← w.buffer.write (bufferHeight - 1) w.colPos ⟨byte, w.color⟩
    return { w with buffer := b, colPos := w.colPos + 1 }

/-- One round of the loop of `write_string`. -/
def writeChar (w : Writer) (byte : BitVec 8) : Option Writer :=
  if 0x20 ≤ byte ∧ byte ≤ 0x7e ∨ byte = newline then w.writeByte byte else w.writeByte 0xfe

/-- `write_string`. -/
def writeString (w : Writer) (s : Text) : Option Writer := s.foldlM writeChar w

/-- Calls of `write_string` one after the other. -/
def writeStrings (w : Writer) (ss : List Text) : Option Writer := ss.foldlM writeString w

end Writer

/-! ## The terminal -/

/-- A terminal that keeps all its rows: the row numbered `last` is the one being written, at the
column `col`. -/
structure Terminal where
  rows : ℕ → Row
  last : ℕ
  col : ℕ

/-- A row of spaces. -/
def blankRow (color : BitVec 8) : Row := fun _ => ⟨0x20, color⟩

/-- The byte a terminal places for a byte of a string. -/
def shown (byte : BitVec 8) : BitVec 8 := if 0x20 ≤ byte ∧ byte ≤ 0x7e then byte else 0xfe

namespace Terminal

variable (t : Terminal) (color : BitVec 8)

/-- Start a new row. -/
def newRow : Terminal := ⟨Function.update t.rows (t.last + 1) (blankRow color), t.last + 1, 0⟩

/-- Place a character at the cursor. -/
def place (c : ScreenChar) : Terminal :=
  { t with
    rows := Function.update t.rows t.last fun j => if j.val = t.col then c else t.rows t.last j
    col := t.col + 1 }

/-- Print a byte: a newline starts a row, any other byte is placed at the cursor, after starting a
row if the last one is full. -/
def put (byte : BitVec 8) : Terminal :=
  if byte = newline then t.newRow color
  else (if t.col = bufferWidth then t.newRow color else t).place ⟨shown byte, color⟩

/-- Print a text. -/
def print (s : Text) : Terminal := s.foldl (put · color) t

/-- The last 25 rows. -/
def screen : Buffer := fun i => t.rows (t.last + 1 - bufferHeight + i)

/-- The terminal a writer with this buffer and this column starts from. -/
def start (b : Buffer) (col : ℕ) : Terminal where
  rows i := if h : i < bufferHeight then b ⟨i, h⟩ else blankRow 0
  last := bufferHeight - 1
  col := col

end Terminal

/-- The writer shows the last rows of the terminal, with the same cursor. -/
structure Shows (w : Writer) (t : Terminal) : Prop where
  buffer : w.buffer = t.screen
  col : w.colPos = t.col
  col_le : t.col ≤ bufferWidth
  last : bufferHeight ≤ t.last + 1

variable {b b' : Buffer} {w w' : Writer} {t : Terminal} {row col : ℕ} {c : ScreenChar}
  {color byte : BitVec 8}

/-! ## A new row -/

namespace Buffer

theorem read_eq (hrow : row < bufferHeight) (hcol : col < bufferWidth) :
    b.read row col = some (b ⟨row, hrow⟩ ⟨col, hcol⟩) := dif_pos ⟨hrow, hcol⟩

/-- A write in range changes one cell. -/
theorem write_eq (hrow : row < bufferHeight) (hcol : col < bufferWidth) :
    ∃ b', b.write row col c = some b' ∧
      ∀ i j, b' i j = if i.val = row ∧ j.val = col then c else b i j := by
  refine ⟨_, dif_pos ⟨hrow, hcol⟩, fun i j => ?_⟩
  by_cases hi : i.val = row
  · obtain rfl : i = ⟨row, hrow⟩ := Fin.ext hi
    rw [Function.update_self]
    by_cases hj : j.val = col
    · obtain rfl : j = ⟨col, hcol⟩ := Fin.ext hj
      rw [Function.update_self, if_pos ⟨rfl, rfl⟩]
    · rw [Function.update_of_ne fun h => hj (congrArg Fin.val h), if_neg fun h => hj h.2]
  · rw [Function.update_of_ne fun h => hi (congrArg Fin.val h), if_neg fun h => hi h.1]

/-- The rows moved up, with a blank one at the bottom. -/
def scroll (b : Buffer) (color : BitVec 8) : Buffer := fun i =>
  if h : i.val + 1 < bufferHeight then b ⟨i.val + 1, h⟩ else blankRow color

end Buffer

/-- The first `k` cells of a row are copied to the row above. -/
def Copied (b : Buffer) (row : Fin bufferHeight) (k : ℕ) (b' : Buffer) : Prop :=
  ∀ i j, b' i j = if i.val + 1 = row ∧ j.val < k then b row j else b i j

/-- The first `k` cells of a row are blank. -/
def Cleared (b : Buffer) (color : BitVec 8) (row k : ℕ) (b' : Buffer) : Prop :=
  ∀ i j, b' i j = if i.val = row ∧ j.val < k then ⟨0x20, color⟩ else b i j

/-- The rows above `k` have been moved up. -/
def Scrolled (b : Buffer) (k : ℕ) (b' : Buffer) : Prop :=
  ∀ i, b' i = if h : i.val + 1 < k ∧ i.val + 1 < bufferHeight then b ⟨i.val + 1, h.2⟩ else b i

/-- The inner loop of `new_line` copies a row cell by cell. -/
theorem copyRow_eq (b : Buffer) (r : Fin bufferHeight) (hr : 1 ≤ r.val) :
    ∃ b', Writer.copyRow r b = some b' ∧ ∀ i, b' i = if i.val + 1 = r then b r else b i := by
  obtain ⟨b', hb', hI⟩ := forRange_invariant (I := Copied b r)
    (f := fun col b => do Buffer.write b (r - 1) col (← b.read r col)) (a := 0) (n := bufferWidth)
    (fun i j => (if_neg fun h => absurd h.2 (Nat.not_lt_zero _)).symm) fun col b₁ _ hcol hI => by
      have hcol' : col < bufferWidth := by omega
      have hr' := r.isLt
      obtain ⟨b₂, hb₂, hcell⟩ := Buffer.write_eq (b := b₁) (c := b₁ r ⟨col, hcol'⟩)
        (show r.val - 1 < bufferHeight by omega) hcol'
      refine ⟨b₂, ?_, fun i j => ?_⟩
      · rw [Buffer.read_eq r.isLt hcol']
        exact hb₂
      · -- the cell read has not been written before
        have hread : b₁ r ⟨col, hcol'⟩ = b r ⟨col, hcol'⟩ := by
          rw [hI, if_neg fun h => absurd h.1 (by omega)]
        rw [hcell, hread, hI]
        by_cases hj : j.val = col
        · obtain rfl : j = ⟨col, hcol'⟩ := Fin.ext hj
          by_cases hi : i.val + 1 = r
          · rw [if_pos (by omega), if_pos (by omega)]
          · rw [if_neg (by omega), if_neg (by omega), if_neg (by omega)]
        · rw [if_neg fun h => hj h.2]
          refine if_congr ?_ rfl rfl
          omega
  refine ⟨b', hb', fun i => funext fun j => ?_⟩
  rw [hI]
  have hj := j.isLt
  split <;> rename_i h <;> split <;> rename_i h' <;> first | rfl | omega

/-- `clear_row` blanks a row. -/
theorem clearRow_eq (w : Writer) {row : ℕ} (hrow : row < bufferHeight) :
    ∃ b', w.clearRow row = some { w with buffer := b' } ∧
      ∀ i, b' i = if i.val = row then blankRow w.color else w.buffer i := by
  obtain ⟨b', hb', hI⟩ := forRange_invariant (I := Cleared w.buffer w.color row)
    (f := fun col b => Buffer.write b row col ⟨0x20, w.color⟩) (a := 0) (n := bufferWidth)
    (fun i j => (if_neg fun h => absurd h.2 (Nat.not_lt_zero _)).symm) fun col b₁ _ hcol hI => by
      obtain ⟨b₂, hb₂, hcell⟩ := Buffer.write_eq (b := b₁) (c := ⟨0x20, w.color⟩) hrow
        (show col < bufferWidth by omega)
      refine ⟨b₂, hb₂, fun i j => ?_⟩
      rw [hcell, hI]
      by_cases hi : i.val = row ∧ j.val = col
      · rw [if_pos hi, if_pos (by omega)]
      · rw [if_neg hi]
        refine if_congr ?_ rfl rfl
        omega
  refine ⟨b', ?_, fun i => funext fun j => ?_⟩
  · unfold Writer.clearRow
    rw [hb']
    rfl
  · rw [hI]
    have hj := j.isLt
    split <;> rename_i h <;> split <;> rename_i h' <;> first | rfl | omega

/-- **`new_line` moves the rows up** and blanks the last one. -/
theorem newLine_eq (w : Writer) :
    w.newLine = some { w with colPos := 0, buffer := w.buffer.scroll w.color } := by
  obtain ⟨b', hb', hI⟩ := forRange_invariant (I := Scrolled w.buffer) (f := Writer.copyRow)
    (a := 1) (n := bufferHeight - 1)
    (fun i => (dif_neg fun h => absurd h.1 (by omega)).symm) fun row b₁ hpos hrow hI => by
      have hrow' : row < bufferHeight := by omega
      obtain ⟨b₂, hb₂, hrows⟩ := copyRow_eq b₁ ⟨row, hrow'⟩ hpos
      refine ⟨b₂, hb₂, fun i => ?_⟩
      rw [hrows, hI, hI]
      simp only
      by_cases hi : i.val + 1 = row
      · have hrow₁ : ¬ (row + 1 < row ∧ row + 1 < bufferHeight) := by omega
        subst hi
        rw [if_pos rfl, dif_neg (by omega), dif_pos (by omega)]
      · rw [if_neg hi]
        by_cases hlt : i.val + 1 < row ∧ i.val + 1 < bufferHeight
        · rw [dif_pos hlt, dif_pos (by omega)]
        · rw [dif_neg hlt, dif_neg (by omega)]
  obtain ⟨b₂, hb₂, hrows⟩ := clearRow_eq { w with buffer := b' }
    (show bufferHeight - 1 < bufferHeight by decide)
  have hscroll : b₂ = w.buffer.scroll w.color := by
    funext i
    have hi := i.isLt
    have hrow : b₂ i = if i.val = bufferHeight - 1 then blankRow w.color else b' i := hrows i
    rw [hrow, hI]
    unfold Buffer.scroll
    by_cases hlast : i.val = bufferHeight - 1
    · rw [if_pos hlast, dif_neg (by omega)]
    · rw [if_neg hlast, dif_pos (by omega), dif_pos (by omega)]
  unfold Writer.newLine
  rw [hb']
  simp only [Option.bind_eq_bind, Option.bind_some]
  rw [hb₂, hscroll]
  rfl

/-! ## The writer shows the terminal -/

/-- A new row. -/
theorem Shows.newLine (h : Shows w t) :
    ∃ w', w.newLine = some w' ∧ w'.color = w.color ∧ Shows w' (t.newRow w.color) := by
  refine ⟨_, newLine_eq w, rfl, ?_, rfl, Nat.zero_le _, Nat.le_succ_of_le h.last⟩
  have hlast := h.last
  funext i
  have hi := i.isLt
  rw [h.buffer]
  unfold Buffer.scroll Terminal.screen Terminal.newRow
  simp only
  by_cases hend : i.val + 1 < bufferHeight
  · rw [dif_pos hend, Function.update_of_ne (by omega)]
    exact congrArg t.rows (by omega)
  · rw [dif_neg hend, show t.last + 1 + 1 - bufferHeight + i = t.last + 1 by omega,
      Function.update_self]

/-- A character at the cursor. -/
theorem Shows.place (h : Shows w t) (hcol : t.col < bufferWidth) :
    ∃ b', w.buffer.write (bufferHeight - 1) w.colPos c = some b' ∧
      Shows { w with buffer := b', colPos := w.colPos + 1 } (t.place c) := by
  obtain ⟨b', hb', hcell⟩ := Buffer.write_eq (b := w.buffer) (c := c)
    (show bufferHeight - 1 < bufferHeight by decide) (h.col ▸ hcol)
  refine ⟨b', hb', ⟨?_, congrArg (· + 1) h.col, hcol, h.last⟩⟩
  have hlast := h.last
  funext i j
  have hi := i.isLt
  show b' i j = _
  rw [hcell, h.buffer, h.col]
  unfold Terminal.screen Terminal.place
  simp only
  by_cases hend : i.val = bufferHeight - 1
  · rw [show t.last + 1 - bufferHeight + i = t.last by omega, Function.update_self]
    exact if_congr (and_iff_right hend) rfl rfl
  · rw [if_neg fun h => hend h.1, Function.update_of_ne (by omega)]

/-- A character that is not a newline, after a new row if the last one is full. -/
theorem Shows.writeByte (h : Shows w t) (hb : byte ≠ newline) :
    ∃ w', w.writeByte byte = some w' ∧ w'.color = w.color ∧
      Shows w' ((if t.col = bufferWidth then t.newRow w.color else t).place ⟨byte, w.color⟩) := by
  have hle := h.col_le
  unfold Writer.writeByte
  rw [if_neg hb]
  by_cases hfull : t.col = bufferWidth
  · obtain ⟨w₁, hw₁, hcolor, h₁⟩ := h.newLine
    obtain ⟨b', hb', h'⟩ := h₁.place (c := ⟨byte, w.color⟩) (show 0 < bufferWidth by decide)
    rw [if_pos hfull, if_pos (by rw [h.col]; omega), hw₁]
    simp only [Option.bind_eq_bind, Option.bind_some]
    rw [hcolor, hb']
    exact ⟨_, rfl, rfl, hcolor ▸ h'⟩
  · obtain ⟨b', hb', h'⟩ := h.place (c := ⟨byte, w.color⟩) (by omega)
    rw [if_neg hfull, if_neg (by rw [h.col]; omega)]
    simp only [Option.bind_eq_bind, Option.bind_some]
    rw [hb']
    exact ⟨_, rfl, rfl, h'⟩

/-- **One byte.**  The writer does what the terminal does. -/
theorem Shows.writeChar (h : Shows w t) (byte : BitVec 8) :
    ∃ w', w.writeChar byte = some w' ∧ w'.color = w.color ∧ Shows w' (t.put w.color byte) := by
  unfold Writer.writeChar Terminal.put
  by_cases hnl : byte = newline
  · obtain ⟨w', hw', h'⟩ := h.newLine
    refine ⟨w', ?_, ?_⟩
    · rw [if_pos (.inr hnl), Writer.writeByte, if_pos hnl, hw']
    · rwa [if_pos hnl]
  · rw [if_neg hnl]
    unfold shown
    by_cases hprint : 0x20 ≤ byte ∧ byte ≤ 0x7e
    · rw [if_pos (.inl hprint), if_pos hprint]
      exact h.writeByte hnl
    · rw [if_neg (not_or.mpr ⟨hprint, hnl⟩), if_neg hprint]
      exact h.writeByte (by decide)

/-- A text. -/
theorem Shows.writeString (h : Shows w t) (s : Text) :
    ∃ w', w.writeString s = some w' ∧ w'.color = w.color ∧ Shows w' (t.print w.color s) := by
  induction s generalizing w t with
  | nil => exact ⟨w, rfl, rfl, h⟩
  | cons byte s ih =>
    obtain ⟨w₁, hw₁, hcolor, h₁⟩ := h.writeChar byte
    obtain ⟨w', hw', hcolor', h'⟩ := ih h₁
    refine ⟨w', ?_, hcolor'.trans hcolor, hcolor ▸ h'⟩
    unfold Writer.writeString at hw' ⊢
    rw [List.foldlM_cons, hw₁]
    exact hw'

/-- Several texts. -/
theorem Shows.writeStrings (h : Shows w t) (ss : List Text) :
    ∃ w', w.writeStrings ss = some w' ∧ w'.color = w.color ∧
      Shows w' (t.print w.color ss.flatten) := by
  induction ss generalizing w t with
  | nil => exact ⟨w, rfl, rfl, h⟩
  | cons s ss ih =>
    obtain ⟨w₁, hw₁, hcolor, h₁⟩ := h.writeString s
    obtain ⟨w', hw', hcolor', h'⟩ := ih h₁
    refine ⟨w', ?_, hcolor'.trans hcolor, ?_⟩
    · unfold Writer.writeStrings at hw' ⊢
      rw [List.foldlM_cons, hw₁]
      exact hw'
    · rw [hcolor] at h'
      unfold Terminal.print at h' ⊢
      rwa [List.flatten_cons, List.foldl_append]

theorem writeString_append (w : Writer) (s s' : Text) :
    w.writeString (s ++ s') = (w.writeString s).bind (·.writeString s') := by
  unfold Writer.writeString
  rw [List.foldlM_append]
  rfl

/-- A writer shows the terminal it starts from. -/
theorem shows_start (b : Buffer) (color : BitVec 8) (hcol : col ≤ bufferWidth) :
    Shows ⟨col, color, b⟩ (Terminal.start b col) := by
  refine ⟨funext fun i => ?_, rfl, hcol, Nat.le_refl _⟩
  unfold Terminal.screen Terminal.start
  simp only
  rw [show bufferHeight - 1 + 1 - bufferHeight + i = i.val from Nat.zero_add _, dif_pos i.isLt]

/-- **What `write_string` prints.**  From any buffer and any column up to 80, whatever is printed,
no index is out of range, the column stays up to 80, and the buffer is the last 25 rows of the
terminal. -/
theorem writeStrings_shows (b : Buffer) (color : BitVec 8) (hcol : col ≤ bufferWidth)
    (ss : List Text) :
    ∃ w, Writer.writeStrings ⟨col, color, b⟩ ss = some w ∧ w.colPos ≤ bufferWidth ∧
      w.colPos = ((Terminal.start b col).print color ss.flatten).col ∧
      w.buffer = ((Terminal.start b col).print color ss.flatten).screen := by
  obtain ⟨w, hw, -, h⟩ := (shows_start b color hcol).writeStrings ss
  exact ⟨w, hw, h.col ▸ h.col_le, h.col, h.buffer⟩

/-- A full last row, and then a character, a newline and two bytes outside ASCII. -/
theorem fullRow_shows :
    ∃ w, Writer.writeStrings ⟨80, 0x0e, fun _ => blankRow 0x07⟩ [[0x41], [0x0a, 0xc3, 0xa9]] =
        some w ∧ w.colPos ≤ bufferWidth ∧
      w.colPos = ((Terminal.start (fun _ => blankRow 0x07) 80).print 0x0e
        [0x41, 0x0a, 0xc3, 0xa9]).col ∧
      w.buffer = ((Terminal.start (fun _ => blankRow 0x07) 80).print 0x0e
        [0x41, 0x0a, 0xc3, 0xa9]).screen :=
  writeStrings_shows _ _ (Nat.le_refl 80) _

/-! ## What has been printed -/

namespace Terminal

variable (t) {t' t'' : Terminal} {r : ℕ} {j : Fin bufferWidth}

/-- A cell before the cursor. -/
def Before (r : ℕ) (j : Fin bufferWidth) : Prop := r < t.last ∨ r = t.last ∧ j.val < t.col

/-- The cells before the cursor are as they were, and the cursor has not moved back. -/
def KeptBy (t t' : Terminal) : Prop :=
  ∀ r j, t.Before r j → t'.Before r j ∧ t'.rows r j = t.rows r j

variable {t}

theorem KeptBy.trans (h : t.KeptBy t') (h' : t'.KeptBy t'') : t.KeptBy t'' := fun r j hb =>
  ⟨(h' r j (h r j hb).1).1, (h' r j (h r j hb).1).2.trans (h r j hb).2⟩

theorem keptBy_newRow : t.KeptBy (t.newRow color) := by
  intro r j hb
  unfold Before newRow at *
  simp only
  refine ⟨by omega, ?_⟩
  rw [Function.update_of_ne (by omega)]

theorem keptBy_place : t.KeptBy (t.place c) := by
  intro r j hb
  unfold Before place at *
  simp only
  refine ⟨by omega, ?_⟩
  by_cases hr : r = t.last
  · subst hr
    rw [Function.update_self, if_neg (by omega)]
  · rw [Function.update_of_ne hr]

theorem print_cons (s : Text) : t.print color (byte :: s) = (t.put color byte).print color s := rfl

/-- **What is printed stays.**  Printing changes no cell before the cursor. -/
theorem keptBy_print (t : Terminal) (color : BitVec 8) (s : Text) : t.KeptBy (t.print color s) := by
  induction s generalizing t with
  | nil => exact fun _ _ hb => ⟨hb, rfl⟩
  | cons byte s ih =>
    refine KeptBy.trans ?_ (ih _)
    show t.KeptBy (t.put color byte)
    unfold put
    split
    · exact keptBy_newRow
    · split
      · exact keptBy_newRow.trans keptBy_place
      · exact keptBy_place

/-- Where a byte moves the cursor, given as the number of its row and its column. -/
def advance (p : ℕ × ℕ) (byte : BitVec 8) : ℕ × ℕ :=
  if byte = newline then (p.1 + 1, 0)
  else if p.2 = bufferWidth then (p.1 + 1, 1) else (p.1, p.2 + 1)

/-- The cursor moves independently of what the rows hold. -/
theorem cursor_print (t : Terminal) (color : BitVec 8) (s : Text) :
    ((t.print color s).last, (t.print color s).col) = s.foldl advance (t.last, t.col) := by
  induction s generalizing t with
  | nil => rfl
  | cons byte s ih =>
    have hput : ((t.put color byte).last, (t.put color byte).col) =
        advance (t.last, t.col) byte := by
      unfold put advance
      split
      · rfl
      · split <;> rfl
    rw [List.foldl_cons, ← hput]
    exact ih _

end Terminal

end RustOS
end OSLib
