import OSLib.Print.Pieces

/-!
# What `color_printk` writes to `__buf`

`__buf` has 4096 bytes, and `__vsprintf` writes the text and its NUL there without counting.  The
length of a text is the sum of the lengths of its pieces, which the widths, precisions and arguments
determine, so the writes stay inside `__buf` exactly when that sum is below 4096.  A null pointer
for a `%s` is read: the line of the code that tests for it assigns `'\\0'`, which is the null
pointer again, and not a string.

The length is computed with the arithmetic of the code: width and precision are `int32` and wrap
around, so that a text may be shorter than its width.  The bound is on bytes and not on the screen,
and the NUL counts.
-/

namespace OSLib
namespace Print

/-! ## The length of a piece -/

/-- The bytes of a `%c`. -/
def charLength (flags : Flags) (width : Int32) : ℕ :=
  1 + paddings 0 (if flags.left then 1 else 2) (width - 1)

/-- The bytes of a `%s`, for a string of a length. -/
def stringLength (flags : Flags) (width precision len : Int32) : ℕ :=
  (shownLength precision len).toInt.toNat +
    paddings (shownLength precision len) (if flags.left then 1 else 2) width

/-- The conversion takes an argument of its own. -/
def takesArg (letter : BitVec 8) : Bool :=
  [0x63, 0x73, 0x6f, 0x70, 0x78, 0x58, 0x64, 0x69, 0x75].contains letter

/-- The bytes of a conversion. -/
def convertLength (mem : Mem) (letter : BitVec 8) (flags : Flags) (width precision : Int32)
    (qualifier : Option (BitVec 8)) (v : BitVec 64) : ℕ :=
  if letter = 0x63 then charLength flags width
  else if letter = 0x73 then stringLength flags width precision (Lib.strlen mem v)
  else if letter = 0x6f then numberLength (integerArg qualifier v) 8 width precision flags
  else if letter = 0x70 then
    if width = -1 then numberLength v 16 16 precision { flags with zeropad := true }
    else numberLength v 16 width precision flags
  else if letter = 0x78 then
    numberLength (integerArg qualifier v) 16 width precision { flags with small := true }
  else if letter = 0x58 then numberLength (integerArg qualifier v) 16 width precision flags
  else if letter = 0x64 ∨ letter = 0x69 then
    numberLength (integerArg qualifier v) 10 width precision { flags with sign := true }
  else if letter = 0x75 then numberLength (integerArg qualifier v) 10 width precision flags
  else if letter = 0x25 then 1
  else if letter = 0 then 1 else 2

theorem length_char (flags : Flags) (width : Int32) (v : BitVec 64) :
    (char flags width v).length = charLength flags width := by
  obtain ⟨htext, hcounter⟩ := countdownPre_eq (0x20 : BitVec 8) 0 width
  rw [countdown_eq] at htext hcounter
  have hsecond := (countdownPre_eq (0x20 : BitVec 8) 0 (countdownPre (0x20 : BitVec 8) 0 width).2).1
  rw [hcounter, countdown_eq] at hsecond
  unfold char charLength
  cases flags.left with
  | true =>
    simp only [if_true, htext, List.length_append, List.length_replicate, List.length_nil,
      List.length_singleton, paddings]
    omega
  | false =>
    simp only [Bool.false_eq_true, if_false, htext, hsecond, List.length_append,
      List.length_replicate, List.length_singleton, paddings]
    omega

theorem string_eq (mem : Mem) (flags : Flags) (width precision : Int32) {s : BitVec 64}
    (hs : s ≠ 0) :
    ∃ text, string mem flags width precision s = .ok text ∧
      text.length = stringLength flags width precision (Lib.strlen mem s) := by
  unfold string stringLength strlenArg
  simp only [if_neg hs, ok_bind]
  refine ⟨_, rfl, ?_⟩
  generalize shownLength precision (Lib.strlen mem s) = len
  cases flags.left with
  | true =>
    simp only [if_true, countdown_eq, List.length_append, List.length_replicate, List.length_nil,
      List.length_map, List.length_range, paddings]
    omega
  | false =>
    simp only [Bool.false_eq_true, if_false, countdown_eq, List.length_append,
      List.length_replicate, List.length_map, List.length_range, paddings]
    omega

theorem integer_eq (num : BitVec 64) {base : ℕ} (hb : 2 ≤ base ∧ base ≤ 36)
    (width precision : Int32) (flags : Flags) :
    ∃ text, integer num base width precision flags = .ok text ∧
      text.length = numberLength num base width precision flags := by
  have hsome : ∃ text, number num base width precision flags = some text := by
    rw [number, dif_neg (by omega)]
    exact ⟨_, rfl⟩
  obtain ⟨text, htext⟩ := hsome
  refine ⟨text, ?_, length_number htext⟩
  rw [integer, htext]

/-- **A conversion appends as many bytes as its length says**, unless it reads a null pointer. -/
theorem convert_eq (mem : Mem) (letter : BitVec 8) (flags : Flags) (width precision : Int32)
    (qualifier : Option (BitVec 8)) (v : BitVec 64) (hv : letter = 0x73 → v ≠ 0) :
    ∃ text, convert mem letter flags width precision qualifier v =
        .ok (text, if takesArg letter then 1 else 0) ∧
      text.length = convertLength mem letter flags width precision qualifier v := by
  have hmap {e : Except Fault (List (BitVec 8))} {n : ℕ} (ht : takesArg letter = true)
      (h : ∃ text, e = .ok text ∧ text.length = n) :
      ∃ text, e.map (·, 1) = .ok (text, if takesArg letter then 1 else 0) ∧ text.length = n := by
    obtain ⟨text, rfl, hlen⟩ := h
    exact ⟨text, by rw [ht]; rfl, hlen⟩
  unfold convert convertLength
  by_cases hc : letter = 0x63
  · subst hc
    exact ⟨_, rfl, length_char flags width v⟩
  by_cases hs : letter = 0x73
  · simp only [if_neg hc, if_pos hs]
    exact hmap (by subst hs; rfl) (string_eq mem flags width precision (hv hs))
  by_cases ho : letter = 0x6f
  · simp only [if_neg hc, if_neg hs, if_pos ho]
    exact hmap (by subst ho; rfl) (integer_eq _ (by omega) _ _ _)
  by_cases hp : letter = 0x70
  · simp only [if_neg hc, if_neg hs, if_neg ho, if_pos hp]
    split <;> exact hmap (by subst hp; rfl) (integer_eq _ (by omega) _ _ _)
  by_cases hx : letter = 0x78
  · simp only [if_neg hc, if_neg hs, if_neg ho, if_neg hp, if_pos hx]
    exact hmap (by subst hx; rfl) (integer_eq _ (by omega) _ _ _)
  by_cases hX : letter = 0x58
  · simp only [if_neg hc, if_neg hs, if_neg ho, if_neg hp, if_neg hx, if_pos hX]
    exact hmap (by subst hX; rfl) (integer_eq _ (by omega) _ _ _)
  by_cases hd : letter = 0x64 ∨ letter = 0x69
  · simp only [if_neg hc, if_neg hs, if_neg ho, if_neg hp, if_neg hx, if_neg hX, if_pos hd]
    exact hmap (by rcases hd with rfl | rfl <;> rfl) (integer_eq _ (by omega) _ _ _)
  by_cases hu : letter = 0x75
  · simp only [if_neg hc, if_neg hs, if_neg ho, if_neg hp, if_neg hx, if_neg hX, if_neg hd,
      if_pos hu]
    exact hmap (by subst hu; rfl) (integer_eq _ (by omega) _ _ _)
  have hno : takesArg letter = false := by
    rw [not_or] at hd
    simp only [takesArg, List.contains_eq_mem, List.mem_cons, List.not_mem_nil, or_false,
      decide_eq_false_iff_not, not_or]
    exact ⟨hc, hs, ho, hp, hx, hX, hd.1, hd.2, hu⟩
  simp only [if_neg hc, if_neg hs, if_neg ho, if_neg hp, if_neg hx, if_neg hX, if_neg hd,
    if_neg hu, hno]
  split
  · exact ⟨_, rfl, rfl⟩
  · split <;> exact ⟨_, rfl, rfl⟩

/-! ## The length of a text -/

variable (mem : Mem) (args : ℕ → BitVec 64)

namespace Piece

/-- The number of arguments a piece takes. -/
def used : Piece → ℕ
  | .byte _ => 0
  | .conversion s => s.stars + if takesArg s.letter then 1 else 0

/-- The bytes of a piece whose first argument has number `k`. -/
def length (k : ℕ) : Piece → ℕ
  | .byte _ => 1
  | .conversion s => convertLength mem s.letter (s.flagSet args k) (s.widthValue args k)
      (s.precisionValue args k) s.qualifier (args (k + s.stars))

/-- The piece is a `%s` with a null pointer. -/
def ReadsNull (k : ℕ) : Piece → Prop
  | .byte _ => False
  | .conversion s => s.letter = 0x73 ∧ args (k + s.stars) = 0

end Piece

/-- The bytes of pieces whose first argument has number `k`. -/
def textLength : ℕ → List Piece → ℕ
  | _, [] => 0
  | k, q :: ps => q.length mem args k + textLength (k + q.used) ps

/-- No piece is a `%s` with a null pointer. -/
def NoNull : ℕ → List Piece → Prop
  | _, [] => True
  | k, q :: ps => ¬ q.ReadsNull args k ∧ NoNull (k + q.used) ps

variable {mem} {args} {q : Piece} {p : Printing}

theorem emit_of_not (mem : Mem) (h : ¬ q.ReadsNull args p.arg) :
    ∃ r, emit mem args p q = .ok r ∧ r.arg = p.arg + q.used ∧
      r.text.length = p.text.length + q.length mem args p.arg := by
  cases q with
  | byte c =>
    refine ⟨_, rfl, rfl, ?_⟩
    rw [List.length_append]
    rfl
  | conversion s =>
    obtain ⟨text, hconvert, hlen⟩ := convert_eq mem s.letter (s.flagSet args p.arg)
      (s.widthValue args p.arg) (s.precisionValue args p.arg) s.qualifier (args (p.arg + s.stars))
      fun hletter hnull => h ⟨hletter, hnull⟩
    refine ⟨_, by rw [emit, hconvert]; rfl, by rw [Piece.used, Nat.add_assoc], ?_⟩
    rw [List.length_append, hlen]
    rfl

theorem emit_of_readsNull (h : q.ReadsNull args p.arg) : emit mem args p q = .error .null := by
  cases q with
  | byte c => exact h.elim
  | conversion s =>
    obtain ⟨hletter, hnull⟩ := h
    rw [emit, hletter, hnull]
    rfl

/-- **Printing pieces** gives a text of their length, unless one of them reads a null pointer. -/
theorem emit_pieces (mem : Mem) (args : ℕ → BitVec 64) (ps : List Piece) (p : Printing) :
    (NoNull args p.arg ps → ∃ r, ps.foldlM (emit mem args) p = .ok r ∧
      r.text.length = p.text.length + textLength mem args p.arg ps) ∧
    (¬ NoNull args p.arg ps → ps.foldlM (emit mem args) p = .error .null) := by
  induction ps generalizing p with
  | nil => exact ⟨fun _ => ⟨p, rfl, rfl⟩, fun h => absurd trivial h⟩
  | cons q ps ih =>
    rw [List.foldlM_cons]
    by_cases hq : q.ReadsNull args p.arg
    · rw [emit_of_readsNull hq]
      exact ⟨fun h => absurd hq h.1, fun _ => rfl⟩
    · obtain ⟨r, hr, harg, hlen⟩ := emit_of_not mem hq
      obtain ⟨hok, herror⟩ := ih r
      rw [harg, hlen] at hok
      rw [harg] at herror
      rw [hr, ok_bind]
      refine ⟨fun h => ?_, fun h => herror fun hrest => h ⟨hq, hrest⟩⟩
      obtain ⟨t, ht, htext⟩ := hok h.2
      exact ⟨t, ht, by rw [htext, textLength, Nat.add_assoc]⟩

/-! ## `color_printk` -/

/-- The stores to `__buf`, with their offsets: the text and its NUL. -/
def bufStores (text : List (BitVec 8)) : List (BitVec 8 × ℕ) := (text ++ [0]).zipIdx

variable (mem args) in
/-- `color_printk`: the stores to `__buf`, and the screen afterwards. -/
def colorPrintk (font : Font) (frColor bkColor : Color) (s : Screen) (fmt : List (BitVec 8)) :
    Except Fault (List (BitVec 8 × ℕ) × Screen) := do
  let p ← vsprintf mem args fmt
  .ok (bufStores p.text, s.print font frColor bkColor p.text)

/-- A call writes inside the 4096 bytes of `__buf` and reads through no null pointer. -/
def WritesInside (r : Except Fault (List (BitVec 8 × ℕ) × Screen)) : Prop :=
  ∃ stores screen, r = .ok (stores, screen) ∧ ∀ w ∈ stores, w.2 < 4096

theorem bufStores_lt_iff (text : List (BitVec 8)) (n : ℕ) :
    (∀ w ∈ bufStores text, w.2 < n) ↔ text.length < n := by
  unfold bufStores
  constructor
  · intro h
    have hlast : ((0 : BitVec 8), text.length) ∈ (text ++ [0]).zipIdx :=
      List.mem_zipIdx_iff_getElem?.mpr (by simp)
    exact h _ hlast
  · intro h w hw
    have hlt := (List.mem_zipIdx' hw).1
    rw [List.length_append, List.length_singleton] at hlt
    omega

/-- **`color_printk` writes inside `__buf`** and reads through no null pointer exactly when no `%s`
is given one and the pieces of the format are shorter than the buffer. -/
theorem colorPrintk_writesInside_iff (mem : Mem) (args : ℕ → BitVec 64) (font : Font)
    (frColor bkColor : Color) (s : Screen) (fmt : List (BitVec 8)) :
    WritesInside (colorPrintk mem args font frColor bkColor s fmt) ↔
      NoNull args 0 (pieces fmt) ∧ textLength mem args 0 (pieces fmt) < 4096 := by
  obtain ⟨hok, herror⟩ := emit_pieces mem args (pieces fmt) ⟨[], 0⟩
  unfold colorPrintk vsprintf
  rw [vsprintfLoop_eq]
  by_cases hnull : NoNull args 0 (pieces fmt)
  · obtain ⟨r, hr, hlen⟩ := hok hnull
    rw [List.length_nil, Nat.zero_add] at hlen
    rw [hr, ok_bind, ← hlen, ← bufStores_lt_iff, and_iff_right hnull]
    constructor
    · rintro ⟨stores, screen, h, hlt⟩
      obtain ⟨rfl, -⟩ := Prod.mk.inj (Except.ok.inj h)
      exact hlt
    · exact fun hlt => ⟨_, _, rfl, hlt⟩
  · rw [herror hnull]
    refine iff_of_false ?_ fun h => hnull h.1
    rintro ⟨stores, screen, h, -⟩
    cases h

/-- `"%s"` with a null pointer, and `"%4096d"`. -/
theorem colorPrintk_not_writesInside :
    let s : Screen := ⟨resolutionInit, fun _ => 0⟩
    ¬ WritesInside
        (colorPrintk (fun _ => 0) (fun _ => 0) (fun c _ => c) 0xffffff 0 s [0x25, 0x73]) ∧
    ¬ WritesInside (colorPrintk (fun _ => 0) (fun _ => 0) (fun c _ => c) 0xffffff 0 s
      [0x25, 0x34, 0x30, 0x39, 0x36, 0x64]) := by
  intro s
  constructor
  · have hpieces : pieces [0x25, 0x73] = [.conversion ⟨[], .absent, none, none, 0x73⟩] := by
      have hspec : spec [0x73] = (⟨[], .absent, none, none, 0x73⟩, []) := by decide +kernel
      rw [pieces, if_neg (by decide), if_pos rfl, hspec, pieces]
    rw [colorPrintk_writesInside_iff, hpieces]
    rintro ⟨⟨hnull, -⟩, -⟩
    exact hnull ⟨rfl, rfl⟩
  · have hpieces : pieces [0x25, 0x34, 0x30, 0x39, 0x36, 0x64] =
        [.conversion ⟨[], .digits [0x34, 0x30, 0x39, 0x36], none, none, 0x64⟩] := by
      have hspec : spec [0x34, 0x30, 0x39, 0x36, 0x64] =
          (⟨[], .digits [0x34, 0x30, 0x39, 0x36], none, none, 0x64⟩, []) := by decide +kernel
      rw [pieces, if_neg (by decide), if_pos rfl, hspec, pieces]
    rw [colorPrintk_writesInside_iff, hpieces]
    rintro ⟨-, hlt⟩
    revert hlt
    decide +kernel

end Print
end OSLib
