import OSLib.Print.Conversions

/-!
# Formats with literal text and hexadecimal numbers

Most formats of the kernel are literal text with some `%#018lx` in it.  The loop of `__vsprintf` is
run here over such a format from the left: `vsprintfLoop_bytes` passes over literal text, and
`vsprintfLoop_hex` over a conversion.  The field of a `%#018lx` has 18 bytes whatever the number,
and the number can be read back from it, so fields can be told apart in a text
(`hexField_append_inj`).

Arguments are taken in order, so each step of the loop is about the rest of the format with the rest
of the arguments, and a format of literal text and numbers is run by as many steps as it has
pieces.  The steps are lemmas about any format; which formats the kernel has is the matter of the
modules that use them.
-/

namespace OSLib
namespace Print

open Numerals

/-- The bytes of a string literal. -/
def bytes (s : String) : List (BitVec 8) := s.toList.map fun c => BitVec.ofNat 8 c.toNat

/-- Bytes that `__vsprintf` copies. -/
def Literal (text : List (BitVec 8)) : Prop := ∀ c ∈ text, c ≠ 0 ∧ c ≠ 0x25

instance (text : List (BitVec 8)) : Decidable (Literal text) :=
  decidable_of_iff (text.all fun c => c != 0 && c != 0x25) (by simp [Literal])

/-- A string literal by its characters, which spares the kernel decoding it. -/
theorem bytes_ofList {s : String} {l : List Char} (h : String.ofList l = s) :
    bytes s = l.map fun c => BitVec.ofNat 8 c.toNat := by
  rw [bytes, ← h, String.toList_ofList]

theorem literal_ofList {s : String} {l : List Char} (h : String.ofList l = s)
    (hl : Literal (l.map fun c => BitVec.ofNat 8 c.toNat)) : Literal (bytes s) := by
  rwa [bytes_ofList h]

theorem bytes_append (s s' : String) : bytes (s ++ s') = bytes s ++ bytes s' := by
  simp [bytes]

variable {mem : Mem} {args : ℕ → BitVec 64} {text fmt rest : List (BitVec 8)} {p : Printing}
  {v w : BitVec 64}

/-- **Literal text is copied.** -/
theorem vsprintfLoop_bytes (h : Literal text) :
    vsprintfLoop mem args (text ++ fmt) p =
      vsprintfLoop mem args fmt ⟨p.text ++ text, p.arg⟩ := by
  induction text generalizing p with
  | nil => simp
  | cons c text ih =>
    obtain ⟨⟨hzero, hpercent⟩, hrest⟩ := List.forall_mem_cons.mp h
    have hcur : cur (c :: text ++ fmt) = c := rfl
    rw [vsprintfLoop_of_ne (by rwa [hcur]), round, hcur, if_pos hpercent,
      next_of_cur (by rwa [hcur]), ok_bind, ok_bind]
    have htail := ih (p := ⟨p.text ++ [c], p.arg⟩) hrest
    simpa using htail

theorem vsprintf_nil (p : Printing) : vsprintfLoop mem args [] p = .ok p :=
  vsprintfLoop_of_zero rfl p

/-- A conversion, and the rest of the format. -/
theorem vsprintfLoop_conversion {s : Spec} (hspec : spec fmt = (s, rest)) :
    vsprintfLoop mem args (0x25 :: fmt) p =
      emit mem args p (.conversion s) >>= fun q => vsprintfLoop mem args rest q := by
  have hcur : cur (0x25 :: fmt) = 0x25 := rfl
  have hround : round mem args (0x25 :: fmt) p =
      (emit mem args p (.conversion s)).map (rest, ·) := by
    rw [round, hcur, if_neg (by simp), conversion_eq, hspec]
  rw [vsprintfLoop_of_ne (by rw [hcur]; decide), hround]
  cases emit mem args p (.conversion s) <;> rfl

/-! ## Hexadecimal numbers -/

/-- The flags `#` and `0`, with the letter `x`. -/
def hexFlags : Flags := { zeropad := true, special := true, small := true }

/-- The field of a `%#0x` with a width. -/
def hexText (size : Int32) (v : BitVec 64) : List (BitVec 8) :=
  numberText v 16 (by decide) size (-1) hexFlags

/-- The field of a `%#018lx`. -/
def hexField (v : BitVec 64) : List (BitVec 8) := hexText 18 v

theorem integer_hex (size : Int32) (v : BitVec 64) :
    integer v 16 size (-1) hexFlags = .ok (hexText size v) := by
  rw [integer, number_eq v size (-1) hexFlags (by decide) (by decide)]
  rfl

/-- A 64-bit number has at most 16 hexadecimal figures. -/
theorem figureCount_16_le (v : BitVec 64) : figureCount 16 v.toNat ≤ 16 := by
  rw [figureCount]
  split
  · decide
  · next hne =>
    have hlog : Nat.log 16 v.toNat < 16 := Nat.log_lt_of_lt_pow hne v.isLt
    exact hlog

/-- The length of a field. -/
theorem length_hexText {size : Int32} (hsize : 0 ≤ size.toInt) (v : BitVec 64) :
    ((hexText size v).length : ℤ) = max size.toInt (2 + figureCount 16 v.toNat) := by
  have hcount := figureCount_16_le v
  have hmagnitude : magnitude v hexFlags = v := rfl
  have hsign : signChar v hexFlags = [] := rfl
  have hprefix : specialLength 16 hexFlags = 2 := rfl
  have hprecision : (-1 : Int32).toInt = -1 := rfl
  have hloops : numberLoops hexFlags = 2 := rfl
  have hfits : SizeFits v 16 size (-1) hexFlags := by
    rw [SizeFits, numberCore, hmagnitude, hsign, length_specialChars, hprefix, hloops,
      hprecision, List.length_nil]
    omega
  obtain ⟨text, ds, htext, -, hds, -, -, hlen, -⟩ := number_text (.inr (.inr rfl)) hfits
  rw [number_eq v size (-1) hexFlags (by decide) (by decide)] at htext
  obtain rfl := Option.some.inj htext
  rw [hds, hmagnitude, hsign, hprefix, hprecision, List.length_nil] at hlen
  rw [hexText]
  refine hlen.trans ?_
  omega

/-- **The field of a `%#018lx` has 18 bytes.** -/
theorem length_hexField (v : BitVec 64) : (hexField v).length = 18 := by
  have hcount := figureCount_16_le v
  have hsize : (18 : Int32).toInt = 18 := rfl
  have hlen := length_hexText (show 0 ≤ (18 : Int32).toInt by decide) v
  rw [hexField]
  omega

/-- The number can be read from it. -/
theorem lastNumber_hexField (v : BitVec 64) : lastNumber 16 (hexField v) = v.toNat :=
  lastNumber_numberText v 18 (-1) hexFlags (by decide) (by decide)

theorem vsprintfLoop_hex :
    vsprintfLoop mem args (bytes "%#018lx" ++ fmt) p =
      vsprintfLoop mem args fmt ⟨p.text ++ hexField (args p.arg), p.arg + 1⟩ := by
  have hspec : spec (bytes "#018lx" ++ fmt) =
      (⟨[0x23, 0x30], .digits [0x31, 0x38], none, some 0x6c, 0x78⟩, fmt) := rfl
  have hfmt : bytes "%#018lx" ++ fmt = 0x25 :: (bytes "#018lx" ++ fmt) := rfl
  have hemit : emit mem args p (.conversion ⟨[0x23, 0x30], .digits [0x31, 0x38], none, some 0x6c,
      0x78⟩) = (integer (args p.arg) 16 18 (-1) hexFlags).map
        fun text => ⟨p.text ++ text, p.arg + 1⟩ := rfl
  rw [hfmt, vsprintfLoop_conversion hspec, hemit, integer_hex]
  rfl

/-- The same without the `l`, with a width of 10. -/
theorem vsprintfLoop_hex_10 :
    vsprintfLoop mem args (bytes "%#010x" ++ fmt) p =
      vsprintfLoop mem args fmt ⟨p.text ++ hexText 10 (widened (args p.arg)), p.arg + 1⟩ := by
  have hspec : spec (bytes "#010x" ++ fmt) =
      (⟨[0x23, 0x30], .digits [0x31, 0x30], none, none, 0x78⟩, fmt) := rfl
  have hfmt : bytes "%#010x" ++ fmt = 0x25 :: (bytes "#010x" ++ fmt) := rfl
  have hemit : emit mem args p (.conversion ⟨[0x23, 0x30], .digits [0x31, 0x30], none, none,
      0x78⟩) = (integer (widened (args p.arg)) 16 10 (-1) hexFlags).map
        fun text => ⟨p.text ++ text, p.arg + 1⟩ := rfl
  rw [hfmt, vsprintfLoop_conversion hspec, hemit, integer_hex]
  rfl

/-- **Numbers can be told apart** by what stands in their place. -/
theorem hexField_append_inj (h : hexField v ++ text = hexField w ++ rest) :
    v = w ∧ text = rest := by
  have hlen : (hexField v).length = (hexField w).length := by
    rw [length_hexField, length_hexField]
  obtain ⟨hfield, htail⟩ := List.append_inj h hlen
  refine ⟨BitVec.eq_of_toNat_eq ?_, htail⟩
  rw [← lastNumber_hexField v, ← lastNumber_hexField w, hfield]

end Print
end OSLib
