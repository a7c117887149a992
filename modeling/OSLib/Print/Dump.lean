import OSLib.Print.Conversions

/-!
# `dump_bin` and `dump_hex`

`dump_bin` puts the bits of a number on the screen itself, with a signed index that it counts down
below 0.  `dump_hex` leaves it to the format `%#016x`, which has no qualifier `l`: what it shows is
the lower half of the number, widened with its sign.  So the two agree on the numbers that are the
widening of their lower half, and on no others (`dumps_agree_iff`).

The characters go to `__print_char` one by one; here they are the list of them.

Both show a number by the characters they hand on, and the comparison reads the number back from the
two lists with one reader, so that a difference in the number of zeros or in the prefix is no
difference.
-/

namespace OSLib
namespace Print

open Numerals

/-! ## `dump_bin` -/

/-- The index is counted down. -/
theorem toInt_pred_of_nonneg {j : Int8} (h : 0 ≤ j) : (j - 1).toInt = j.toInt - 1 := by
  rw [Int8.le_iff_toInt_le] at h
  have hzero : (0 : Int8).toInt = 0 := rfl
  have hone : (1 : Int8).toInt = 1 := rfl
  have hlt := j.toInt_lt
  rw [Int8.toInt_sub, hone]
  exact Int.bmod_eq_of_le (by omega) (by omega)

/-- The loop of `dump_bin`, with its index. -/
def dumpBits (i : BitVec 64) (j : Int8) : List (BitVec 8) :=
  if 0 ≤ j then (if i &&& 1#64 <<< j.toInt.toNat ≠ 0 then 0x31 else 0x30) :: dumpBits i (j - 1)
  else []
termination_by (j.toInt + 1).toNat
decreasing_by
  next h =>
  have hzero : (0 : Int8).toInt = 0 := rfl
  have hj := Int8.le_iff_toInt_le.mp h
  rw [toInt_pred_of_nonneg h]
  omega

/-- `dump_bin`: the characters it puts on the screen. -/
def dumpBin (i : BitVec 64) : List (BitVec 8) := [0x30, 0x62] ++ dumpBits i 63

/-- The character of a bit. -/
def bitChar (i : BitVec 64) (k : ℕ) : BitVec 8 := if i.getLsbD k then 0x31 else 0x30

theorem and_ne_zero_iff (i : BitVec 64) {k : ℕ} (hk : k < 64) :
    i &&& 1#64 <<< k ≠ 0 ↔ i.getLsbD k = true := by
  have hone : 1#64 <<< k = BitVec.twoPow 64 k := (BitVec.twoPow_eq 64 k).symm
  rw [hone, BitVec.and_twoPow]
  split
  · next h =>
    refine iff_of_true (fun hzero => ?_) h
    have hbit := congrArg (BitVec.getLsbD · k) hzero
    simp [hk] at hbit
  · next h => exact iff_of_false (fun hne => hne rfl) h

/-- **The loop puts the bits from its index on**, the lowest last. -/
theorem dumpBits_eq (i : BitVec 64) {j : Int8} {n : ℕ} (hn : n ≤ 64) (hj : j.toInt + 1 = n) :
    dumpBits i j = ((List.range n).map (bitChar i)).reverse := by
  have hzero : (0 : Int8).toInt = 0 := rfl
  induction n generalizing j with
  | zero =>
    have hneg : ¬ 0 ≤ j := by
      rw [Int8.le_iff_toInt_le, hzero]
      omega
    rw [dumpBits, if_neg hneg]
    rfl
  | succ n ih =>
    have hindex : j.toInt = n := by omega
    have hnonneg : 0 ≤ j := by
      rw [Int8.le_iff_toInt_le, hzero, hindex]
      exact Int.natCast_nonneg n
    have hrest := ih (j := j - 1) (by omega) (by rw [toInt_pred_of_nonneg hnonneg]; omega)
    rw [dumpBits, if_pos hnonneg, hrest, hindex, Int.toNat_natCast, List.range_succ,
      List.map_append, List.map_singleton, List.reverse_concat]
    simp only [and_ne_zero_iff i (show n < 64 by omega)]
    rfl

theorem isDigitOf_bitChar (i : BitVec 64) (k : ℕ) : isDigitOf 2 (bitChar i k) = true := by
  rw [bitChar]
  split <;> decide

/-- Bits evaluate to the number. -/
theorem numeralValue_bits (i : BitVec 64) (n : ℕ) :
    numeralValue 2 ((List.range n).map (bitChar i)) = i.toNat % 2 ^ n := by
  have hvalue (k : ℕ) : (charValue (bitChar i k)).getD 0 = i.toNat / 2 ^ k % 2 := by
    have hbit : i.getLsbD k = decide (i.toNat / 2 ^ k % 2 = 1) := Nat.testBit_eq_decide_div_mod_eq
    have hone : (charValue 0x31).getD 0 = 1 := by decide
    have hzero : (charValue 0x30).getD 0 = 0 := by decide
    rw [bitChar, hbit]
    rcases Nat.mod_two_eq_zero_or_one (i.toNat / 2 ^ k) with h | h
    · rw [h, if_neg (by decide), hzero]
    · rw [h, if_pos (by decide), hone]
  induction n with
  | zero => rw [Nat.pow_zero, Nat.mod_one]; rfl
  | succ n ih =>
    rw [numeralValue] at ih ⊢
    rw [List.range_succ, List.map_append, List.map_append, Nat.ofDigits_append, ih]
    simp only [List.map_singleton, Nat.ofDigits_singleton, List.length_map, List.length_range,
      hvalue]
    exact (Nat.mod_pow_succ).symm

/-- **`dump_bin` shows the number.** -/
theorem lastNumber_dumpBits (i : BitVec 64) : lastNumber 2 (dumpBits i 63) = i.toNat := by
  have hbits := dumpBits_eq i (j := 63) (n := 64) (by decide) rfl
  have hread : lastNumber 2 ([] ++ ((List.range 64).map (bitChar i)).reverse ++
      List.replicate 0 0x20) = numeralValue 2 ((List.range 64).map (bitChar i)) := by
    have hnone : ∀ c ∈ ([] : List (BitVec 8)), c = 0x30 ∨ ¬ isDigitOf 2 c = true :=
      fun c hc => nomatch hc
    refine lastNumber_eq ?_ ?_ hnone 0
    · exact List.ne_nil_of_length_pos (by rw [List.length_map, List.length_range]; decide)
    · intro c hc
      obtain ⟨k, -, rfl⟩ := List.mem_map.mp hc
      exact isDigitOf_bitChar i k
  rw [List.nil_append, List.replicate_zero, List.append_nil, ← hbits, numeralValue_bits] at hread
  rw [hread, Nat.mod_eq_of_lt i.isLt]

/-! ## `dump_hex` -/

/-- `"%#016x"`. -/
def dumpHexFormat : List (BitVec 8) := [0x25, 0x23, 0x30, 0x31, 0x36, 0x78]

/-- `dump_hex`: the characters it puts on the screen. -/
def dumpHex (mem : Mem) (i : BitVec 64) : Except Fault (List (BitVec 8)) :=
  (vsprintf mem (fun _ => i) dumpHexFormat).map Printing.text

/-- The flags of `dumpHexFormat`, and that of its letter. -/
def dumpHexFlags : Flags := { zeropad := true, special := true, small := true }

theorem dumpHex_eq (mem : Mem) (i : BitVec 64) : dumpHex mem i =
    .ok (numberText (widened i) 16 (by decide) 16 (-1) (aligned dumpHexFlags)) := by
  have hpieces : pieces dumpHexFormat =
      [.conversion ⟨[0x23, 0x30], .digits [0x31, 0x36], none, none, 0x78⟩] := by
    have hspec : spec [0x23, 0x30, 0x31, 0x36, 0x78] =
        (⟨[0x23, 0x30], .digits [0x31, 0x36], none, none, 0x78⟩, []) := by decide +kernel
    rw [dumpHexFormat, pieces, if_neg (by decide), if_pos rfl, hspec, pieces]
  have hinteger : integer (widened i) 16 16 (-1) dumpHexFlags =
      .ok (numberText (widened i) 16 (by decide) 16 (-1) (aligned dumpHexFlags)) := by
    rw [integer, number_eq _ _ _ _ (by decide) (by decide)]
  have hconvert : convert mem 0x78 { zeropad := true, special := true } 16 (-1) none i =
      .ok (numberText (widened i) 16 (by decide) 16 (-1) (aligned dumpHexFlags), 1) :=
    congrArg (Except.map (·, 1)) hinteger
  have hemit : emit mem (fun _ => i) ⟨[], 0⟩
      (.conversion ⟨[0x23, 0x30], .digits [0x31, 0x36], none, none, 0x78⟩) =
        .ok ⟨numberText (widened i) 16 (by decide) 16 (-1) (aligned dumpHexFlags), 1⟩ := by
    rw [emit]
    exact (congrArg (bind · _) hconvert).trans rfl
  rw [dumpHex, vsprintf, vsprintfLoop_eq, hpieces, List.foldlM_cons, hemit]
  rfl

/-- The text is `0x`, zeros, the figures and blanks. -/
theorem numberText_dumpHexFlags (num : BitVec 64) :
    ∃ k n, numberText num 16 (by decide) 16 (-1) dumpHexFlags =
      [0x30, 0x78] ++ (List.replicate k 0x30 ++ (figures 16 (by decide) num dumpHexFlags).reverse ++
        List.replicate n 0x20) := by
  obtain ⟨w, hw⟩ : ∃ w, w = (16 : Int32) - Int32.ofNat (numberCore num 16 (-1) dumpHexFlags) :=
    ⟨_, rfl⟩
  refine ⟨rounds 0 w + precisionZeros num 16 (-1) dumpHexFlags,
    rounds 0 (afterPadding dumpHexFlags w), ?_⟩
  rw [numberText_eq num 16 (-1) dumpHexFlags (by decide) hw, List.replicate_add]
  rfl

/-- **`dump_hex` shows the widened lower half of the number.** -/
theorem dumpHex_reads (mem : Mem) (i : BitVec 64) :
    ∃ hex, dumpHex mem i = .ok ([0x30, 0x78] ++ hex) ∧
      lastNumber 16 hex = (widened i).toNat := by
  obtain ⟨k, n, htext⟩ := numberText_dumpHexFlags (widened i)
  refine ⟨_, (dumpHex_eq mem i).trans (congrArg Except.ok htext), ?_⟩
  rw [lastNumber_eq (figures_ne_nil _ _ _)
    (fun c => isDigitOf_figures _ _ (by decide) (by decide))
    (fun c hc => .inl (List.eq_of_mem_replicate hc)),
    numeralValue_figures _ _ (by decide) (by decide)]
  rfl

/-- The lower half, widened with its sign, is the number. -/
theorem toNat_widened_eq_iff (i : BitVec 64) :
    (widened i).toNat = i.toNat ↔ i.toNat < 2 ^ 31 ∨ 2 ^ 64 - 2 ^ 31 ≤ i.toNat := by
  have hlt := i.isLt
  have hlow : (i.setWidth 32).toNat = i.toNat % 2 ^ 32 := BitVec.toNat_setWidth 32 i
  rw [toNat_widened, hlow]
  split <;> omega

/-- **Where the two dumps agree.**  What `dump_hex` shows behind `0x` and `dump_bin` behind `0b` is
the number exactly if it is below `2 ^ 31` or among the last `2 ^ 31` numbers. -/
theorem dumps_agree_iff (mem : Mem) (i : BitVec 64) :
    (∃ hex bin, dumpHex mem i = .ok ([0x30, 0x78] ++ hex) ∧ dumpBin i = [0x30, 0x62] ++ bin ∧
      lastNumber 16 hex = i.toNat ∧ lastNumber 2 bin = i.toNat) ↔
    i.toNat < 2 ^ 31 ∨ 2 ^ 64 - 2 ^ 31 ≤ i.toNat := by
  obtain ⟨hex, htext, hread⟩ := dumpHex_reads mem i
  rw [← toNat_widened_eq_iff, ← hread]
  constructor
  · rintro ⟨hex', bin, htext', -, hhex, -⟩
    rw [htext] at htext'
    rwa [List.append_cancel_left (Except.ok.inj htext')]
  · exact fun h => ⟨hex, dumpBits i 63, htext, rfl, h, lastNumber_dumpBits i⟩

/-- `0x80000000` is shown as `0xffffffff80000000`. -/
theorem dumps_not_agree : ¬ ∃ hex bin, dumpHex (fun _ => 0) 0x80000000 = .ok ([0x30, 0x78] ++ hex) ∧
    dumpBin 0x80000000 = [0x30, 0x62] ++ bin ∧ lastNumber 16 hex = 0x80000000 ∧
    lastNumber 2 bin = 0x80000000 := by
  rintro ⟨hex', bin, htext', -, hhex, -⟩
  obtain ⟨hex, htext, hread⟩ := dumpHex_reads (fun _ => 0) 0x80000000
  rw [htext] at htext'
  rw [← List.append_cancel_left (Except.ok.inj htext'), hread] at hhex
  exact absurd hhex (by decide)

end Print
end OSLib
