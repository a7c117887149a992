import OSLib.Foundation.Numerals
import OSLib.Print.Number

/-!
# The text of `__number`

The text piece by piece (`numberText_eq`), with the counts of the loops.  The number can be read
back from it whatever the counts are (`lastInteger_numberText`): before the figures stand only zeros
and characters that are no digits, and behind them blanks.  If the counting of `size` does not
overflow, the loop that is to fill the room fills all of it, and the loops behind it find none
(`numberText_layout`).

The text is taken apart twice, for two readers.  One reads the number back and only cares that what
stands around the figures does not look like figures (`Numerals`).  The other knows the flags and
asks where the blanks and zeros stand; it needs `SizeFits`, the condition under which the counter
stays an `int32` without wrapping.

## The order of the results

`digitLoop` gives the figures last figure first, and `numeralValue_figures` says that they are those
of the number in the base.  `numberText_eq` takes the text apart into its seven pieces.  From there
the two readers go separate ways: `lastInteger_numberText` for the number, and `numberText_layout`
for the places.
-/

namespace OSLib
namespace Print

open Numerals

variable {num : BitVec 64} {base : ℕ} {size precision : Int32} {type : Flags}

/-! ## The figures -/

theorem charValue_digits (small : Bool) {i : ℕ} (hi : i < 36) :
    charValue (digits small i) = some i := by
  have hall : ∀ small, ∀ i < 36, charValue (digits small i) = some i := by decide
  exact hall small i hi

theorem digitLoop_eq (small : Bool) (hb : 1 < base) (n : ℕ) :
    digitLoop small base hb n = (Nat.digits base n).map (digits small) := by
  rw [digitLoop]
  split
  · next h => rw [h, Nat.digits_zero, List.map_nil]
  · next h =>
    rw [Nat.digits_def' hb (Nat.pos_of_ne_zero h), List.map_cons,
      digitLoop_eq small hb (n / base)]
termination_by n
decreasing_by exact Nat.div_lt_self (Nat.pos_of_ne_zero ‹_›) hb

section

variable (num type) (hb : 1 < base)

theorem figures_ne_nil : figures base hb num type ≠ [] := by
  intro h
  have hlen := length_figures hb num type
  have hpos := (figureCount_le hb (magnitude num type).isLt).1
  rw [h, List.length_nil] at hlen
  omega

theorem isDigitOf_figures (hbase : base ≤ 36) {c : BitVec 8}
    (hc : c ∈ figures base hb num type) : isDigitOf base c = true := by
  have hzero : charValue 0x30 = some 0 := by decide
  rw [figures] at hc
  split at hc
  · rw [List.mem_singleton.mp hc]
    exact isDigitOf_of_value hzero (Nat.zero_lt_of_lt hb)
  · rw [digitLoop_eq] at hc
    obtain ⟨i, hi, rfl⟩ := List.mem_map.mp hc
    have hlt : i < base := Nat.digits_lt_base hb hi
    exact isDigitOf_of_value (charValue_digits _ (Nat.lt_of_lt_of_le hlt hbase)) hlt

/-- **The figures are those of the number.** -/
theorem numeralValue_figures (hbase : base ≤ 36) :
    numeralValue base (figures base hb num type) = (magnitude num type).toNat := by
  rw [figures]
  split
  · next h =>
    have hzero : charValue 0x30 = some 0 := by decide
    rw [h, numeralValue, List.map_singleton, hzero, Option.getD_some, Nat.ofDigits_singleton]
    rfl
  · have hvalues : ((Nat.digits base (magnitude num type).toNat).map (digits type.small)).map
        (fun c => (charValue c).getD 0) = Nat.digits base (magnitude num type).toNat := by
      rw [List.map_map]
      refine (List.map_congr_left fun i hi => ?_).trans (List.map_id _)
      have hlt : i < base := Nat.digits_lt_base hb hi
      rw [Function.comp_apply, charValue_digits _ (Nat.lt_of_lt_of_le hlt hbase)]
      rfl
    rw [digitLoop_eq, numeralValue, hvalues, Nat.ofDigits_digits]

end

/-! ## The text -/

theorem mem_signChar {c : BitVec 8} (h : c ∈ signChar num type) : charValue c = none := by
  rw [signChar] at h
  split at h
  · rw [List.mem_singleton.mp h]
    decide
  · split at h
    · rw [List.mem_singleton.mp h]
      decide
    · split at h
      · rw [List.mem_singleton.mp h]
        decide
      · cases h

/-- The prefix is made of zeros and of a letter that is no digit of the base 16. -/
theorem mem_specialChars {c : BitVec 8} (h : c ∈ specialChars base type) :
    c = 0x30 ∨ ¬ isDigitOf base c = true := by
  rw [specialChars] at h
  split at h
  · split at h
    · exact .inl (List.mem_singleton.mp h)
    · split at h
      · next h16 =>
        rcases List.mem_cons.mp h with rfl | h
        · exact .inl rfl
        · rw [List.mem_singleton.mp h, h16, isDigitOf, charValue_digits _ (by decide)]
          exact .inr (by decide)
      · cases h
  · cases h

/-- The counter of the room before the second of the three loops. -/
def afterBlanks (type : Flags) (w : Int32) : Int32 :=
  if type.zeropad || type.left then w else counterAfter 0 w

/-- The counter before the third of them. -/
def afterPadding (type : Flags) (w : Int32) : Int32 :=
  if type.left then afterBlanks type w else counterAfter 0 (afterBlanks type w)

/-- The zeros that make the figures as many as the precision asks for. -/
def precisionZeros (num : BitVec 64) (base : ℕ) (precision : Int32) (type : Flags) : ℕ :=
  shownFigures num base precision type - figureCount base (magnitude num type).toNat

/-- **The text piece by piece**, with `w` for the room that is left. -/
theorem numberText_eq (num : BitVec 64) (size precision : Int32) (type : Flags) (hb : 1 < base)
    {w : Int32} (hw : w = size - Int32.ofNat (numberCore num base precision type)) :
    numberText num base hb size precision type =
      List.replicate (if type.zeropad || type.left then 0 else rounds 0 w) 0x20 ++
      signChar num type ++ specialChars base type ++
      List.replicate (if type.left then 0 else rounds 0 (afterBlanks type w))
        (if type.zeropad then 0x30 else 0x20) ++
      List.replicate (precisionZeros num base precision type) 0x30 ++
      (figures base hb num type).reverse ++
      List.replicate (rounds 0 (afterPadding type w)) 0x20 := by
  obtain ⟨hprecision, hzeros⟩ := precision_eq num precision type hb
  have hlen := length_figures hb num type
  have hcount : rounds (Int32.ofNat (figures base hb num type).length)
      (Int32.ofNat (shownFigures num base precision type)) =
        precisionZeros num base precision type := by
    rw [precisionZeros]
    omega
  rw [numberText, afterPadding, afterBlanks]
  simp only [hprecision, sizeLeft_sub, countdown_eq, ← hw, hcount]
  cases type.left with
  | true => simp
  | false => cases type.zeropad <;> simp

/-- Filling is made of zeros and of blanks. -/
theorem mem_filling {p : Bool} {n : ℕ} {c : BitVec 8}
    (h : c ∈ List.replicate n (if p = true then (0x30 : BitVec 8) else 0x20)) :
    c = 0x30 ∨ ¬ isDigitOf base c = true := by
  have hnone : charValue 0x20 = none := by decide
  rw [List.eq_of_mem_replicate h]
  split
  · exact .inl rfl
  · exact .inr (not_isDigitOf_of_none hnone)

/-- **The figures are read back**, whatever stands around them. -/
theorem lastNumber_numberText (num : BitVec 64) (size precision : Int32) (type : Flags)
    (hb : 1 < base) (hbase : base ≤ 36) :
    lastNumber base (numberText num base hb size precision type) = (magnitude num type).toNat := by
  have hblank {n : ℕ} {c : BitVec 8} (h : c ∈ List.replicate n (0x20 : BitVec 8)) :
      c = 0x30 ∨ ¬ isDigitOf base c = true := mem_filling (p := false) h
  rw [numberText_eq num size precision type hb rfl, lastNumber_eq (figures_ne_nil num type hb)
    (fun c => isDigitOf_figures num type hb hbase) ?_, numeralValue_figures num type hb hbase]
  intro c hc
  simp only [List.mem_append] at hc
  rcases hc with (((hc | hc) | hc) | hc) | hc
  · exact hblank hc
  · exact .inr (not_isDigitOf_of_none (mem_signChar hc))
  · exact mem_specialChars hc
  · exact mem_filling hc
  · exact .inl (List.eq_of_mem_replicate hc)

theorem minus_mem_signChar_iff :
    0x2d ∈ signChar num type ↔ isNegative num type = true := by
  rw [signChar]
  cases isNegative num type with
  | true => exact iff_of_true (by rw [if_pos rfl]; exact List.mem_singleton_self _) rfl
  | false =>
    refine iff_of_false ?_ (by decide)
    cases type.plus <;> cases type.space <;> decide

theorem minus_not_mem_specialChars (base : ℕ) (type : Flags) : 0x2d ∉ specialChars base type := by
  rw [specialChars]
  split
  · split
    · decide
    · split
      · cases type.small <;> decide
      · decide
  · decide

/-- A minus sign is written for a negative number, and nowhere else. -/
theorem minus_mem_numberText_iff (num : BitVec 64) (size precision : Int32) (type : Flags)
    (hb : 1 < base) (hbase : base ≤ 36) :
    0x2d ∈ numberText num base hb size precision type ↔ isNegative num type = true := by
  have hreplicate {n : ℕ} {x : BitVec 8} (hx : x ≠ 0x2d) : 0x2d ∉ List.replicate n x :=
    fun h => hx (List.eq_of_mem_replicate h).symm
  have hfilling {n : ℕ} :
      0x2d ∉ List.replicate n (if type.zeropad then (0x30 : BitVec 8) else 0x20) := by
    refine hreplicate ?_
    cases type.zeropad <;> decide
  have hfigures : 0x2d ∉ figures base hb num type := fun h =>
    not_isDigitOf_of_none (by decide) (isDigitOf_figures num type hb hbase h)
  rw [numberText_eq num size precision type hb rfl, ← minus_mem_signChar_iff]
  simp only [List.mem_append, List.mem_reverse, minus_not_mem_specialChars, hfigures, hfilling,
    hreplicate (x := 0x20) (by decide), hreplicate (x := 0x30) (by decide), or_false, false_or]

theorem neg_toNat_neg {num : BitVec 64} (hneg : num.msb = true) :
    -((-num).toNat : ℤ) = num.toInt := by
  have hlt := num.isLt
  have hge : 2 ^ 63 ≤ num.toNat := BitVec.toNat_ge_of_msb_true hneg
  have hpos : 0 < num.toNat := Nat.lt_of_lt_of_le (Nat.two_pow_pos 63) hge
  have hsub : (-num).toNat = 2 ^ 64 - num.toNat := by
    rw [BitVec.toNat_neg]
    exact Nat.mod_eq_of_lt (Nat.sub_lt (Nat.two_pow_pos 64) hpos)
  rw [num.toInt_eq_msb_cond, hneg, if_pos rfl, hsub, Nat.cast_sub (Nat.le_of_lt hlt), Int.neg_sub]

/-- **The number of a text**: with its sign if it is shown with one, and otherwise modulo
`2 ^ 64`. -/
theorem lastInteger_numberText (num : BitVec 64) (size precision : Int32) (type : Flags)
    (hb : 1 < base) (hbase : base ≤ 36) :
    lastInteger base (numberText num base hb size precision type) =
      if type.sign then num.toInt else num.toNat := by
  rw [lastInteger, lastNumber_numberText num size precision type hb hbase]
  simp only [minus_mem_numberText_iff num size precision type hb hbase]
  rw [magnitude, isNegative]
  cases type.sign with
  | false => rfl
  | true =>
    cases hneg : num.msb with
    | false => exact (BitVec.toInt_eq_toNat_of_msb hneg).symm
    | true => exact neg_toNat_neg hneg

/-! ## The layout -/

/-- `type` after `LEFT` has cleared `ZEROPAD`. -/
def aligned (type : Flags) : Flags := if type.left then { type with zeropad := false } else type

theorem aligned_sign (type : Flags) : (aligned type).sign = type.sign := by
  rw [aligned]
  split <;> rfl

theorem number_eq (num : BitVec 64) (size precision : Int32) (type : Flags) (hb : 1 < base)
    (hbase : base ≤ 36) : number num base size precision type =
      some (numberText num base hb size precision (aligned type)) := by
  rw [number, dif_neg (by omega)]
  rfl

/-- The length of the prefix. -/
def specialLength (base : ℕ) (type : Flags) : ℕ :=
  if type.special then if base = 16 then 2 else if base = 8 then 1 else 0 else 0

theorem length_specialChars : (specialChars base type).length = specialLength base type := by
  rw [specialChars, specialLength]
  by_cases h8 : base = 8
  · subst h8
    cases type.special <;> rfl
  · by_cases h16 : base = 16
    · subst h16
      cases type.special <;> rfl
    · simp only [if_neg h8, if_neg h16]
      cases type.special <;> rfl

/-- The arithmetic of `size` does not overflow, down to the last decrement of the loops. -/
def SizeFits (num : BitVec 64) (base : ℕ) (size precision : Int32) (type : Flags) : Prop :=
  -2 ^ 31 ≤ size.toInt - numberCore num base precision type - numberLoops type

/-- The room that the sign, the prefix and the figures leave of the width. -/
def room (num : BitVec 64) (base : ℕ) (size precision : Int32) (type : Flags) : ℕ :=
  (size.toInt - numberCore num base precision type).toNat

/-- Only the filling of a text depends on `ZEROPAD`. -/
theorem numberText_zeropad (num : BitVec 64) (size precision : Int32) (type : Flags) (z : Bool)
    (hb : 1 < base) {w : Int32}
    (hw : w = size - Int32.ofNat (numberCore num base precision type)) :
    numberText num base hb size precision { type with zeropad := z } =
      List.replicate (if z || type.left then 0 else rounds 0 w) 0x20 ++
      signChar num type ++ specialChars base type ++
      List.replicate (if type.left then 0 else
        rounds 0 (afterBlanks { type with zeropad := z } w)) (if z then 0x30 else 0x20) ++
      List.replicate (precisionZeros num base precision type) 0x30 ++
      (figures base hb num type).reverse ++
      List.replicate (rounds 0 (afterPadding { type with zeropad := z } w)) 0x20 :=
  numberText_eq num size precision { type with zeropad := z } hb hw

/-- **The layout of a number** whose width leaves room that is counted without overflow. -/
theorem numberText_layout (hb : 1 < base) (hfits : SizeFits num base size precision type) :
    numberText num base hb size precision (aligned type) =
      List.replicate (if type.zeropad || type.left then 0 else room num base size precision type)
        0x20 ++
      signChar num type ++ specialChars base type ++
      List.replicate ((if type.zeropad && !type.left then room num base size precision type
        else 0) + precisionZeros num base precision type) 0x30 ++
      (figures base hb num type).reverse ++
      List.replicate (if type.left then room num base size precision type else 0) 0x20 := by
  have haligned : aligned type = { type with zeropad := type.zeropad && !type.left } := by
    obtain ⟨zeropad, sign, plus, space, left, special, small⟩ := type
    cases left <;> cases zeropad <;> rfl
  obtain ⟨w, hw⟩ : ∃ w, w = size - Int32.ofNat (numberCore num base precision type) := ⟨_, rfl⟩
  rw [haligned, numberText_zeropad num size precision type _ hb hw]
  have hloops : 1 ≤ numberLoops type := by
    rw [numberLoops]
    split
    · omega
    · split <;> omega
  rw [SizeFits] at hfits
  have hlt := size.toInt_lt
  have htoInt : w.toInt = size.toInt - numberCore num base precision type := by
    rw [hw]
    exact toInt_sub_ofNat ⟨by omega, by omega⟩
  have hlow : -2 ^ 31 + (numberLoops type : ℤ) ≤ w.toInt := by omega
  have hroom : rounds 0 w = room num base size precision type := by
    rw [rounds, room, htoInt]
    exact congrArg Int.toNat (Int.sub_zero _)
  have hzero : (0 : Int32).toInt = 0 := rfl
  -- the first loop that runs uses the room up, and those behind it find none
  cases hl : type.left with
  | true => simp [hroom, afterPadding, afterBlanks]
  | false =>
    cases hz : type.zeropad with
    | true =>
      have hlow' : -2 ^ 31 + 2 ≤ w.toInt := by simpa [numberLoops, hl, hz] using hlow
      have hsecond : rounds 0 (counterAfter 0 w) = 0 :=
        rounds_counterAfter (by decide) (by omega)
      simp [hroom, hsecond, afterPadding, afterBlanks]
    | false =>
      have hlow' : -2 ^ 31 + 3 ≤ w.toInt := by simpa [numberLoops, hl, hz] using hlow
      have hsecond : rounds 0 (counterAfter 0 w) = 0 :=
        rounds_counterAfter (by decide) (by omega)
      have hcounter : (counterAfter 0 w).toInt = min (0 : Int32).toInt w.toInt - 1 :=
        toInt_counterAfter (by decide) (by omega)
      have hthird : rounds 0 (counterAfter 0 (counterAfter 0 w)) = 0 :=
        rounds_counterAfter (by decide) (by rw [hcounter, hzero]; omega)
      simp [hroom, hsecond, hthird, afterPadding, afterBlanks]

/-- **What `__number` writes.**  For every number, flags, precision and size whose arithmetic does
not overflow, and for each of the three bases, the text is as long as the size, or as long as the
sign, the prefix and the figures if these are more.  It is made of blanks, the sign, the prefix,
zeros, the digits and blanks, in this order, with the room on the side that the flags ask for; and
the number can be read back from it. -/
theorem number_text (hbase : base = 8 ∨ base = 10 ∨ base = 16)
    (hfits : SizeFits num base size precision type) :
    ∃ text ds, number num base size precision type = some text ∧
      text = List.replicate
          (if type.zeropad || type.left then 0 else room num base size precision type) 0x20 ++
        signChar num type ++ specialChars base type ++
        List.replicate ((if type.zeropad && !type.left then room num base size precision type
          else 0) + precisionZeros num base precision type) 0x30 ++
        ds ++
        List.replicate (if type.left then room num base size precision type else 0) 0x20 ∧
      ds.length = figureCount base (magnitude num type).toNat ∧
      (∀ c ∈ ds, isDigitOf base c = true) ∧
      (specialChars base type).length = specialLength base type ∧
      (text.length : ℤ) = max size.toInt ((signChar num type).length + specialLength base type +
        max precision.toInt ds.length) ∧
      lastInteger base text = if type.sign then num.toInt else num.toNat := by
  have hb : 1 < base ∧ base ≤ 36 := by omega
  have hlayout := numberText_layout hb.1 hfits
  have hlen : (figures base hb.1 num type).reverse.length =
      figureCount base (magnitude num type).toNat := by
    rw [List.length_reverse, length_figures]
  have hread : lastInteger base (numberText num base hb.1 size precision (aligned type)) =
      if type.sign then num.toInt else num.toNat := by
    rw [lastInteger_numberText num size precision (aligned type) hb.1 hb.2, aligned_sign]
  refine ⟨_, _, number_eq num size precision type hb.1 hb.2, hlayout, hlen, fun c hc => ?_,
    length_specialChars, ?_, hread⟩
  · exact isDigitOf_figures num type hb.1 hb.2 (List.mem_reverse.mp hc)
  · rw [hlayout]
    simp only [List.length_append, List.length_replicate, hlen, length_specialChars]
    have hcount := (figureCount_le hb.1 (magnitude num type).isLt).1
    have hsides : (if type.zeropad || type.left then 0 else room num base size precision type) +
        (if type.zeropad && !type.left then room num base size precision type else 0) +
        (if type.left then room num base size precision type else 0) =
          room num base size precision type := by
      cases type.left <;> cases type.zeropad <;> simp
    rw [room, numberCore, length_specialChars] at hsides
    rw [precisionZeros, shownFigures, room, numberCore, length_specialChars]
    omega

/-- `-1` with a width of 10 and no precision. -/
theorem number_text_minusOne :
    ∃ text, number (-1) 10 10 (-1) { sign := true } = some text ∧ lastInteger 10 text = -1 := by
  have hfits : SizeFits (-1) 10 10 (-1) { sign := true } := by
    rw [SizeFits]
    decide +kernel
  obtain ⟨text, ds, hnumber, -, -, -, -, -, hread⟩ := number_text (.inr (.inl rfl)) hfits
  exact ⟨text, hnumber, hread⟩

end Print
end OSLib
