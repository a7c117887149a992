import OSLib.Foundation.MachineInt
import Mathlib.Data.Nat.Log
import Mathlib.Data.Nat.Digits.Defs

/-!
# `__number`

The text `__number` appends is, in order, blanks, a sign, a prefix, padding, zeros, the digits and
blanks again; three loops in it count one variable `size` down.  Which of the loops write the
padding depends on the flags, but together they write `paddings` of the room that the sign, the
prefix and the figures leave (`length_number`).  That takes the wrap-around of `size` into account:
when it has been counted below the least `int32`, the next loop starts from the greatest.

The counts of the loops are those of `int32` arithmetic and may be anything from a caller's point of
view: width and precision come from the format or from an argument.  So the length is stated for all
of them, and that it is the width in the ordinary case is a corollary for a `size` that does not
overflow.
-/

namespace OSLib
namespace Print

/-- The bits of `type`, and of `flags` in `__vsprintf`. -/
structure Flags where
  zeropad : Bool := false
  sign : Bool := false
  plus : Bool := false
  space : Bool := false
  left : Bool := false
  special : Bool := false
  small : Bool := false
  deriving DecidableEq, Repr

/-- `digits[i]`: the ten figures and then the letters. -/
def digits (small : Bool) (i : ℕ) : BitVec 8 :=
  BitVec.ofNat 8 (if i < 10 then 0x30 + i else (if small then 0x61 else 0x41) + (i - 10))

/-- The loop that fills `tmp`, least figure first.  `get_remainder` divides without sign. -/
def digitLoop (small : Bool) (base : ℕ) (hb : 1 < base) (num : ℕ) : List (BitVec 8) :=
  if num = 0 then []
  else digits small (num % base) :: digitLoop small base hb (num / base)
termination_by num
decreasing_by exact Nat.div_lt_self (Nat.pos_of_ne_zero ‹_›) hb

/-- `sign` and the new `num`: whether the number is shown as a negative one. -/
def isNegative (num : BitVec 64) (type : Flags) : Bool := type.sign && num.msb

/-- The character `sign`, if there is one. -/
def signChar (num : BitVec 64) (type : Flags) : List (BitVec 8) :=
  if isNegative num type then [0x2d]
  else if type.plus then [0x2b] else if type.space then [0x20] else []

/-- `num` after its sign is taken away. -/
def magnitude (num : BitVec 64) (type : Flags) : BitVec 64 :=
  if isNegative num type then -num else num

/-- The characters of `SPECIAL`. -/
def specialChars (base : ℕ) (type : Flags) : List (BitVec 8) :=
  if type.special then
    if base = 8 then [0x30] else if base = 16 then [0x30, digits type.small 33] else []
  else []

/-- `tmp`, the figures with the least one first. -/
def figures (base : ℕ) (hb : 1 < base) (num : BitVec 64) (type : Flags) : List (BitVec 8) :=
  if magnitude num type = 0 then [0x30]
  else digitLoop type.small base hb (magnitude num type).toNat

/-- `size` after the sign and the prefix. -/
def sizeLeft (num : BitVec 64) (base : ℕ) (size : Int32) (type : Flags) : Int32 :=
  let size := if (signChar num type).isEmpty then size else size - 1
  if type.special then
    if base = 16 then size - 2 else if base = 8 then size - 1 else size
  else size

/-- `__number` from `c` on: the bytes it appends. -/
def numberText (num : BitVec 64) (base : ℕ) (hb : 1 < base) (size precision : Int32)
    (type : Flags) : List (BitVec 8) :=
  let c := if type.zeropad then 0x30 else 0x20
  let tmp := figures base hb num type
  let i := Int32.ofNat tmp.length
  let precision := if i > precision then i else precision
  let size := sizeLeft num base size type - precision
  let blanks := if type.zeropad || type.left then ([], size) else countdown 0x20 0 size
  let padding := if type.left then ([], blanks.2) else countdown c 0 blanks.2
  blanks.1 ++ signChar num type ++ specialChars base type ++ padding.1 ++
    (countdown 0x30 i precision).1 ++ tmp.reverse ++ (countdown 0x20 0 padding.2).1

/-- `__number`: the bytes it appends, or none when it returns a null pointer. -/
def number (num : BitVec 64) (base : ℕ) (size precision : Int32) (type : Flags) :
    Option (List (BitVec 8)) :=
  if h : base < 2 ∨ 36 < base then none
  else some (numberText num base (by omega) size precision
    (if type.left then { type with zeropad := false } else type))

/-! ## How many figures -/

/-- The number of figures. -/
def figureCount (base num : ℕ) : ℕ := if num = 0 then 1 else Nat.log base num + 1

theorem length_digitLoop (small : Bool) {base : ℕ} (hb : 1 < base) {num : ℕ} (hn : num ≠ 0) :
    (digitLoop small base hb num).length = Nat.log base num + 1 := by
  rw [digitLoop, if_neg hn, List.length_cons]
  by_cases hlt : num < base
  · rw [Nat.div_eq_of_lt hlt, Nat.log_of_lt hlt, digitLoop, if_pos rfl, List.length_nil]
  · have hdiv : num / base ≠ 0 := (Nat.div_pos (Nat.le_of_not_lt hlt) (by omega)).ne'
    have hlog : Nat.log base num = Nat.log base (num / base) + 1 :=
      Nat.log_of_one_lt_of_le hb (Nat.le_of_not_lt hlt)
    rw [length_digitLoop small hb hdiv, hlog]
termination_by num
decreasing_by exact Nat.div_lt_self (Nat.pos_of_ne_zero hn) hb

theorem length_figures {base : ℕ} (hb : 1 < base) (num : BitVec 64) (type : Flags) :
    (figures base hb num type).length = figureCount base (magnitude num type).toNat := by
  have hzero : magnitude num type = 0 ↔ (magnitude num type).toNat = 0 :=
    ⟨fun h => by rw [h]; rfl, fun h => BitVec.eq_of_toNat_eq h⟩
  unfold figures figureCount
  split
  · next h => rw [if_pos (hzero.mp h)]; rfl
  · next h => rw [if_neg (mt hzero.mpr h), length_digitLoop _ hb (mt hzero.mpr h)]

/-- A 64-bit number has at most 64 figures. -/
theorem figureCount_le {base num : ℕ} (hb : 1 < base) (hn : num < 2 ^ 64) :
    1 ≤ figureCount base num ∧ figureCount base num ≤ 64 := by
  unfold figureCount
  split
  · omega
  · next hne =>
    have hlog : Nat.log base num ≤ Nat.log 2 num := Nat.log_anti_left (by omega) hb
    have hlt : Nat.log 2 num < 64 := Nat.log_lt_of_lt_pow hne hn
    omega

/-! ## How long the text is -/

/-- The width of the number itself: its sign, its prefix and its figures. -/
def numberCore (num : BitVec 64) (base : ℕ) (precision : Int32) (type : Flags) : ℕ :=
  (signChar num type).length + (specialChars base type).length +
    (max precision.toInt (figureCount base (magnitude num type).toNat)).toNat

/-- The number of loops that count the room left down. -/
def numberLoops (type : Flags) : ℕ := if type.left then 1 else if type.zeropad then 2 else 3

/-- The length of the text of `__number`. -/
def numberLength (num : BitVec 64) (base : ℕ) (size precision : Int32) (type : Flags) : ℕ :=
  numberCore num base precision type +
    paddings 0 (numberLoops type) (size - Int32.ofNat (numberCore num base precision type))

variable {num : BitVec 64} {base : ℕ} {size precision : Int32} {type : Flags}

/-- The precision that counts, as a number of figures. -/
def shownFigures (num : BitVec 64) (base : ℕ) (precision : Int32) (type : Flags) : ℕ :=
  (max precision.toInt (figureCount base (magnitude num type).toNat)).toNat

theorem precision_eq (num : BitVec 64) (precision : Int32) (type : Flags) (hb : 1 < base) :
    let i := Int32.ofNat (figures base hb num type).length
    (if i > precision then i else precision) = Int32.ofNat (shownFigures num base precision type) ∧
      rounds i (Int32.ofNat (shownFigures num base precision type)) +
        (figures base hb num type).length = shownFigures num base precision type := by
  intro i
  have hcount := figureCount_le hb (magnitude num type).isLt
  have hlen := length_figures hb num type
  have hi : i.toInt = figureCount base (magnitude num type).toNat := by
    rw [← hlen]
    exact toInt_ofNat_of_lt (by omega)
  have hlt := precision.toInt_lt
  have hshown : (Int32.ofNat (shownFigures num base precision type)).toInt =
      shownFigures num base precision type :=
    toInt_ofNat_of_lt (by unfold shownFigures; omega)
  constructor
  · refine Int32.toInt_inj.mp ?_
    rw [hshown]
    unfold shownFigures
    split
    · next h =>
      have hle := Int32.lt_iff_toInt_lt.mp h
      omega
    · next h =>
      have hle := mt Int32.lt_iff_toInt_lt.mpr h
      omega
  · rw [rounds, hshown, hi, hlen]
    unfold shownFigures
    omega

/-- The room left is what the number itself leaves of the width. -/
theorem sizeLeft_sub :
    sizeLeft num base size type - Int32.ofNat (shownFigures num base precision type) =
      size - Int32.ofNat (numberCore num base precision type) := by
  have hsign : (if (signChar num type).isEmpty then size else size - 1) =
      size - Int32.ofNat (signChar num type).length := by
    unfold signChar
    split
    · rfl
    · split
      · rfl
      · split
        · rfl
        · exact (Int32.sub_zero size).symm
  have hprefix (a : Int32) : (if type.special then
      if base = 16 then a - 2 else if base = 8 then a - 1 else a else a) =
      a - Int32.ofNat (specialChars base type).length := by
    unfold specialChars
    split
    · by_cases h16 : base = 16
      · subst h16
        rfl
      · by_cases h8 : base = 8
        · subst h8
          rfl
        · rw [if_neg h16, if_neg h8, if_neg h8, if_neg h16]
          exact (Int32.sub_zero a).symm
    · exact (Int32.sub_zero a).symm
  unfold sizeLeft numberCore
  simp only [hsign, hprefix]
  rw [← shownFigures, Int32.ofNat_add, Int32.ofNat_add]
  grind

/-- The text is the number and its paddings. -/
theorem length_numberText (hb : 1 < base) (hleft : type.left = true → type.zeropad = false) :
    (numberText num base hb size precision type).length =
      numberLength num base size precision type := by
  obtain ⟨hprecision, hfigures⟩ := precision_eq num precision type hb
  have hcore : numberCore num base precision type = (signChar num type).length +
      (specialChars base type).length + shownFigures num base precision type := rfl
  unfold numberText numberLength
  simp only [hprecision, sizeLeft_sub, countdown_eq, List.length_append, List.length_replicate,
    List.length_reverse]
  -- one, two or three of the loops run
  cases hl : type.left with
  | true =>
    simp only [hleft hl, Bool.or_true, if_true, List.length_nil, numberLoops, hl, paddings]
    omega
  | false =>
    cases hz : type.zeropad with
    | true =>
      simp [hl, hz, numberLoops, paddings]
      omega
    | false =>
      simp [hl, hz, numberLoops, paddings]
      omega

/-- **The length of the text of `__number`.** -/
theorem length_number {text : List (BitVec 8)}
    (h : number num base size precision type = some text) :
    text.length = numberLength num base size precision type := by
  unfold number at h
  split at h
  · cases h
  · obtain rfl := Option.some.inj h
    cases hl : type.left with
    | true =>
      rw [if_pos rfl, length_numberText _ fun _ => rfl]
      unfold numberLength numberLoops
      simp only [hl, if_true]
      rfl
    | false =>
      rw [if_neg (by simp)]
      exact length_numberText _ (by simp [hl])

end Print
end OSLib
