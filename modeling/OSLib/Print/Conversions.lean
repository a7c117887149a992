import OSLib.Print.Buffer
import OSLib.Print.NumberText

/-!
# What conversions append

`%c` and `%s` put a character or the first bytes of a string into a field: two loops over one
variable fill it with blanks, before and behind, and the second finds nothing to do if the first has
run (`char_eq_field`, `string_eq_field`).

The unsigned conversions go through `__number`.  Their argument is fetched as an `int32` and widened
with its sign to the `int64` that `__number` takes, and is then divided as an unsigned number, so
that of the 32-bit numbers only those below `2 ^ 31` are shown as they are (`round_unsigned_iff`).

The width and the precision are any that the code may see, those of an argument among them.  The
loops count the width down once more than they write, and `WidthFits` leaves out the least `int32`,
and the one above it where the blanks stand on the left, at which the counter comes round.
-/

namespace OSLib
namespace Print

variable {mem : Mem} {flags : Flags} {width precision : Int32} {qualifier : Option (BitVec 8)}

/-! ## Fields -/

/-- A text in a field: blanks fill the width, on the side that the flags ask for. -/
def field (flags : Flags) (width : Int32) (text : List (BitVec 8)) : List (BitVec 8) :=
  if flags.left then text ++ List.replicate (width.toInt - text.length).toNat 0x20
  else List.replicate (width.toInt - text.length).toNat 0x20 ++ text

theorem length_field (flags : Flags) (width : Int32) (text : List (BitVec 8)) :
    ((field flags width text).length : ℤ) = max width.toInt text.length := by
  rw [field]
  split
  · rw [List.length_append, List.length_replicate]
    omega
  · rw [List.length_append, List.length_replicate]
    omega

/-- The decrements of the width do not overflow: there is one behind every loop. -/
def WidthFits (flags : Flags) (width : Int32) : Prop :=
  -2 ^ 31 ≤ width.toInt - (if flags.left then 1 else 2)

theorem WidthFits.toInt_pred (h : WidthFits flags width) : (width - 1).toInt = width.toInt - 1 := by
  have hone : (1 : Int32).toInt = 1 := rfl
  have hlt := width.toInt_lt
  have hlow : -2 ^ 31 ≤ width.toInt - 1 := by
    rw [WidthFits] at h
    split at h <;> omega
  exact toInt_sub_of_fits ⟨by rw [hone]; exact hlow, by rw [hone]; omega⟩

/-- The case `'c'`: the character in its field. -/
theorem char_eq_field (hfits : WidthFits flags width) (v : BitVec 64) :
    char flags width v = field flags width [(int32Arg v).toBitVec.setWidth 8] := by
  have hpred := hfits.toInt_pred
  have hrounds : rounds 0 (width - 1) = (width.toInt - 1).toNat := by
    rw [rounds, hpred]
    exact congrArg Int.toNat (Int.sub_zero _)
  have htext : (countdownPre (0x20 : BitVec 8) 0 width).1 =
      List.replicate (width.toInt - 1).toNat 0x20 := by
    rw [(countdownPre_eq _ 0 width).1, countdown_eq, hrounds]
  rw [char, field, List.length_singleton]
  cases hl : flags.left with
  | true =>
    simp only [if_true, htext, List.nil_append]
    rfl
  | false =>
    have hlow : -2 ^ 31 < (width - 1).toInt := by
      rw [WidthFits, hl] at hfits
      simp only [Bool.false_eq_true, if_false] at hfits
      omega
    have hcounter : (countdownPre (0x20 : BitVec 8) 0 width).2 - 1 =
        counterAfter 0 (width - 1) := by
      rw [(countdownPre_eq _ 0 width).2, countdown_eq]
    -- the second loop starts below its bound
    have hsecond : (countdownPre (0x20 : BitVec 8) 0 (countdownPre (0x20 : BitVec 8) 0 width).2).1 =
        [] := by
      rw [(countdownPre_eq _ 0 _).1, hcounter, countdown_eq,
        rounds_counterAfter (by decide) hlow, List.replicate_zero]
    simp only [Bool.false_eq_true, if_false, htext, hsecond, List.append_nil]
    rfl

/-- The length that is shown of a string, as a number of bytes. -/
def shownBytes (precision : Int32) (len : ℕ) : ℕ :=
  if precision < 0 then len else min len precision.toInt.toNat

theorem shownLength_eq {len : ℕ} (hlen : len < 2 ^ 31) :
    shownLength precision (Int32.ofNat len) = Int32.ofNat (shownBytes precision len) := by
  have hofNat := toInt_ofNat_of_lt hlen
  have hzero : (0 : Int32).toInt = 0 := rfl
  refine Int32.toInt_inj.mp ?_
  rw [shownLength, shownBytes]
  split
  · rfl
  · next hneg =>
    rw [Int32.lt_iff_toInt_lt, hzero] at hneg
    rw [toInt_ofNat_of_lt (by omega)]
    split
    · next hgt =>
      have hlt := Int32.lt_iff_toInt_lt.mp hgt
      omega
    · next hgt =>
      have hle := mt Int32.lt_iff_toInt_lt.mpr hgt
      omega

/-- The bytes of a string that are copied. -/
theorem map_range_of_stringAt {s : BitVec 64} {bytes : List (BitVec 8)}
    (h : Lib.StringAt mem s bytes) {n : ℕ} (hn : n ≤ bytes.length) :
    (List.range n).map (fun i => mem (s + BitVec.ofNat 64 i)) = bytes.take n := by
  refine List.ext_getElem ?_ fun i hi hi' => ?_
  · rw [List.length_map, List.length_range, List.length_take, Nat.min_eq_left hn]
  · rw [List.length_map, List.length_range] at hi
    rw [List.getElem_map, List.getElem_range, List.getElem_take, h.get i (by omega)]

/-- The case `'s'`: the first bytes of the string in their field. -/
theorem string_eq_field {s : BitVec 64} {bytes : List (BitVec 8)} (hs : s ≠ 0)
    (h : Lib.StringAt mem s bytes) (hlen : bytes.length < 2 ^ 31) (hfits : WidthFits flags width) :
    string mem flags width precision s =
      .ok (field flags width (bytes.take (shownBytes precision bytes.length))) := by
  have hle : shownBytes precision bytes.length ≤ bytes.length := by
    rw [shownBytes]
    split <;> omega
  have hshown : (Int32.ofNat (shownBytes precision bytes.length)).toInt =
      shownBytes precision bytes.length := toInt_ofNat_of_lt (by omega)
  have hrounds : rounds (Int32.ofNat (shownBytes precision bytes.length)) width =
      (width.toInt - shownBytes precision bytes.length).toNat := by
    rw [rounds, hshown]
  rw [string, field, List.length_take, Nat.min_eq_left hle]
  simp only [if_neg hs, strlenArg, ok_bind, Lib.strlen_of_stringAt h, shownLength_eq hlen,
    countdown_eq, hshown, Int.toNat_natCast, map_range_of_stringAt h hle]
  cases hl : flags.left with
  | true => simp only [if_true, hrounds, List.nil_append]
  | false =>
    have hlow : -2 ^ 31 < width.toInt := by
      rw [WidthFits, hl] at hfits
      simp only [Bool.false_eq_true, if_false] at hfits
      omega
    have hsecond : rounds (Int32.ofNat (shownBytes precision bytes.length))
        (counterAfter (Int32.ofNat (shownBytes precision bytes.length)) width) = 0 :=
      rounds_counterAfter (by rw [hshown]; omega) hlow
    simp only [Bool.false_eq_true, if_false, hrounds, hsecond, List.replicate_zero,
      List.append_nil]

/-- **Strings and characters in their fields.**  For every width whose decrements do not overflow
and every precision, a `%s` appends the first bytes of the string, as many as the precision allows,
and a `%c` its character, filled up with blanks to the width on the side that the flags ask for. -/
theorem convert_field (mem : Mem) (precision : Int32) (qualifier : Option (BitVec 8))
    (hfits : WidthFits flags width) :
    (∀ s bytes, s ≠ 0 → Lib.StringAt mem s bytes → bytes.length < 2 ^ 31 →
      ∃ text, convert mem 0x73 flags width precision qualifier s = .ok (text, 1) ∧
        text = field flags width (bytes.take (shownBytes precision bytes.length)) ∧
        (text.length : ℤ) = max width.toInt (shownBytes precision bytes.length)) ∧
    ∀ v, ∃ text, convert mem 0x63 flags width precision qualifier v = .ok (text, 1) ∧
      text = field flags width [(int32Arg v).toBitVec.setWidth 8] ∧
      (text.length : ℤ) = max width.toInt 1 := by
  constructor
  · intro s bytes hs h hlen
    have hle : shownBytes precision bytes.length ≤ bytes.length := by
      rw [shownBytes]
      split <;> omega
    have hstring : string mem flags width precision s = _ := string_eq_field hs h hlen hfits
    refine ⟨_, ?_, rfl, ?_⟩
    · simp only [convert, hstring]
      rfl
    · rw [length_field, List.length_take, Nat.min_eq_left hle]
  · intro v
    refine ⟨_, ?_, rfl, ?_⟩
    · simp only [convert, char_eq_field hfits]
      rfl
    · rw [length_field]
      rfl

/-- `%-6.3s` with `abcde`, and `%5c` with `a`. -/
theorem convert_field_abcde :
    convert Lib.abcde 0x73 { left := true } 6 3 none 16 =
      .ok ([0x61, 0x62, 0x63, 0x20, 0x20, 0x20], 1) ∧
    convert Lib.abcde 0x63 {} 5 (-1) none 0x61 = .ok ([0x20, 0x20, 0x20, 0x20, 0x61], 1) := by
  have hleft : WidthFits { left := true } 6 := by
    rw [WidthFits]
    decide
  have hright : WidthFits {} 5 := by
    rw [WidthFits]
    decide
  obtain ⟨s, hs, rfl, -⟩ := (convert_field Lib.abcde 3 none hleft).1 16 _ (by decide)
    Lib.abcde_stringAt (by decide)
  obtain ⟨c, hc, rfl, -⟩ := (convert_field Lib.abcde (-1) none hright).2 0x61
  exact ⟨hs, hc⟩

/-! ## Unsigned numbers -/

open Numerals

/-- The base of `%u`, `%o`, `%x` and `%X`. -/
def unsignedBase (letter : BitVec 8) : Option ℕ :=
  if letter = 0x75 then some 10
  else if letter = 0x6f then some 8
  else if letter = 0x78 ∨ letter = 0x58 then some 16
  else none

variable {letter : BitVec 8} {base : ℕ} {num v : BitVec 64} {size : Int32}
  {args : ℕ → BitVec 64} {fmt : List (BitVec 8)} {p : Printing}

/-- A number that is shown without a sign is read back as it is. -/
theorem integer_unsigned (num : BitVec 64) (hb : 1 < base) (hbase : base ≤ 36)
    (width precision : Int32) (hsign : flags.sign = false) :
    ∃ text, integer num base width precision flags = .ok text ∧
      lastNumber base text = num.toNat := by
  have hmagnitude : magnitude num (aligned flags) = num := by
    rw [magnitude, isNegative, aligned_sign, hsign]
    rfl
  refine ⟨numberText num base hb width precision (aligned flags), ?_, ?_⟩
  · rw [integer, number_eq num width precision flags hb hbase]
  · rw [lastNumber_numberText _ _ _ _ hb hbase, hmagnitude]

/-- What an unsigned conversion appends. -/
theorem convert_unsigned (mem : Mem) (hletter : unsignedBase letter = some base)
    (hsign : flags.sign = false) (width precision : Int32) (qualifier : Option (BitVec 8))
    (v : BitVec 64) :
    ∃ text, convert mem letter flags width precision qualifier v = .ok (text, 1) ∧
      lastNumber base text = (integerArg qualifier v).toNat := by
  have hone (b : ℕ) (flags : Flags) (hb : 1 < b ∧ b ≤ 36) (hsign : flags.sign = false) :
      ∃ text, (integer (integerArg qualifier v) b width precision flags).map (·, 1) =
        .ok (text, 1) ∧ lastNumber b text = (integerArg qualifier v).toNat := by
    obtain ⟨text, htext, hread⟩ := integer_unsigned (integerArg qualifier v) hb.1 hb.2 width
      precision hsign
    exact ⟨text, by rw [htext]; rfl, hread⟩
  rw [unsignedBase] at hletter
  split at hletter
  · next h =>
    obtain rfl := Option.some.inj hletter
    subst h
    exact hone 10 flags (by decide) hsign
  · split at hletter
    · next h =>
      obtain rfl := Option.some.inj hletter
      subst h
      exact hone 8 flags (by decide) hsign
    · split at hletter
      · next h =>
        obtain rfl := Option.some.inj hletter
        rcases h with rfl | rfl
        · exact hone 16 { flags with small := true } (by decide) hsign
        · exact hone 16 flags (by decide) hsign
      · cases hletter

/-- No character of a format is the flag `SIGN`. -/
theorem setFlag_sign {c : BitVec 8} (flags : Flags) :
    ((setFlag c).getD id flags).sign = flags.sign := by
  rw [setFlag]
  split
  · rfl
  · split
    · rfl
    · split
      · rfl
      · split
        · rfl
        · split <;> rfl

theorem flagSet_sign (s : Spec) (args : ℕ → BitVec 64) (k : ℕ) :
    (s.flagSet args k).sign = false := by
  have hfold (cs : List (BitVec 8)) (flags : Flags) :
      (cs.foldl (fun flags c => (setFlag c).getD id flags) flags).sign = flags.sign := by
    induction cs generalizing flags with
    | nil => rfl
    | cons c cs ih => rw [List.foldl_cons, ih, setFlag_sign]
  rw [Spec.flagSet]
  split
  · exact hfold s.flags {}
  · exact hfold s.flags {}

/-- A round that meets an unsigned conversion. -/
theorem round_unsigned (mem : Mem) (args : ℕ → BitVec 64) (fmt : List (BitVec 8)) (p : Printing)
    (hletter : unsignedBase (spec fmt).1.letter = some base) :
    ∃ text, round mem args (0x25 :: fmt) p =
        .ok ((spec fmt).2, ⟨p.text ++ text, p.arg + (spec fmt).1.stars + 1⟩) ∧
      lastNumber base text =
        (integerArg (spec fmt).1.qualifier (args (p.arg + (spec fmt).1.stars))).toNat := by
  obtain ⟨text, htext, hread⟩ := convert_unsigned mem hletter
    (flagSet_sign (spec fmt).1 args p.arg) ((spec fmt).1.widthValue args p.arg)
    ((spec fmt).1.precisionValue args p.arg) (spec fmt).1.qualifier
    (args (p.arg + (spec fmt).1.stars))
  have hconv : ¬ cur (0x25 :: fmt) ≠ 0x25 := not_not.mpr rfl
  refine ⟨text, ?_, hread⟩
  rw [round, if_neg hconv, conversion_eq, emit, htext]
  rfl

/-- The lower half of an argument, widened with its sign. -/
theorem toNat_widened (v : BitVec 64) : (widened v).toNat =
    (v.setWidth 32).toNat + if 2 ^ 31 ≤ (v.setWidth 32).toNat then 2 ^ 64 - 2 ^ 32 else 0 := by
  have hmsb : (v.setWidth 32).msb = decide (2 ^ 31 ≤ (v.setWidth 32).toNat) :=
    BitVec.msb_eq_decide _
  have hwide : ((v.setWidth 32).setWidth 64).toNat = (v.setWidth 32).toNat :=
    BitVec.toNat_setWidth_of_le (by decide)
  rw [widened, BitVec.toNat_signExtend, hwide, hmsb]
  simp only [decide_eq_true_eq]

/-- It keeps its value if its upper bit is clear. -/
theorem toNat_widened_eq_low_iff (v : BitVec 64) :
    (widened v).toNat = (v.setWidth 32).toNat ↔ (v.setWidth 32).toNat < 2 ^ 31 := by
  rw [toNat_widened]
  split <;> omega

/-- **What unsigned conversions print.**  In every format and with every width, precision and flags,
a `%u`, `%o`, `%x` or `%X` without the qualifier `l` prints digits that read back to its 32-bit
argument exactly if the argument is below `2 ^ 31`. -/
theorem round_unsigned_iff (mem : Mem) (args : ℕ → BitVec 64) (p : Printing)
    (hletter : unsignedBase (spec fmt).1.letter = some base)
    (hq : (spec fmt).1.qualifier ≠ some 0x6c) :
    (∃ text arg, round mem args (0x25 :: fmt) p = .ok ((spec fmt).2, ⟨p.text ++ text, arg⟩) ∧
      lastNumber base text = ((args (p.arg + (spec fmt).1.stars)).setWidth 32).toNat) ↔
    ((args (p.arg + (spec fmt).1.stars)).setWidth 32).toNat < 2 ^ 31 := by
  obtain ⟨text, hround, hread⟩ := round_unsigned mem args fmt p hletter
  rw [integerArg, if_neg hq] at hread
  rw [← toNat_widened_eq_low_iff, ← hread]
  constructor
  · rintro ⟨text', arg, hround', hread'⟩
    rw [hround] at hround'
    obtain ⟨-, hprinting⟩ := Prod.mk.inj (Except.ok.inj hround')
    rw [List.append_cancel_left (congrArg Printing.text hprinting)]
    exact hread'
  · exact fun h => ⟨text, _, hround, h⟩

/-- `%x` with 255. -/
theorem round_unsigned_ff :
    ∃ text arg, round (fun _ => 0) (fun _ => 0xff) [0x25, 0x78] ⟨[], 0⟩ =
        .ok ((spec [0x78]).2, ⟨[] ++ text, arg⟩) ∧
      lastNumber 16 text = ((0xff : BitVec 64).setWidth 32).toNat := by
  have hspec : spec [0x78] = (⟨[], .absent, none, none, 0x78⟩, []) := by decide +kernel
  have hletter : unsignedBase (spec [0x78]).1.letter = some 16 := by
    rw [hspec]
    rfl
  have hq : (spec [0x78]).1.qualifier ≠ some 0x6c := by
    rw [hspec]
    decide
  exact (round_unsigned_iff (fun _ => 0) (fun _ => 0xff) ⟨[], 0⟩ hletter hq).mpr (by decide)

/-- `%x` with `0x80000000` prints `ffffffff80000000`. -/
theorem round_unsigned_widened :
    ¬ ∃ text arg, round (fun _ => 0) (fun _ => 0x80000000) [0x25, 0x78] ⟨[], 0⟩ =
        .ok ((spec [0x78]).2, ⟨[] ++ text, arg⟩) ∧ lastNumber 16 text = 0x80000000 := by
  have hspec : spec [0x78] = (⟨[], .absent, none, none, 0x78⟩, []) := by decide +kernel
  have hletter : unsignedBase (spec [0x78]).1.letter = some 16 := by
    rw [hspec]
    rfl
  obtain ⟨text, hround, hread⟩ := round_unsigned (fun _ => 0) (fun _ => 0x80000000) [0x78] ⟨[], 0⟩
    hletter
  rintro ⟨text', arg, hround', hread'⟩
  rw [hround] at hround'
  obtain ⟨-, hprinting⟩ := Prod.mk.inj (Except.ok.inj hround')
  rw [← List.append_cancel_left (congrArg Printing.text hprinting), hread, hspec] at hread'
  exact absurd hread' (by decide)

end Print
end OSLib
