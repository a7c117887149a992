import OSLib.Foundation.Emits
import OSLib.Print.NumberText
import Mathlib.Algebra.Ring.Nat
import Mathlib.Data.BitVec

/-!
# The digit loop of `__number`

`tmp` has 50 bytes.  The loop fills it with the figures of `num`, taken as an unsigned number, and
it does not look at the size: `num` itself is the counter, which `get_remainder` divides in place.
Here the loop is run step by step, with the index of each byte written as what is observed
(`fillTmp_emits`).  It ends for every base, and the bytes are the figures.  Only base 2 has numbers
of more than 50 figures: 3 to the power of 50 is above 2 to the power of 64.

`NumberText` has the same loop as a recursion on the number, and it is enough for what is printed.
It cannot say where `tmp` ends, because a list has no end: that is why the loop is here once more,
with its index and its memory, and shown to write the same figures.
-/

namespace OSLib
namespace Print

/-! ## The loop -/

/-- `divq`: the quotient and the remainder of `rdx:rax`, or none for a divide error. -/
def divq (rdx rax divisor : BitVec 64) : Option (BitVec 64 × BitVec 64) :=
  let dividend := rdx.toNat * 2 ^ 64 + rax.toNat
  if divisor.toNat = 0 ∨ 2 ^ 64 ≤ dividend / divisor.toNat then none
  else some (BitVec.ofNat 64 (dividend / divisor.toNat),
    BitVec.ofNat 64 (dividend % divisor.toNat))

/-- `get_remainder`: the new `n`, and the remainder. -/
def getRemainder (n : BitVec 64) (base : ℕ) : Option (BitVec 64 × BitVec 64) :=
  divq 0 n (BitVec.ofNat 64 base)

/-- The places of the code: `if (num == 0)`, the head of the loop, and behind it. -/
inductive DigitPoint where
  | test
  | loop
  | filled
  deriving DecidableEq, Repr

/-- The variables the loop works on.  `tmp` goes on behind its 50 bytes, as memory does. -/
structure DigitState where
  point : DigitPoint
  num : BitVec 64
  i : ℕ
  tmp : ℕ → BitVec 8

/-- `sizeof(tmp)`. -/
def tmpSize : ℕ := 50

/-- `tmp[i++] = c`. -/
def DigitState.put (s : DigitState) (c : BitVec 8) : DigitState :=
  { s with i := s.i + 1, tmp := fun j => if j = s.i then c else s.tmp j }

/-- One step: the test, or a round of the loop. -/
def digitStep (small : Bool) (base : ℕ) (s : DigitState) : Option DigitState :=
  match s.point with
  | .test =>
    if s.num = 0 then some { s.put 0x30 with point := .filled } else some { s with point := .loop }
  | .loop =>
    if s.num = 0 then some { s with point := .filled }
    else (getRemainder s.num base).map fun (quotient, remainder) =>
      { s.put (digits small remainder.toNat) with num := quotient }
  | .filled => none

/-- The index in `tmp` that the step out of `s` writes. -/
def digitWrite (s : DigitState) : Option ℕ :=
  match s.point with
  | .test => if s.num = 0 then some s.i else none
  | .loop => if s.num = 0 then none else some s.i
  | .filled => none

/-- `i = 0`, after the sign is taken away. -/
def digitStart (num : BitVec 64) (type : Flags) (tmp : ℕ → BitVec 8) : DigitState :=
  { point := .test, num := magnitude num type, i := 0, tmp := tmp }

/-! ## What it writes -/

section

variable {base : ℕ} {s : DigitState}

/-- The high half of the dividend is 0, so there is no divide error. -/
theorem getRemainder_eq (hb : 1 < base) (hbase : base ≤ 36) (n : BitVec 64) :
    getRemainder n base =
      some (BitVec.ofNat 64 (n.toNat / base), BitVec.ofNat 64 (n.toNat % base)) := by
  have hdivisor : (BitVec.ofNat 64 base).toNat = base :=
    Nat.mod_eq_of_lt (Nat.lt_of_le_of_lt hbase (by decide))
  have hquotient : n.toNat / base < 2 ^ 64 := Nat.lt_of_le_of_lt (Nat.div_le_self _ _) n.isLt
  have hzero : (0 : BitVec 64).toNat * 2 ^ 64 + n.toNat = n.toNat := by
    rw [BitVec.ofNat_eq_ofNat, BitVec.toNat_ofNat, Nat.zero_mod, Nat.zero_mul, Nat.zero_add]
  unfold getRemainder divq
  simp only [hdivisor, hzero]
  exact if_neg (by omega)

/-- A round of the loop. -/
theorem digitStep_loop (small : Bool) (hb : 1 < base) (hbase : base ≤ 36) (hpoint : s.point = .loop)
    (hnum : s.num ≠ 0) :
    digitStep small base s = some { s.put (digits small (s.num.toNat % base)) with
      num := BitVec.ofNat 64 (s.num.toNat / base) } := by
  have hmod : s.num.toNat % base < 2 ^ 64 := Nat.lt_of_le_of_lt (Nat.mod_le _ _) s.num.isLt
  unfold digitStep
  rw [hpoint]
  simp only [if_neg hnum, getRemainder_eq hb hbase, Option.map_some, BitVec.toNat_ofNat,
    Nat.mod_eq_of_lt hmod]

/-- What the loop leaves: the figures from index `i` on, and the bytes below as they were. -/
structure Filled (s : DigitState) (figures : List (BitVec 8)) (t : DigitState) : Prop where
  point : t.point = .filled
  i : t.i = s.i + figures.length
  below : ∀ j < s.i, t.tmp j = s.tmp j
  figures : (List.range' s.i figures.length).map t.tmp = figures

/-- **The loop ends**, and it writes the figures at one index after the other.  By induction on
`num`, which a division by two or more makes smaller. -/
theorem digitLoop_emits (small : Bool) (hb : 1 < base) (hbase : base ≤ 36) (n : ℕ)
    (hn : s.num.toNat = n) (hpoint : s.point = .loop) :
    ∃ t, Emits (digitStep small base) digitWrite s
        (List.range' s.i (digitLoop small base hb n).length) t ∧
      Filled s (digitLoop small base hb n) t := by
  induction n using Nat.strong_induction_on generalizing s with
  | _ n ih =>
    rw [digitLoop]
    by_cases hzero : n = 0
    · have hnum : s.num = 0 := BitVec.eq_of_toNat_eq (hn.trans hzero)
      have hstep : digitStep small base s = some { s with point := .filled } := by
        unfold digitStep
        rw [hpoint]
        exact if_pos hnum
      have hwrite : digitWrite s = none := by
        unfold digitWrite
        rw [hpoint]
        exact if_pos hnum
      rw [if_pos hzero]
      exact ⟨_, .silent hstep hwrite, rfl, rfl, fun _ _ => rfl, rfl⟩
    · have hnum : s.num ≠ 0 := fun h => hzero (by rw [← hn, h]; rfl)
      have hwrite : digitWrite s = some s.i := by
        unfold digitWrite
        rw [hpoint]
        exact if_neg hnum
      have hlt : n / base < n := Nat.div_lt_self (Nat.pos_of_ne_zero hzero) hb
      have hdiv : (BitVec.ofNat 64 (n / base)).toNat = n / base :=
        Nat.mod_eq_of_lt (hlt.trans (hn ▸ s.num.isLt))
      have hstep := digitStep_loop small hb hbase hpoint hnum
      rw [hn] at hstep
      obtain ⟨t, hrun, hfilled⟩ := ih (n / base) hlt
        (s := { s.put (digits small (n % base)) with num := BitVec.ofNat 64 (n / base) }) hdiv
        hpoint
      rw [if_neg hzero]
      refine ⟨t, (Emits.seen hstep hwrite).append hrun, hfilled.point, ?_, fun j hj => ?_, ?_⟩
      · rw [hfilled.i]
        exact Nat.succ_add _ _
      · rw [hfilled.below j (Nat.lt_succ_of_lt hj)]
        exact if_neg hj.ne
      · -- the byte written in this round is below those of the rest
        have hhere : t.tmp s.i = digits small (n % base) :=
          (hfilled.below s.i (Nat.lt_succ_self _)).trans (if_pos rfl)
        rw [List.length_cons, List.range'_succ, List.map_cons, hhere]
        exact congrArg _ hfilled.figures

end

section

variable {num : BitVec 64} {base : ℕ} {type : Flags}

/-- **The digits.**  The run ends, the bytes it writes have the indices from 0 to the number of
figures, and they are the figures. -/
theorem fillTmp_emits (hb : 1 < base) (hbase : base ≤ 36) (num : BitVec 64) (type : Flags)
    (tmp : ℕ → BitVec 8) :
    ∃ t, Emits (digitStep type.small base) digitWrite (digitStart num type tmp)
        (List.range (figures base hb num type).length) t ∧
      Filled (digitStart num type tmp) (figures base hb num type) t := by
  rw [List.range_eq_range']
  unfold figures
  by_cases hzero : magnitude num type = 0
  · rw [if_pos hzero]
    have hstep : digitStep type.small base (digitStart num type tmp) =
        some { (digitStart num type tmp).put 0x30 with point := .filled } := if_pos hzero
    have hwrite : digitWrite (digitStart num type tmp) = some 0 := if_pos hzero
    exact ⟨_, .seen hstep hwrite, rfl, rfl, fun _ _ => if_neg (by omega), rfl⟩
  · rw [if_neg hzero]
    have hstep : digitStep type.small base (digitStart num type tmp) =
        some { digitStart num type tmp with point := .loop } := if_neg hzero
    have hwrite : digitWrite (digitStart num type tmp) = none := if_neg hzero
    obtain ⟨t, hrun, hfilled⟩ := digitLoop_emits type.small
      (s := { digitStart num type tmp with point := .loop }) hb hbase _ rfl rfl
    exact ⟨t, (Emits.silent hstep hwrite).trans hrun, ⟨hfilled.point, hfilled.i, hfilled.below,
      hfilled.figures⟩⟩

/-! ## The bound -/

/-- **The loop is safe**: it ends, and it writes inside `tmp` only. -/
def StaysInTmp (num : BitVec 64) (base : ℕ) (type : Flags) : Prop :=
  ∀ tmp, ∃ indices t, Emits (digitStep type.small base) digitWrite (digitStart num type tmp)
    indices t ∧ t.point = .filled ∧ ∀ i ∈ indices, i < tmpSize

/-- What the run writes is decided by the number of figures. -/
theorem staysInTmp_iff_figures (hb : 1 < base) (hbase : base ≤ 36) :
    StaysInTmp num base type ↔ (figures base hb num type).length ≤ tmpSize := by
  have hstop {t : DigitState} (h : t.point = .filled) : digitStep type.small base t = none := by
    unfold digitStep
    rw [h]
  constructor
  · intro h
    obtain ⟨indices, t, hrun, hpoint, hlt⟩ := h fun _ => 0
    obtain ⟨t', hrun', hfilled⟩ := fillTmp_emits hb hbase num type fun _ => 0
    obtain ⟨rfl, -⟩ := hrun.unique hrun' (hstop hpoint) (hstop hfilled.point)
    by_contra hlong
    exact absurd (hlt tmpSize (List.mem_range.mpr (Nat.lt_of_not_le hlong))) (lt_irrefl _)
  · intro h tmp
    obtain ⟨t, hrun, hfilled⟩ := fillTmp_emits hb hbase num type tmp
    exact ⟨_, t, hrun, hfilled.point, fun i hi =>
      Nat.lt_of_lt_of_le (List.mem_range.mp hi) h⟩

/-- A number has at most `k` figures if it is below that power of the base. -/
theorem length_figures_le (hb : 1 < base) {k : ℕ} (hk : k ≠ 0) :
    (figures base hb num type).length ≤ k ↔ (magnitude num type).toNat < base ^ k := by
  rw [length_figures, figureCount]
  split
  · next h =>
    rw [h]
    exact ⟨fun _ => Nat.pow_pos (Nat.zero_lt_of_lt hb), fun _ => Nat.pos_of_ne_zero hk⟩
  · next h => rw [Nat.add_one_le_iff, Nat.log_lt_iff_lt_pow hb h]

/-- The magnitude of a number, in terms of the number. -/
theorem magnitude_lt :
    (magnitude num type).toNat < 2 ^ 50 ↔
      (0 ≤ num.toInt ∧ num.toInt < 2 ^ 50) ∨
        (type.sign = true ∧ -2 ^ 50 < num.toInt ∧ num.toInt < 0) := by
  have hlt := num.isLt
  rw [magnitude, isNegative]
  cases hneg : num.msb with
  | false =>
    have hint : num.toInt = num.toNat := BitVec.toInt_eq_toNat_of_msb hneg
    rw [Bool.and_false, if_neg Bool.false_ne_true]
    omega
  | true =>
    have hint := neg_toNat_neg hneg
    have hge : 2 ^ 63 ≤ num.toNat := BitVec.toNat_ge_of_msb_true hneg
    have hnegative : num.toInt < 0 := BitVec.toInt_neg_iff.mpr (by omega)
    cases type.sign with
    | false =>
      rw [Bool.false_and, if_neg Bool.false_ne_true]
      refine iff_of_false (by omega) ?_
      rintro (⟨hpos, -⟩ | ⟨hsign, -⟩)
      · exact absurd hnegative (not_lt.mpr hpos)
      · exact absurd hsign Bool.false_ne_true
    | true =>
      rw [Bool.true_and, if_pos rfl]
      constructor
      · intro h
        exact .inr ⟨rfl, by omega, hnegative⟩
      · rintro (⟨hpos, -⟩ | ⟨-, hgt, -⟩)
        · exact absurd hnegative (not_lt.mpr hpos)
        · omega

/-- **When the digit loop is safe.** -/
theorem staysInTmp_iff (num : BitVec 64) (type : Flags) (hb : 2 ≤ base) (hbase : base ≤ 36) :
    StaysInTmp num base type ↔
      3 ≤ base ∨ (0 ≤ num.toInt ∧ num.toInt < 2 ^ 50) ∨
        (type.sign = true ∧ -2 ^ 50 < num.toInt ∧ num.toInt < 0) := by
  rw [staysInTmp_iff_figures hb hbase, length_figures_le hb (by decide)]
  rcases hb.eq_or_lt with rfl | hthree
  · rw [show tmpSize = 50 from rfl, magnitude_lt]
    exact (or_iff_right (by decide)).symm
  · refine iff_of_true ?_ (.inl hthree)
    calc (magnitude num type).toNat < 2 ^ 64 := (magnitude num type).isLt
      _ ≤ 3 ^ 50 := by decide
      _ ≤ base ^ 50 := Nat.pow_le_pow_left hthree 50

/-- The greatest number of 16 figures in base 16 stays in `tmp`. -/
theorem staysInTmp_hexadecimal : StaysInTmp (-1) 16 {} :=
  (staysInTmp_iff (-1) {} (by decide) (by decide)).mpr (.inl (by decide))

/-- **`tmp` is too short for base 2**: `-1` without its sign has 64 figures. -/
theorem not_staysInTmp : ¬ StaysInTmp (-1) 2 {} := by
  rw [staysInTmp_iff_figures (by decide) (by decide), length_figures_le (by decide) (by decide)]
  decide

end

end Print
end OSLib
