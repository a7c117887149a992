import Mathlib.Algebra.Ring.Nat
import Mathlib.Tactic.Common
import Mathlib.Data.Int.Basic
import Mathlib.Data.BitVec

/-!
# 32-bit signed arithmetic

`Int32` wraps around.  The lemmas below give the value of an operation where it does not, in the
form `omega` takes, and the loops are those C programs write with one counter: `countdown x b w` is
`while (b < w--) *str++ = x`, and `countdownPre x b w` is `while (--w > b) *str++ = x`.  Both give
what was written and the counter afterwards.

Both loops are functions of the counter alone, with the number of turns in closed form (`rounds`),
because the C code goes on counting after a loop has ended and the next loop starts from what is
left.  The counter may be negative when a loop starts, and it may come round below the least
`int32`, which is where such code goes wrong; neither is excluded here.
-/

namespace OSLib

/-! ## Operations that do not overflow -/

/-- The value lies in the range of an `int32`. -/
def FitsInt32 (v : ℤ) : Prop := -2 ^ 31 ≤ v ∧ v < 2 ^ 31

variable {a b w : Int32}

theorem bmod_of_fits {v : ℤ} (h : FitsInt32 v) : v.bmod (2 ^ 32) = v :=
  Int.bmod_eq_of_le (by simpa using h.1) (by simpa using h.2)

/-- An overflow past the upper bound. -/
theorem bmod_of_ge {v : ℤ} (h : 2 ^ 31 ≤ v) (h' : v < 2 ^ 32) : v.bmod (2 ^ 32) = v - 2 ^ 32 := by
  have hsub : (v - 2 ^ 32).bmod (2 ^ 32) = v.bmod (2 ^ 32) := Int.sub_bmod_right v (2 ^ 32)
  rw [← hsub, bmod_of_fits ⟨by omega, by omega⟩]

/-- Reduction takes off multiples of `2 ^ 32`. -/
theorem bmod_eq_or_le {v : ℤ} (h : 0 ≤ v) :
    v.bmod (2 ^ 32) = v ∨ v.bmod (2 ^ 32) + 2 ^ 32 ≤ v := by
  rw [Int.bmod_def]
  split <;> omega

theorem toInt_add_of_fits (h : FitsInt32 (a.toInt + b.toInt)) :
    (a + b).toInt = a.toInt + b.toInt := by
  rw [Int32.toInt_add, bmod_of_fits h]

theorem toInt_sub_of_fits (h : FitsInt32 (a.toInt - b.toInt)) :
    (a - b).toInt = a.toInt - b.toInt := by
  rw [Int32.toInt_sub, bmod_of_fits h]

theorem toInt_mul_of_fits (h : FitsInt32 (a.toInt * b.toInt)) :
    (a * b).toInt = a.toInt * b.toInt := by
  rw [Int32.toInt_mul, bmod_of_fits h]

theorem toInt_ofNat_of_lt {n : ℕ} (h : n < 2 ^ 31) : (Int32.ofNat n).toInt = n :=
  Int32.toInt_ofNat_of_lt h

/-- A natural number is subtracted; it may be too large for an `int32` itself. -/
theorem toInt_sub_ofNat {n : ℕ} (h : FitsInt32 (w.toInt - n)) :
    (w - Int32.ofNat n).toInt = w.toInt - n := by
  have hn : (Int32.ofNat n).toInt = (n : ℤ).bmod (2 ^ 32) := Int32.toInt_ofNat'
  rw [Int32.toInt_sub, hn, Int.sub_bmod_bmod, bmod_of_fits h]

/-- Division of a number that is not negative by a positive one. -/
theorem toInt_div_of_nonneg (ha : 0 ≤ a.toInt) (hb : 0 < b.toInt) :
    (a / b).toInt = a.toInt / b.toInt := by
  have hle : a.toInt / b.toInt ≤ a.toInt := Int.ediv_le_self _ ha
  have hnonneg : 0 ≤ a.toInt / b.toInt := Int.ediv_nonneg ha (Int.le_of_lt hb)
  have hlt := a.toInt_lt
  rw [Int32.toInt_div, Int.tdiv_eq_ediv_of_nonneg ha, bmod_of_fits ⟨by omega, by omega⟩]

/-- A number that is not negative is the value of its bits. -/
theorem toInt_of_nonneg (h : 0 ≤ a.toInt) : a.toInt = a.toBitVec.toNat := by
  have hcond : a.toInt = _ := BitVec.toInt_eq_toNat_cond a.toBitVec
  have hlt := a.toBitVec.isLt
  split at hcond <;> omega

/-- Clearing the lowest three bits rounds down to a multiple of 8. -/
theorem toNat_and_not_seven (v : BitVec 32) : (v &&& ~~~7#32).toNat = v.toNat / 8 * 8 := by
  have hmask : v &&& ~~~7#32 = v >>> 3 <<< 3 := by
    refine BitVec.eq_of_getLsbD_eq fun i hi => ?_
    have hbit : ∀ i < 32, (~~~7#32).getLsbD i = !decide (i < 3) := by decide
    rw [BitVec.getLsbD_and, hbit i hi, BitVec.getLsbD_shiftLeft, BitVec.getLsbD_ushiftRight]
    by_cases h : i < 3
    · simp [h]
    · simp [h, hi, show 3 + (i - 3) = i by omega]
  have hlt := v.isLt
  rw [hmask, BitVec.toNat_shiftLeft, BitVec.toNat_ushiftRight, Nat.shiftLeft_eq,
    Nat.shiftRight_eq_div_pow, Nat.mod_eq_of_lt]
  omega

/-! ## Loops with one counter -/

section Loops

variable {α : Type*} (x : α)

theorem toInt_pred (h : b < a) : (a - 1).toInt = a.toInt - 1 := by
  rw [Int32.lt_iff_toInt_lt] at h
  have hb := b.le_toInt
  have ha := a.toInt_lt
  have hone : (1 : Int32).toInt = 1 := rfl
  exact toInt_sub_of_fits ⟨by omega, by omega⟩

/-- `while (b < w--) *str++ = x`. -/
def countdown (b w : Int32) : List α × Int32 :=
  if b < w then (x :: (countdown b (w - 1)).1, (countdown b (w - 1)).2) else ([], w - 1)
termination_by (w.toInt - b.toInt).toNat
decreasing_by
  all_goals
    rw [toInt_pred (by assumption)]
    rw [Int32.lt_iff_toInt_lt] at *
    omega

/-- `while (b < --w) *str++ = x`. -/
def countdownPre (b w : Int32) : List α × Int32 :=
  if b < w - 1 then (x :: (countdownPre b (w - 1)).1, (countdownPre b (w - 1)).2) else ([], w - 1)
termination_by ((w - 1).toInt - b.toInt).toNat
decreasing_by
  all_goals
    rw [toInt_pred (a := w - 1) (by assumption)]
    rw [Int32.lt_iff_toInt_lt] at *
    omega

/-- The rounds of `while (b < w--)`. -/
def rounds (b w : Int32) : ℕ := (w.toInt - b.toInt).toNat

/-- The counter after `while (b < w--)`. -/
def counterAfter (b w : Int32) : Int32 := (if b < w then b else w) - 1

variable {x}

theorem rounds_of_lt (h : b < w) : rounds b w = rounds b (w - 1) + 1 := by
  unfold rounds
  rw [toInt_pred h]
  rw [Int32.lt_iff_toInt_lt] at h
  omega

theorem rounds_of_not_lt (h : ¬ b < w) : rounds b w = 0 := by
  unfold rounds
  rw [Int32.lt_iff_toInt_lt] at h
  omega

theorem counterAfter_of_lt (h : b < w) : counterAfter b (w - 1) = counterAfter b w := by
  unfold counterAfter
  rw [if_pos h]
  split
  · rfl
  · next hlt => rw [show w - 1 = b by grind]

/-- **What a countdown writes.** -/
theorem countdown_eq (x : α) (b w : Int32) :
    countdown x b w = (List.replicate (rounds b w) x, counterAfter b w) := by
  rw [countdown]
  split
  · next h =>
    rw [countdown_eq x b (w - 1), rounds_of_lt h, List.replicate_succ, counterAfter_of_lt h]
  · next h => rw [rounds_of_not_lt h, counterAfter, if_neg h, List.replicate_zero]
termination_by (w.toInt - b.toInt).toNat
decreasing_by
  rw [toInt_pred (by assumption)]
  rw [Int32.lt_iff_toInt_lt] at *
  omega

/-- The counter after a loop, if it is not counted down past the least number. -/
theorem toInt_counterAfter (hb : -2 ^ 31 < b.toInt) (hw : -2 ^ 31 < w.toInt) :
    (counterAfter b w).toInt = min b.toInt w.toInt - 1 := by
  have hone : (1 : Int32).toInt = 1 := rfl
  have hb' := b.toInt_lt
  have hw' := w.toInt_lt
  rw [counterAfter]
  split
  · next h =>
    rw [Int32.lt_iff_toInt_lt] at h
    rw [toInt_sub_of_fits ⟨by omega, by omega⟩, hone]
    omega
  · next h =>
    rw [Int32.lt_iff_toInt_lt] at h
    rw [toInt_sub_of_fits ⟨by omega, by omega⟩, hone]
    omega

/-- A loop on a counter that has been counted down below its bound. -/
theorem rounds_counterAfter (hb : -2 ^ 31 < b.toInt) (hw : -2 ^ 31 < w.toInt) :
    rounds b (counterAfter b w) = 0 := by
  rw [rounds, toInt_counterAfter hb hw]
  omega

/-- The other form of the loop decrements once more before its first round and once less after its
last. -/
theorem countdownPre_eq (x : α) (b w : Int32) :
    (countdownPre x b w).1 = (countdown x b (w - 1)).1 ∧
      (countdownPre x b w).2 - 1 = (countdown x b (w - 1)).2 := by
  rw [countdownPre, countdown]
  split
  · obtain ⟨htext, hcounter⟩ := countdownPre_eq x b (w - 1)
    exact ⟨congrArg (x :: ·) htext, hcounter⟩
  · exact ⟨rfl, rfl⟩
termination_by ((w - 1).toInt - b.toInt).toNat
decreasing_by
  rw [toInt_pred (a := w - 1) (by assumption)]
  rw [Int32.lt_iff_toInt_lt] at *
  omega

/-- The rounds of `n` loops `while (b < w--)`, one after the other on one counter. -/
def paddings (b : Int32) : ℕ → Int32 → ℕ
  | 0, _ => 0
  | n + 1, w => rounds b w + paddings b n (counterAfter b w)

end Loops

end OSLib
