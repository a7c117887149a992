import Mathlib.Algebra.Order.Ring.Nat
import Mathlib.Data.BitVec
import Mathlib.Tactic.Ring

/-!
# Rounding to powers of two

`roundUp k n` is the least multiple of `2 ^ k` that is not below `n`.  A machine word rounds down by
masking its low bits, and rounds up by adding `2 ^ k - 1` first; both are the rounding of natural
numbers taken modulo the size of a word (`toNat_and_not_mask`, `toNat_alignUp`).  Whether the sum
wrapped around is seen on the result: it is below the number that was rounded
(`le_roundUp_mod_iff`).

Rounding twice, to a page and then to a struct, is done in the natural numbers, where `roundUp` is
monotone and nothing is lost; the word is compared with the result at the end.  That is why the
lemmas give the number of a word and not the word.
-/

namespace OSLib

/-- `n` rounded up to a multiple of `2 ^ k`. -/
def roundUp (k n : ℕ) : ℕ := (n + (2 ^ k - 1)) / 2 ^ k * 2 ^ k

variable {k w n m : ℕ}

theorem le_roundUp (k n : ℕ) : n ≤ roundUp k n := by
  have hpos : 0 < 2 ^ k := Nat.two_pow_pos k
  have hdiv := Nat.div_add_mod (n + (2 ^ k - 1)) (2 ^ k)
  have hmod := Nat.mod_lt (n + (2 ^ k - 1)) hpos
  rw [roundUp, Nat.mul_comm]
  omega

theorem roundUp_lt (k n : ℕ) : roundUp k n < n + 2 ^ k := by
  have hpos : 0 < 2 ^ k := Nat.two_pow_pos k
  have hle := Nat.div_mul_le_self (n + (2 ^ k - 1)) (2 ^ k)
  rw [roundUp]
  omega

/-- Whole words pass through the rounding. -/
theorem roundUp_add_mul (hk : k ≤ w) (n c : ℕ) :
    roundUp k (n + 2 ^ w * c) = roundUp k n + 2 ^ w * c := by
  have hpow : 2 ^ w * c = 2 ^ k * (2 ^ (w - k) * c) := by
    rw [← Nat.mul_assoc, ← Nat.pow_add, Nat.add_sub_cancel' hk]
  rw [roundUp, roundUp, hpow, Nat.add_right_comm,
    Nat.add_mul_div_left _ _ (Nat.two_pow_pos k), Nat.add_mul, Nat.mul_comm (2 ^ (w - k) * c)]

/-- Rounding up modulo the size of a word. -/
theorem roundUp_mod (hk : k ≤ w) (n : ℕ) :
    roundUp k (n % 2 ^ w) % 2 ^ w = roundUp k n % 2 ^ w := by
  have hsplit := Nat.mod_add_div n (2 ^ w)
  calc roundUp k (n % 2 ^ w) % 2 ^ w
      = (roundUp k (n % 2 ^ w) + 2 ^ w * (n / 2 ^ w)) % 2 ^ w := (Nat.add_mul_mod_self_left ..).symm
    _ = roundUp k n % 2 ^ w := by rw [← roundUp_add_mul hk, hsplit]

/-- **A wrapped rounding is too small.** -/
theorem le_roundUp_mod_iff (hk : k ≤ w) : n ≤ roundUp k n % 2 ^ w ↔ roundUp k n < 2 ^ w := by
  constructor
  · intro h
    by_contra hge
    have hlt := roundUp_lt k n
    have hpow : 2 ^ k ≤ 2 ^ w := Nat.pow_le_pow_right (by decide) hk
    have hsub : roundUp k n % 2 ^ w ≤ roundUp k n - 2 ^ w := by
      rw [Nat.mod_eq_sub_mod (Nat.le_of_not_lt hge)]
      exact Nat.mod_le _ _
    omega
  · intro h
    rw [Nat.mod_eq_of_lt h]
    exact le_roundUp k n

/-! ## Machine words -/

/-- Masking the low bits rounds down. -/
theorem toNat_and_not_mask (a : BitVec w) (k : ℕ) :
    (a &&& ~~~BitVec.ofNat w (2 ^ k - 1)).toNat = a.toNat / 2 ^ k * 2 ^ k := by
  have hshift : a &&& ~~~BitVec.ofNat w (2 ^ k - 1) = a >>> k <<< k := by
    refine BitVec.eq_of_getLsbD_eq fun i hi => ?_
    rw [BitVec.getLsbD_and, BitVec.getLsbD_not, BitVec.getLsbD_ofNat, Nat.testBit_two_pow_sub_one,
      BitVec.getLsbD_shiftLeft, BitVec.getLsbD_ushiftRight]
    by_cases h : i < k
    · simp [h]
    · simp [h, hi, show k + (i - k) = i by omega]
  have hle := Nat.div_mul_le_self a.toNat (2 ^ k)
  rw [hshift, BitVec.toNat_shiftLeft, BitVec.toNat_ushiftRight, Nat.shiftLeft_eq,
    Nat.shiftRight_eq_div_pow, Nat.mod_eq_of_lt (lt_of_le_of_lt hle a.isLt)]

/-- Rounding down modulo the size of a word. -/
theorem div_mul_mod (hk : k ≤ w) (n : ℕ) :
    n % 2 ^ w / 2 ^ k * 2 ^ k = n / 2 ^ k * 2 ^ k % 2 ^ w := by
  have hpow : 2 ^ w = 2 ^ k * 2 ^ (w - k) := by rw [← Nat.pow_add, Nat.add_sub_cancel' hk]
  rw [hpow, Nat.mod_mul_right_div_self, Nat.mul_comm, Nat.mul_comm (n / 2 ^ k),
    Nat.mul_mod_mul_left]

/-- **Rounding a word up.** -/
theorem toNat_alignUp (hk : k ≤ w) (a : BitVec w) {s : BitVec w} (hs : s.toNat = 2 ^ k - 1) :
    ((a + s) &&& ~~~BitVec.ofNat w (2 ^ k - 1)).toNat = roundUp k a.toNat % 2 ^ w := by
  rw [toNat_and_not_mask, BitVec.toNat_add, hs, div_mul_mod hk, roundUp]

end OSLib
