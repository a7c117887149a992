import Mathlib.Algebra.Ring.Nat
import Mathlib.Data.BitVec
import Mathlib.Tactic.Common

/-!
# Parts of 64-bit registers

A move of 16 bits keeps the rest of the register it goes to, an operation on 32 bits clears the
upper half.  Every operation here is described by what it does to the register as a number, so that
the fields of a word that is put together by shifts and additions can be read off by division.

The rules are those of 64-bit mode.  As numbers, because a word put together by a program of shifts,
additions and moves of parts is compared with a format that says which bits mean what, and neither
of the two is simpler to describe by bits of the other.
-/

namespace OSLib
namespace SubRegisters

/-- `movw %src, %dst`. -/
def movw (src dst : BitVec 64) : BitVec 64 := dst.extractLsb' 16 48 ++ src.extractLsb' 0 16

/-- `movl %src, %dst`. -/
def movl (src : BitVec 64) : BitVec 64 := (src.setWidth 32).setWidth 64

/-- `shrl $n, %dst`. -/
def shrl (n : ℕ) (dst : BitVec 64) : BitVec 64 := (dst.setWidth 32 >>> n).setWidth 64

/-- `andl $v, %dst`. -/
def andl (v : BitVec 32) (dst : BitVec 64) : BitVec 64 := (dst.setWidth 32 &&& v).setWidth 64

variable {src dst r : BitVec 64} {n : ℕ}

/-- One field above another. -/
theorem toNat_append {v w : ℕ} (x : BitVec v) (y : BitVec w) :
    (x ++ y).toNat = x.toNat * 2 ^ w + y.toNat := by
  rw [BitVec.toNat_append, ← Nat.shiftLeft_add_eq_or_of_lt y.isLt, Nat.shiftLeft_eq]

/-- A field of a word. -/
theorem toNat_extractLsb (s : ℕ) (l : ℕ) (r : BitVec 64) :
    (r.extractLsb' s l).toNat = r.toNat / 2 ^ s % 2 ^ l := by
  rw [BitVec.extractLsb'_toNat, Nat.shiftRight_eq_div_pow]

theorem toNat_movw (src dst : BitVec 64) :
    (movw src dst).toNat = dst.toNat / 2 ^ 16 * 2 ^ 16 + src.toNat % 2 ^ 16 := by
  have hdst := dst.isLt
  rw [movw, toNat_append, toNat_extractLsb, toNat_extractLsb]
  omega

theorem toNat_movl (src : BitVec 64) : (movl src).toNat = src.toNat % 2 ^ 32 := by
  rw [movl, BitVec.toNat_setWidth, BitVec.toNat_setWidth]
  omega

theorem toNat_shrl (n : ℕ) (dst : BitVec 64) :
    (shrl n dst).toNat = dst.toNat % 2 ^ 32 / 2 ^ n := by
  have hle := Nat.div_le_self (dst.toNat % 2 ^ 32) (2 ^ n)
  have hmod := Nat.mod_lt dst.toNat (Nat.two_pow_pos 32)
  rw [shrl, BitVec.toNat_setWidth, BitVec.toNat_ushiftRight, BitVec.toNat_setWidth,
    Nat.shiftRight_eq_div_pow]
  exact Nat.mod_eq_of_lt (by omega)

/-- A mask of the low `n` bits. -/
theorem toNat_andl_mask (hn : n ≤ 32) (dst : BitVec 64) :
    (andl (BitVec.ofNat 32 (2 ^ n - 1)) dst).toNat = dst.toNat % 2 ^ n := by
  have hpow := Nat.pow_le_pow_right (by decide : 0 < 2) hn
  have hpos := Nat.two_pow_pos n
  have hmod := Nat.mod_lt dst.toNat hpos
  rw [andl, BitVec.toNat_setWidth, BitVec.toNat_and, BitVec.toNat_setWidth, BitVec.toNat_ofNat,
    Nat.mod_eq_of_lt (by omega : 2 ^ n - 1 < 2 ^ 32), Nat.and_two_pow_sub_one_eq_mod,
    Nat.mod_mod_of_dvd _ (Nat.pow_dvd_pow 2 hn)]
  exact Nat.mod_eq_of_lt (by omega)

/-! ## Fields -/

/-- A field added above a word that ends below it. -/
theorem toNat_add_field {x y : BitVec 64} {k : ℕ} (hx : x.toNat < 2 ^ k)
    (hy : (y.toNat + 1) * 2 ^ k ≤ 2 ^ 64) :
    (x + y <<< k).toNat = x.toNat + 2 ^ k * y.toNat := by
  rw [Nat.add_mul, Nat.one_mul] at hy
  rw [BitVec.toNat_add, BitVec.toNat_shiftLeft, Nat.shiftLeft_eq,
    Nat.mod_eq_of_lt (a := y.toNat * 2 ^ k) (by omega), Nat.mod_eq_of_lt (by omega), Nat.mul_comm]

end SubRegisters
end OSLib
