import Mathlib.Data.Finset.Card
import Mathlib.Logic.Function.Basic
import Mathlib.Order.Interval.Finset.Nat
import Mathlib.Tactic.Common

/-!
# Bitmaps packed in 64-bit words

A bitmap is a sequence of 64-bit words; bit `i` is bit `i % 64` of word `i / 64`.  This file has the
three one-bit updates (`set`, `clear`, `flip`) with the bit they change and the bits they leave, the
number of clear bits in an interval, and the *window*: the 64 bits that start at bit `k` of a word
and run on into the next one, as a pair of shifts computes them.

Shift counts are taken modulo the word size, as a 64-bit machine takes them.  So a window at `k = 0`
does not drop the second word: it shifts it by `64 % 64 = 0` and overlays it, and a window that is
clear at `k = 0` says something about both words (`window_eq_or`).

The array has no end.  Code that reads the word behind the last one gets whatever lies there, and
what it does then is a question about that word; where a bitmap ends is known to its user only.
`clearCount` is the cardinality of a finite set of bits, so that one bit more or less is an
insertion or an erasure and needs no induction.
-/

namespace OSLib

/-- A bitmap, word by word. -/
abbrev Bitmap := ℕ → BitVec 64

namespace Bitmap

variable (m : Bitmap) (i j : ℕ)

/-- Bit `i` of the bitmap. -/
def bit : Bool := (m (i / 64)).getLsbD (i % 64)

/-- Set bit `i`. -/
def set : Bitmap :=
  Function.update m (i / 64) (m (i / 64) ||| 1#64 <<< (i % 64))

/-- Clear bit `i`. -/
def clear : Bitmap :=
  Function.update m (i / 64) (m (i / 64) &&& ~~~(1#64 <<< (i % 64)))

/-- Flip bit `i`. -/
def flip : Bitmap :=
  Function.update m (i / 64) (m (i / 64) ^^^ 1#64 <<< (i % 64))

theorem getLsbD_one_shiftLeft {a : ℕ} (ha : a < 64) (b : ℕ) :
    (1#64 <<< a).getLsbD b = decide (b = a) := by
  rw [← BitVec.twoPow_eq, BitVec.getLsbD_twoPow]
  simp [ha, eq_comm]

@[simp] theorem bit_set : (m.set i).bit j = (decide (j = i) || m.bit j) := by
  have hi := Nat.mod_lt i (show 0 < 64 by decide)
  unfold bit set
  by_cases h : j / 64 = i / 64
  · rw [h, Function.update_self, BitVec.getLsbD_or, getLsbD_one_shiftLeft hi, Bool.or_comm,
      decide_eq_decide.mpr (show j % 64 = i % 64 ↔ j = i by omega)]
  · rw [Function.update_of_ne h, decide_eq_false (show ¬ j = i by rintro rfl; exact h rfl),
      Bool.false_or]

@[simp] theorem bit_clear : (m.clear i).bit j = (!decide (j = i) && m.bit j) := by
  have hi := Nat.mod_lt i (show 0 < 64 by decide)
  have hj := Nat.mod_lt j (show 0 < 64 by decide)
  unfold bit clear
  by_cases h : j / 64 = i / 64
  · rw [h, Function.update_self, BitVec.getLsbD_and, BitVec.getLsbD_not,
      getLsbD_one_shiftLeft hi, decide_eq_true hj, Bool.true_and, Bool.and_comm,
      decide_eq_decide.mpr (show j % 64 = i % 64 ↔ j = i by omega)]
  · rw [Function.update_of_ne h, decide_eq_false (show ¬ j = i by rintro rfl; exact h rfl)]
    simp

@[simp] theorem bit_flip : (m.flip i).bit j = (decide (j = i) ^^ m.bit j) := by
  have hi := Nat.mod_lt i (show 0 < 64 by decide)
  unfold bit flip
  by_cases h : j / 64 = i / 64
  · rw [h, Function.update_self, BitVec.getLsbD_xor, getLsbD_one_shiftLeft hi, Bool.xor_comm,
      decide_eq_decide.mpr (show j % 64 = i % 64 ↔ j = i by omega)]
  · rw [Function.update_of_ne h, decide_eq_false (show ¬ j = i by rintro rfl; exact h rfl),
      Bool.false_xor]

/-! ## Counting clear bits -/

variable (a b : ℕ)

/-- The clear bits among `a, …, b - 1`. -/
def clearBits : Finset ℕ := (Finset.Ico a b).filter fun i => m.bit i = false

/-- The number of clear bits among `a, …, b - 1`. -/
def clearCount : ℕ := (m.clearBits a b).card

variable {m i a b}

theorem mem_clearBits : i ∈ m.clearBits a b ↔ (a ≤ i ∧ i < b) ∧ m.bit i = false := by
  simp [clearBits]

/-- The count only reads the bits of its interval. -/
theorem clearCount_congr {m' : Bitmap} (h : ∀ i, a ≤ i → i < b → m'.bit i = m.bit i) :
    m'.clearCount a b = m.clearCount a b := by
  unfold clearCount clearBits
  congr 1
  refine Finset.filter_congr fun i hi => ?_
  rw [Finset.mem_Ico] at hi
  rw [h i hi.1 hi.2]

/-- All bits of the interval are clear. -/
theorem clearCount_eq_of_clear (h : ∀ i, a ≤ i → i < b → m.bit i = false) :
    m.clearCount a b = b - a := by
  unfold clearCount clearBits
  rw [Finset.filter_true_of_mem, Nat.card_Ico]
  intro i hi
  rw [Finset.mem_Ico] at hi
  exact h i hi.1 hi.2

/-- Setting a clear bit of the interval takes one from the count. -/
theorem clearCount_set_of_clear (h : a ≤ i ∧ i < b) (hi : m.bit i = false) :
    (m.set i).clearCount a b + 1 = m.clearCount a b := by
  have hmem : i ∈ m.clearBits a b := mem_clearBits.mpr ⟨h, hi⟩
  have herase : (m.set i).clearBits a b = (m.clearBits a b).erase i := by
    ext x
    rw [Finset.mem_erase, mem_clearBits, mem_clearBits, bit_set]
    by_cases hx : x = i <;> simp [hx]
  rw [clearCount, herase, Finset.card_erase_add_one hmem, clearCount]

/-- Setting a bit that is set already changes nothing. -/
theorem clearCount_set_of_set (hi : m.bit i = true) :
    (m.set i).clearCount a b = m.clearCount a b := by
  refine clearCount_congr fun x _ _ => ?_
  rw [bit_set]
  by_cases hx : x = i
  · simp [hx, hi]
  · simp [hx]

/-- Setting a bit outside the interval changes nothing. -/
theorem clearCount_set_of_not_mem (h : ¬ (a ≤ i ∧ i < b)) :
    (m.set i).clearCount a b = m.clearCount a b := by
  refine clearCount_congr fun x hax hxb => ?_
  rw [bit_set, decide_eq_false (by rintro rfl; exact h ⟨hax, hxb⟩), Bool.false_or]

/-! ## Windows -/

/-- The 64 bits from bit `k` of `w` on, the missing ones taken from the next word `w'`; the shift
counts are taken modulo 64. -/
def window (w w' : BitVec 64) (k : ℕ) : BitVec 64 :=
  w >>> (k % 64) ||| w' <<< ((64 - k) % 64)

/-- The low `n` bits, for `n` up to 64. -/
def lowMask (n : ℕ) : BitVec 64 :=
  if n = 64 then -1 else (1#64 <<< (n % 64)) - 1

theorem window_eq_or (w w' : BitVec 64) : window w w' 0 = w ||| w' := by
  simp [window]

theorem getLsbD_lowMask {n l : ℕ} (hn : n ≤ 64) :
    (lowMask n).getLsbD l = decide (l < n) := by
  unfold lowMask
  split
  · next h =>
    subst h
    rw [show (-1 : BitVec 64) = BitVec.allOnes 64 by decide, BitVec.getLsbD_allOnes]
  · next h =>
    have hlt : n < 64 := by omega
    have hpow : 2 ^ n < 2 ^ 64 := Nat.pow_lt_pow_right (by decide) hlt
    have hone : 1 ≤ 2 ^ n := Nat.one_le_two_pow
    have hval : ((1#64 <<< (n % 64)) - 1).toNat = 2 ^ n - 1 := by
      rw [Nat.mod_eq_of_lt hlt, ← BitVec.twoPow_eq, BitVec.toNat_sub,
        BitVec.toNat_twoPow_of_lt hlt, show (1 : BitVec 64).toNat = 1 from rfl]
      omega
    rw [← BitVec.testBit_toNat, hval, Nat.testBit_two_pow_sub_one]

/-- A masked word is zero exactly when its low `n` bits are clear. -/
theorem and_lowMask_eq_zero_iff {w : BitVec 64} {n : ℕ} (hn : n ≤ 64) :
    w &&& lowMask n = 0 ↔ ∀ l < n, w.getLsbD l = false := by
  constructor
  · intro h l hl
    have hbit : (w &&& lowMask n).getLsbD l = (0 : BitVec 64).getLsbD l := by rw [h]
    rw [BitVec.getLsbD_and, getLsbD_lowMask hn, decide_eq_true hl] at hbit
    simpa using hbit
  · intro h
    refine BitVec.eq_of_getLsbD_eq fun l hl => ?_
    rw [BitVec.getLsbD_and, getLsbD_lowMask hn]
    by_cases hln : l < n
    · simp [h l hln]
    · simp [hln]

/-- The bits of a window, inside the first word and past its end. -/
theorem getLsbD_window {w w' : BitVec 64} {k l : ℕ} (hk : k < 64) (hl : l < 64) :
    (window w w' k).getLsbD l =
      (w.getLsbD (k + l) || (decide ((64 - k) % 64 ≤ l) && w'.getLsbD (l - (64 - k) % 64))) := by
  unfold window
  rw [Nat.mod_eq_of_lt hk, BitVec.getLsbD_or, BitVec.getLsbD_ushiftRight, BitVec.getLsbD_shiftLeft]
  by_cases h : (64 - k) % 64 ≤ l
  · simp [h, hl, Nat.not_lt.mpr h]
  · simp [h, Nat.lt_of_not_le h]

/-- **A clear window is a clear run.**  When the masked window at bit `k` of word `v` is zero, the
`n` bits from `64 * v + k` on are clear. -/
theorem bit_eq_false_of_window {m : Bitmap} {v k n : ℕ} (hk : k < 64) (hn : n ≤ 64)
    (h : window (m v) (m (v + 1)) k &&& lowMask n = 0) {l : ℕ} (hl : l < n) :
    m.bit (64 * v + k + l) = false := by
  have hw := (and_lowMask_eq_zero_iff hn).mp h l hl
  rw [getLsbD_window hk (by omega)] at hw
  simp only [Bool.or_eq_false_iff] at hw
  unfold bit
  by_cases hin : k + l < 64
  · rw [show (64 * v + k + l) / 64 = v by omega, show (64 * v + k + l) % 64 = k + l by omega]
    exact hw.1
  · have hk0 : (64 - k) % 64 = 64 - k := Nat.mod_eq_of_lt (by omega)
    rw [hk0] at hw
    rw [show (64 * v + k + l) / 64 = v + 1 by omega,
      show (64 * v + k + l) % 64 = l - (64 - k) by omega]
    simpa [show 64 - k ≤ l by omega] using hw.2

/-- Past bit 0 the window shows nothing but the run: a clear run gives a clear window. -/
theorem window_eq_zero_of_bit {m : Bitmap} {v k n : ℕ} (hk0 : 0 < k) (hk : k < 64) (hn : n ≤ 64)
    (h : ∀ l < n, m.bit (64 * v + k + l) = false) :
    window (m v) (m (v + 1)) k &&& lowMask n = 0 := by
  refine (and_lowMask_eq_zero_iff hn).mpr fun l hl => ?_
  have hb := h l hl
  unfold bit at hb
  rw [getLsbD_window hk (by omega), Nat.mod_eq_of_lt (show 64 - k < 64 by omega)]
  by_cases hin : k + l < 64
  · rw [show (64 * v + k + l) / 64 = v by omega,
      show (64 * v + k + l) % 64 = k + l by omega] at hb
    simp [hb, show ¬ 64 - k ≤ l by omega]
  · rw [show (64 * v + k + l) / 64 = v + 1 by omega,
      show (64 * v + k + l) % 64 = l - (64 - k) by omega] at hb
    rw [hb, BitVec.getLsbD_of_ge _ _ (show 64 ≤ k + l by omega)]
    simp

/-- **When a window is clear.**  The run from its bit is, and at bit 0 the start of the next word,
which lies over the first one there, is clear as well. -/
theorem window_eq_zero_iff {m : Bitmap} {v k n : ℕ} (hk : k < 64) (hn : n ≤ 64) :
    window (m v) (m (v + 1)) k &&& lowMask n = 0 ↔
      (∀ l < n, m.bit (64 * v + k + l) = false) ∧
        (k = 0 → ∀ l < n, m.bit (64 * (v + 1) + l) = false) := by
  have hword (v : ℕ) : m v &&& lowMask n = 0 ↔ ∀ l < n, m.bit (64 * v + l) = false := by
    refine (and_lowMask_eq_zero_iff hn).trans (forall₂_congr fun l hl => ?_)
    rw [bit, show (64 * v + l) / 64 = v by omega, show (64 * v + l) % 64 = l by omega]
  rcases Nat.eq_zero_or_pos k with rfl | hpos
  · rw [window_eq_or, BitVec.and_or_distrib_right]
    have hor : m v &&& lowMask n ||| m (v + 1) &&& lowMask n = 0 ↔ _ := BitVec.or_eq_zero_iff
    rw [hor]
    exact and_congr (hword v) ((hword (v + 1)).trans ⟨fun h _ => h, fun h => h rfl⟩)
  · refine ⟨fun h => ⟨fun l hl => bit_eq_false_of_window hk hn h hl, fun h0 => by omega⟩,
      fun h => ?_⟩
    exact window_eq_zero_of_bit hpos hk hn h.1

/-- The bits a mask has, for any `n`: the shift count is taken modulo 64. -/
def maskBits (n : ℕ) : ℕ := if n = 64 then 64 else n % 64

theorem maskBits_le (n : ℕ) : maskBits n ≤ 64 := by
  unfold maskBits
  split <;> omega

theorem maskBits_of_le {n : ℕ} (hn : n ≤ 64) : maskBits n = n := by
  unfold maskBits
  split <;> omega

theorem lowMask_maskBits (n : ℕ) : lowMask (maskBits n) = lowMask n := by
  unfold lowMask maskBits
  by_cases hn : n = 64
  · rw [if_pos hn, if_pos hn, if_pos rfl]
  · rw [if_neg hn, if_neg hn, if_neg (by omega), Nat.mod_mod]

end Bitmap

end OSLib
