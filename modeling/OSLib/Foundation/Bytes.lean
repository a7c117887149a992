import Mathlib.Algebra.Ring.Nat
import Mathlib.Tactic.Common

/-!
# Byte memory

Memory is a total function from addresses to bytes.  A `Write` puts a block of bytes at an address,
and a list of them is applied in order.  `written ws a` is the byte the writes of a list leave at an
address, if they write it at all; memory afterwards is that byte, or the old one
(`applyAll_eq`).  So what a later writer does to an earlier one is a question about `written` alone.

`word` reads a little-endian word, and `word_eq_iff` says that this is the same as reading its
bytes.

Addresses are natural numbers: code with segments or with 32-bit registers computes an address first
and says itself how it wraps.  Programs that are put together of many stores are compared with the
list of their writes, and the last writer of an address is found by looking through the list, which
evaluates; the memory itself is a function and does not.
-/

namespace OSLib

/-- Memory by bytes. -/
abbrev Bytes := ℕ → BitVec 8

namespace Bytes

/-! ## Words -/

/-- The little-endian value of the `n` bytes from an address on. -/
def leValue (m : Bytes) : ℕ → ℕ → ℕ
  | _, 0 => 0
  | a, n + 1 => (m a).toNat + 256 * leValue m (a + 1) n

/-- The little-endian word of `w` bits at an address. -/
def word (m : Bytes) (a w : ℕ) : BitVec w := BitVec.ofNat w (leValue m a (w / 8))

/-- Byte `o` of a word. -/
def byteOf {w : ℕ} (v : BitVec w) (o : ℕ) : BitVec 8 := BitVec.ofNat 8 (v.toNat / 256 ^ o)

/-- The number of a word and the word behind it. -/
theorem toNat_append_eq {v w : ℕ} (x : BitVec w) (y : BitVec v) :
    (x ++ y).toNat = x.toNat * 2 ^ v + y.toNat := by
  rw [BitVec.toNat_append, ← Nat.shiftLeft_add_eq_or_of_lt y.isLt, Nat.shiftLeft_eq]

theorem leValue_lt (m : Bytes) (a n : ℕ) : leValue m a n < 256 ^ n := by
  induction n generalizing a with
  | zero => exact Nat.one_pos
  | succ n ih =>
    have hb := (m a).isLt
    have hn := ih (a + 1)
    rw [leValue, Nat.pow_succ]
    omega

/-- A value depends on its own bytes only. -/
theorem leValue_congr {m m' : Bytes} {a a' n : ℕ} (h : ∀ o < n, m (a + o) = m' (a' + o)) :
    leValue m a n = leValue m' a' n := by
  induction n generalizing a a' with
  | zero => rfl
  | succ n ih =>
    have hfirst := h 0 (Nat.succ_pos n)
    rw [Nat.add_zero, Nat.add_zero] at hfirst
    rw [leValue, leValue, hfirst, ih fun o ho => ?_]
    have hnext := h (o + 1) (by omega)
    rwa [show a + (o + 1) = a + 1 + o by omega, show a' + (o + 1) = a' + 1 + o by omega] at hnext

/-- A value is the value of bytes exactly when they are its digits. -/
theorem leValue_eq_iff {m : Bytes} {a n v : ℕ} (hv : v < 256 ^ n) :
    leValue m a n = v ↔ ∀ o < n, (m (a + o)).toNat = v / 256 ^ o % 256 := by
  induction n generalizing a v with
  | zero =>
    rw [leValue]
    exact iff_of_true (by omega) fun o ho => absurd ho (Nat.not_lt_zero o)
  | succ n ih =>
    have hb := (m a).isLt
    rw [Nat.pow_succ] at hv
    have hrest := ih (a := a + 1) (v := v / 256) (by omega)
    constructor
    · intro h o ho
      rw [leValue] at h
      cases o with
      | zero =>
        rw [Nat.add_zero, Nat.pow_zero, Nat.div_one]
        omega
      | succ o =>
        have hdigit := hrest.mp (by omega) o (by omega)
        rw [show a + (o + 1) = a + 1 + o by omega, hdigit, Nat.pow_succ', Nat.div_div_eq_div_mul]
    · intro h
      have hfirst := h 0 (by omega)
      rw [Nat.add_zero, Nat.pow_zero, Nat.div_one] at hfirst
      have htail := hrest.mpr fun o ho => by
        have hdigit := h (o + 1) (by omega)
        rwa [show a + (o + 1) = a + 1 + o by omega, Nat.pow_succ', ← Nat.div_div_eq_div_mul]
          at hdigit
      rw [leValue]
      omega

/-- **A word is its bytes.** -/
theorem word_eq_iff {m : Bytes} {a n : ℕ} {v : BitVec (8 * n)} :
    m.word a (8 * n) = v ↔ ∀ o < n, m (a + o) = byteOf v o := by
  have hpow : 256 ^ n = 2 ^ (8 * n) := by rw [Nat.pow_mul]
  have hv : v.toNat < 256 ^ n := hpow ▸ v.isLt
  have hdiv : 8 * n / 8 = n := Nat.mul_div_cancel_left n (by decide)
  have hword : m.word a (8 * n) = v ↔ leValue m a n = v.toNat := by
    rw [word, hdiv, ← BitVec.toNat_inj, BitVec.toNat_ofNat,
      Nat.mod_eq_of_lt (hpow ▸ leValue_lt m a n)]
  rw [hword, leValue_eq_iff hv]
  refine forall_congr' fun o => imp_congr_right fun _ => ?_
  rw [← BitVec.toNat_inj, byteOf, BitVec.toNat_ofNat]

/-! ## Writes -/

/-- A block of bytes to be put at an address. -/
structure Write where
  addr : ℕ
  size : ℕ
  data : Bytes

namespace Write

variable (w : Write) (a : ℕ)

/-- The write covers the address. -/
def Covers : Prop := w.addr ≤ a ∧ a < w.addr + w.size

instance : Decidable (w.Covers a) := by unfold Covers; infer_instance

end Write

/-- Memory after one write. -/
def apply (m : Bytes) (w : Write) : Bytes := fun a =>
  if w.Covers a then w.data (a - w.addr) else m a

/-- Memory after the writes of a list, in order. -/
def applyAll (m : Bytes) (ws : List Write) : Bytes := ws.foldl apply m

/-- The byte the writes of a list leave at an address: that of the last one that covers it. -/
def written : List Write → ℕ → Option (BitVec 8)
  | [], _ => none
  | w :: ws, a => (written ws a).or (if w.Covers a then some (w.data (a - w.addr)) else none)

variable {m : Bytes} {w : Write} {ws : List Write} {a : ℕ}

/-- Inside a write memory is its data, and outside it is as before. -/
theorem apply_of_covers (h : w.Covers a) : apply m w a = w.data (a - w.addr) := if_pos h

theorem apply_of_not_covers (h : ¬ w.Covers a) : apply m w a = m a := if_neg h

theorem applyAll_cons : applyAll m (w :: ws) = applyAll (apply m w) ws := rfl

/-- **Memory after a list of writes.** -/
theorem applyAll_eq : applyAll m ws a = (written ws a).getD (m a) := by
  induction ws generalizing m with
  | nil => rfl
  | cons w ws ih =>
    rw [applyAll_cons, ih, written, apply]
    cases written ws a with
    | some v => rfl
    | none => split <;> rfl

/-- Writes that do not cover an address leave nothing there. -/
theorem written_eq_none (h : ∀ w ∈ ws, ¬ w.Covers a) : written ws a = none := by
  induction ws with
  | nil => rfl
  | cons w ws ih =>
    rw [written, ih fun w' hw' => h w' (List.mem_cons_of_mem _ hw'),
      if_neg (h w List.mem_cons_self)]
    rfl

end Bytes
end OSLib
