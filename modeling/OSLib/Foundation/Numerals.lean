import Mathlib.Data.Nat.Digits.Defs
import Mathlib.Data.BitVec
import Mathlib.Data.List.TakeWhile

/-!
# The number a text ends with

A reader of numerals that knows nothing of the code that writes them.  It passes over the blanks at
the end of a text, takes the digits before them, as far as they are digits of the base, and
evaluates them; a minus sign anywhere in the text makes the number negative.  What stands before the
digits does not matter as long as it is made of zeros and of characters that are no digits
(`lastNumber_eq`).

That it does not know the writer is what makes a statement about both say something: a writer and a
reader with the same mistake would agree.  So the reader has no widths, signs or prefixes to be told
of, and takes the text as it stands on a screen.
-/

namespace OSLib
namespace Numerals

/-- The value of a character as a digit: the ten figures and then the letters. -/
def charValue (c : BitVec 8) : Option ℕ :=
  if 0x30 ≤ c.toNat ∧ c.toNat ≤ 0x39 then some (c.toNat - 0x30)
  else if 0x41 ≤ c.toNat ∧ c.toNat ≤ 0x5a then some (c.toNat - 0x41 + 10)
  else if 0x61 ≤ c.toNat ∧ c.toNat ≤ 0x7a then some (c.toNat - 0x61 + 10)
  else none

/-- The character is a digit of the base. -/
def isDigitOf (base : ℕ) (c : BitVec 8) : Bool := (charValue c).any (· < base)

/-- The digits a text ends with, the last one first. -/
def lastDigits (base : ℕ) (text : List (BitVec 8)) : List (BitVec 8) :=
  (text.reverse.dropWhile (· == 0x20)).takeWhile (isDigitOf base)

/-- The value of digits, the last one first. -/
def numeralValue (base : ℕ) (ds : List (BitVec 8)) : ℕ :=
  Nat.ofDigits base (ds.map fun c => (charValue c).getD 0)

/-- The number a text ends with. -/
def lastNumber (base : ℕ) (text : List (BitVec 8)) : ℕ := numeralValue base (lastDigits base text)

/-- The number with its sign. -/
def lastInteger (base : ℕ) (text : List (BitVec 8)) : ℤ :=
  if 0x2d ∈ text then -(lastNumber base text : ℤ) else lastNumber base text

variable {base n : ℕ} {c : BitVec 8} {before ds : List (BitVec 8)}

theorem isDigitOf_of_value (h : charValue c = some n) (hn : n < base) :
    isDigitOf base c = true := by
  rw [isDigitOf, h, Option.any_some]
  exact decide_eq_true hn

theorem not_isDigitOf_of_none (h : charValue c = none) : ¬ isDigitOf base c = true := by
  rw [isDigitOf, h, Option.any_none]
  exact Bool.false_ne_true

/-- A digit is no blank. -/
theorem ne_blank (h : isDigitOf base c = true) : ¬ (c == 0x20) = true := by
  intro hblank
  have hnone : charValue 0x20 = none := by decide
  rw [eq_of_beq hblank] at h
  exact not_isDigitOf_of_none hnone h

/-- Zeros before a number. -/
theorem numeralValue_append_zeros {zeros : List (BitVec 8)} (h : ∀ c ∈ zeros, c = 0x30) :
    numeralValue base (ds ++ zeros) = numeralValue base ds := by
  have hzero : (charValue 0x30).getD 0 = 0 := by decide
  rw [List.eq_replicate_of_mem h, numeralValue, List.map_append, List.map_replicate, hzero,
    Nat.ofDigits_append_replicate_zero]
  rfl

/-- **Reading a number back.**  Before it there may be zeros and characters that are no digits, and
behind it blanks. -/
theorem lastNumber_eq (hne : ds ≠ []) (hds : ∀ c ∈ ds, isDigitOf base c = true)
    (hbefore : ∀ c ∈ before, c = 0x30 ∨ ¬ isDigitOf base c = true) (n : ℕ) :
    lastNumber base (before ++ ds.reverse ++ List.replicate n 0x20) = numeralValue base ds := by
  have hreverse : (before ++ ds.reverse ++ List.replicate n 0x20).reverse =
      List.replicate n 0x20 ++ (ds ++ before.reverse) := by
    rw [List.reverse_append, List.reverse_append, List.reverse_reverse, List.reverse_replicate]
  have hblanks : ∀ c ∈ List.replicate n (0x20 : BitVec 8), (c == 0x20) = true := by
    intro c hc
    rw [List.eq_of_mem_replicate hc]
    rfl
  obtain ⟨d, rest, rfl⟩ := List.exists_cons_of_ne_nil hne
  have hd := ne_blank (hds d List.mem_cons_self)
  have hdigits : lastDigits base (before ++ (d :: rest).reverse ++ List.replicate n 0x20) =
      (d :: rest) ++ before.reverse.takeWhile (isDigitOf base) := by
    rw [lastDigits, hreverse, List.dropWhile_append_of_pos hblanks, List.cons_append,
      List.dropWhile_cons_of_neg (p := (· == 0x20)) hd, ← List.cons_append,
      List.takeWhile_append_of_pos hds]
  rw [lastNumber, hdigits]
  refine numeralValue_append_zeros fun c hc => ?_
  have hmem : c ∈ before := List.mem_reverse.mp ((List.takeWhile_sublist _).subset hc)
  exact (hbefore c hmem).resolve_right fun hno => hno (List.mem_takeWhile_imp hc)

end Numerals
end OSLib
