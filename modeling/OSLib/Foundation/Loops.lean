import Mathlib.Init
import Mathlib.Tactic.Common

/-!
# Counting loops that may fail

`forRange a n f s` is the loop `for i in a..a + n` with the state `s`, whose body may fail.  Its
rule is the induction on the counter: an invariant indexed by the counter that the body establishes
for the next value holds at the end, and the loop does not fail.

The loop is a recursion on the number of turns and not on the counter, so it unfolds on either side
and an invariant can be indexed by what has been done.
-/

namespace OSLib

variable {S : Type*}

/-- The loop over `a, a + 1, …`, with `n` rounds. -/
def forRange (a n : ℕ) (f : ℕ → S → Option S) (s : S) : Option S :=
  (List.range' a n).foldlM (fun s i => f i s) s

/-- **The rule for counting loops.** -/
theorem forRange_invariant {I : ℕ → S → Prop} {a n : ℕ} {f : ℕ → S → Option S} {s : S} (h0 : I a s)
    (hstep : ∀ i s, a ≤ i → i < a + n → I i s → ∃ t, f i s = some t ∧ I (i + 1) t) :
    ∃ t, forRange a n f s = some t ∧ I (a + n) t := by
  induction n generalizing a s with
  | zero => exact ⟨s, rfl, h0⟩
  | succ n ih =>
    obtain ⟨t, ht, hI⟩ := hstep a s (Nat.le_refl a) (by omega) h0
    obtain ⟨u, hu, hI'⟩ := ih (a := a + 1) hI fun i s hi hlt => hstep i s (by omega) (by omega)
    refine ⟨u, ?_, by rwa [Nat.add_right_comm] at hI'⟩
    unfold forRange at hu ⊢
    rw [List.range'_succ, List.foldlM_cons, ht]
    exact hu

end OSLib
