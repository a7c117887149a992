import Mathlib.Logic.Function.Basic
import Mathlib.Tactic.Common

/-!
# Stores

`stores m ws` is the array `m` after the stores of the list `ws`, one after the other.  What the
array holds at an index depends on the stores there only: if all of them store one value it is that
value (`stores_of_mem`), and without any it is the old one (`stores_of_forall_ne`).

The order of the stores does not come into either lemma.  That is what is needed of a loop that
fills a table: each entry is stored once, or always with the same value.
-/

namespace OSLib

variable {A V : Type*} [DecidableEq A] {m : A → V} {ws : List (A × V)} {a : A} {v : V}

/-- The array after the stores of a list. -/
def stores (m : A → V) (ws : List (A × V)) : A → V :=
  ws.foldl (fun m w => Function.update m w.1 w.2) m

theorem stores_of_forall_ne (h : ∀ w ∈ ws, w.1 ≠ a) : stores m ws a = m a := by
  induction ws generalizing m with
  | nil => rfl
  | cons w ws ih =>
    obtain ⟨hw, hws⟩ := List.forall_mem_cons.mp h
    exact (ih hws).trans (Function.update_of_ne hw.symm _ _)

/-- Stores of one value, wherever the array is read. -/
theorem stores_of_forall_eq (h : ∀ w ∈ ws, w.1 = a → w.2 = v) :
    stores m ws a = v ∨ ∀ w ∈ ws, w.1 ≠ a := by
  by_cases hmem : ∀ w ∈ ws, w.1 ≠ a
  · exact .inr hmem
  refine .inl ?_
  induction ws generalizing m with
  | nil => exact absurd (fun w hw => nomatch hw) hmem
  | cons w ws ih =>
    obtain ⟨hw, hws⟩ := List.forall_mem_cons.mp h
    show stores (Function.update m w.1 w.2) ws a = v
    by_cases hrest : ∀ w ∈ ws, w.1 ≠ a
    · have hhead : w.1 = a := by
        by_contra hne
        exact hmem (List.forall_mem_cons.mpr ⟨hne, hrest⟩)
      rw [stores_of_forall_ne hrest, ← hhead, Function.update_self, hw hhead]
    · exact ih hws hrest

/-- **What has been stored is read.** -/
theorem stores_of_mem (hmem : (a, v) ∈ ws) (h : ∀ w ∈ ws, w.1 = a → w.2 = v) :
    stores m ws a = v :=
  (stores_of_forall_eq h).resolve_right fun hne => hne _ hmem rfl

end OSLib
