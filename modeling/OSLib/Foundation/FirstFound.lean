import Mathlib.Init
import Mathlib.Tactic.Common

/-!
# Searches for the first success

A search tests the elements of a list in order and stops at the first one it finds something at.
`Reaches f l a` says that it comes to `a`.  Where the list is sorted this is a matter of the order
alone (`reaches_iff_of_pairwise`), so that what a search finds can be said without the list
(`find?_eq_some_iff_reaches`).

A search through the numbers of an interval is taken apart where it goes on: nothing is found in the
first part (`NoneIn`), or the first success is in it (`FirstIn`).
-/

namespace OSLib

variable {A B : Type*} {f g : A → Option B} {l : List A} {a b : A}

/-- The search through the list comes to `a`: it finds nothing before. -/
def Reaches (f : A → Option B) (l : List A) (a : A) : Prop :=
  ∃ l₁ l₂, l = l₁ ++ a :: l₂ ∧ ∀ b ∈ l₁, f b = none

theorem Reaches.mem (h : Reaches f l a) : a ∈ l := by
  obtain ⟨l₁, l₂, rfl, -⟩ := h
  exact List.mem_append_right _ List.mem_cons_self

/-- In a list that is sorted by a relation, the search comes to an element exactly when it finds
nothing at the elements related to it. -/
theorem reaches_iff_of_pairwise {R : A → A → Prop} (hl : l.Pairwise R)
    (hasymm : ∀ a b, R a b → ¬ R b a) :
    Reaches f l a ↔ a ∈ l ∧ ∀ b ∈ l, R b a → f b = none := by
  constructor
  · intro h
    refine ⟨h.mem, fun b hb hba => ?_⟩
    obtain ⟨l₁, l₂, rfl, hnone⟩ := h
    have hafter := (List.pairwise_cons.mp (List.pairwise_append.mp hl).2.1).1
    rcases List.mem_append.mp hb with hb | hb
    · exact hnone b hb
    · rcases List.mem_cons.mp hb with rfl | hb
      · exact absurd hba (hasymm _ _ hba)
      · exact absurd hba (hasymm _ _ (hafter b hb))
  · rintro ⟨ha, hnone⟩
    obtain ⟨l₁, l₂, rfl⟩ := List.append_of_mem ha
    have hbefore := (List.pairwise_append.mp hl).2.2
    refine ⟨l₁, l₂, rfl, fun b hb => ?_⟩
    exact hnone b (List.mem_append_left _ hb) (hbefore b hb a List.mem_cons_self)

/-- The element found is one that passes and that the search comes to. -/
theorem find?_eq_some_iff_reaches {p : A → Bool} :
    l.find? p = some a ↔ p a = true ∧ Reaches (Option.guard p) l a := by
  rw [List.find?_eq_some_iff_append]
  refine and_congr_right fun _ => exists_congr fun l₁ => exists_congr fun l₂ =>
    and_congr_right fun _ => forall_congr' fun b => imp_congr_right fun _ => ?_
  rw [Bool.not_eq_true', Option.guard_eq_none_iff]

/-! ## Searches through an interval -/

/-- No number from `a` on and below `b` passes. -/
def NoneIn (P : ℕ → Prop) (a b : ℕ) : Prop := ∀ i, a ≤ i → i < b → ¬ P i

/-- The first number that passes, from `a` on and below `b`. -/
structure FirstIn (P : ℕ → Prop) (a b i : ℕ) : Prop where
  ge : a ≤ i
  lt : i < b
  pass : P i
  first : NoneIn P a i

section Interval

variable {P : ℕ → Prop} {i j k n : ℕ}

theorem noneIn_self (P : ℕ → Prop) (k : ℕ) : NoneIn P k k :=
  fun _ hge hlt => absurd hge (Nat.not_le_of_lt hlt)

theorem noneIn_singleton (h : ¬ P k) : NoneIn P k (k + 1) := by
  intro i hge hlt
  rwa [Nat.le_antisymm (Nat.le_of_lt_succ hlt) hge]

theorem NoneIn.append (h : NoneIn P j k) (h' : NoneIn P k n) : NoneIn P j n := by
  intro i hge hlt
  rcases Nat.lt_or_ge i k with hik | hik
  · exact h i hge hik
  · exact h' i hik hlt

/-- The first one behind a part where there is none. -/
theorem NoneIn.firstIn (h : NoneIn P j k) (hjk : j ≤ k) (h' : FirstIn P k n i) :
    FirstIn P j n i :=
  ⟨Nat.le_trans hjk h'.ge, h'.lt, h'.pass, h.append h'.first⟩

theorem FirstIn.mono (h : FirstIn P j k i) (hkn : k ≤ n) : FirstIn P j n i :=
  ⟨h.ge, Nat.lt_of_lt_of_le h.lt hkn, h.pass, h.first⟩

/-- There is one first number. -/
theorem FirstIn.unique (h : FirstIn P j k i) (h' : FirstIn P j k n) : i = n := by
  refine Nat.le_antisymm (Nat.le_of_not_lt fun hlt => ?_) (Nat.le_of_not_lt fun hlt => ?_)
  · exact h.first n h'.ge hlt h'.pass
  · exact h'.first i h.ge hlt h.pass

end Interval

end OSLib
