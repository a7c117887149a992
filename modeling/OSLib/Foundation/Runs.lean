import Mathlib.Init
import Mathlib.Tactic.Common

/-!
# Runs of a labelled step relation

A system is a relation `step s l t`: in state `s` the action `l` may lead to state `t`.  A run out
of `s` is the list of its actions, each with the state it led to, and `Always R s tr` says that `R`
holds of every step of the run.  One notion serves three purposes:

* `Always step s tr` says that `tr` *is* a run of the system;
* `Always (fun s l _ => G s l) s tr` says that every step is taken in a state that meets `G`;
* `Always (fun _ _ t => P t) s tr` says that every state the run reaches has `P`.

The rules below are the induction on runs, done once: `Always.invariant_both` carries an invariant
along a run, `Always.congr_of_invariant` compares two properties of its steps where an invariant
holds, and `always_iff_guard` says that where a guard is exact for one step it is exact for whole
runs.
-/

namespace OSLib

variable {S L : Type*}

/-- `R` holds of every step of the run `tr` out of `s`. -/
def Always (R : S → L → S → Prop) : S → List (L × S) → Prop
  | _, [] => True
  | s, x :: tr => R s x.1 x.2 ∧ Always R x.2 tr

namespace Always

variable {R R' : S → L → S → Prop}

@[simp] theorem nil (s : S) : Always R s [] := trivial

@[simp] theorem cons {s : S} {x : L × S} {tr : List (L × S)} :
    Always R s (x :: tr) ↔ R s x.1 x.2 ∧ Always R x.2 tr := Iff.rfl

instance decidable [∀ s l t, Decidable (R s l t)] :
    (s : S) → (tr : List (L × S)) → Decidable (Always R s tr)
  | _, [] => isTrue trivial
  | s, x :: tr =>
    have := decidable x.2 tr
    inferInstanceAs (Decidable (R s x.1 x.2 ∧ Always R x.2 tr))

/-- A weaker property holds along the same run. -/
theorem mono (h : ∀ s l t, R s l t → R' s l t) {s : S} {tr : List (L × S)}
    (hR : Always R s tr) : Always R' s tr := by
  induction tr generalizing s with
  | nil => trivial
  | cons x tr ih => exact ⟨h _ _ _ hR.1, ih hR.2⟩

/-- Two properties along a run hold together. -/
theorem and {s : S} {tr : List (L × S)} (h : Always R s tr) (h' : Always R' s tr) :
    Always (fun s l t => R s l t ∧ R' s l t) s tr := by
  induction tr generalizing s with
  | nil => trivial
  | cons x tr ih => exact ⟨⟨h.1, h'.1⟩, ih h.2 h'.2⟩

/-- **An invariant of the steps holds in every state of a run.**  It is stated for both ends of each
step. -/
theorem invariant_both {P : S → Prop} (hstep : ∀ s l t, P s → R s l t → P t)
    {s : S} {tr : List (L × S)} (h0 : P s) (hR : Always R s tr) :
    Always (fun s l t => P s ∧ R s l t ∧ P t) s tr := by
  induction tr generalizing s with
  | nil => trivial
  | cons x tr ih =>
    have hx : P x.2 := hstep _ _ _ h0 hR.1
    exact ⟨⟨h0, hR.1, hx⟩, ih hx hR.2⟩

/-- Two properties of steps that agree wherever an invariant holds agree along a run. -/
theorem congr_of_invariant {K : S → Prop} {A B : S → L → S → Prop}
    (hK : ∀ s l t, K s → R s l t → K t) (h : ∀ s l t, K s → R s l t → (A s l t ↔ B s l t))
    {s : S} {tr : List (L × S)} (h0 : K s) (hR : Always R s tr) :
    Always A s tr ↔ Always B s tr := by
  induction tr generalizing s with
  | nil => exact Iff.rfl
  | cons x tr ih => exact and_congr (h _ _ _ h0 hR.1) (ih (hK _ _ _ h0 hR.1) hR.2)

end Always

/-- The state a run ends in. -/
def final : S → List (L × S) → S
  | s, [] => s
  | _, x :: tr => final x.2 tr

theorem final_append {s : S} {tr tr' : List (L × S)} :
    final s (tr ++ tr') = final (final s tr) tr' := by
  induction tr generalizing s with
  | nil => rfl
  | cons x tr ih => exact ih

namespace Always

variable {R : S → L → S → Prop}

/-- One run after another. -/
theorem append {s : S} {tr tr' : List (L × S)} :
    Always R s (tr ++ tr') ↔ Always R s tr ∧ Always R (final s tr) tr' := by
  induction tr generalizing s with
  | nil => exact (and_iff_right trivial).symm
  | cons x tr ih =>
    rw [List.cons_append, cons, cons, final, ih, and_assoc]

/-- An invariant of the steps holds at the end of a run. -/
theorem invariant_final {P : S → Prop} (hstep : ∀ s l t, P s → R s l t → P t) {s : S}
    {tr : List (L × S)} (h0 : P s) (hR : Always R s tr) : P (final s tr) := by
  induction tr generalizing s with
  | nil => exact h0
  | cons x tr ih => exact ih (hstep _ _ _ h0 hR.1) hR.2

end Always

/-! ## Deterministic systems -/

/-- The run a list of actions makes. -/
def runOf (f : S → L → S) : S → List L → List (L × S)
  | _, [] => []
  | s, l :: ls => (l, f s l) :: runOf f (f s l) ls

/-- **An exact guard for one step is exact for runs.**  Let `K` be a side condition that every step
out of a state with `K` and `P` keeps.  When such a step keeps `P` exactly if it meets the guard, a
run keeps `P` in all its states exactly if all its steps meet the guard. -/
theorem always_iff_guard {R : S → L → S → Prop} {K P : S → Prop} {G : S → L → Prop}
    (hK : ∀ s l t, K s → P s → R s l t → K t)
    (hP : ∀ s l t, K s → P s → R s l t → (P t ↔ G s l)) {s : S} {tr : List (L × S)}
    (hK0 : K s) (hP0 : P s) (hR : Always R s tr) :
    Always (fun _ _ t => P t) s tr ↔ Always (fun s l _ => G s l) s tr := by
  induction tr generalizing s with
  | nil => exact Iff.rfl
  | cons x tr ih =>
    have hKx : K x.2 := hK _ _ _ hK0 hP0 hR.1
    have hPx : P x.2 ↔ G s x.1 := hP _ _ _ hK0 hP0 hR.1
    constructor
    · rintro ⟨hx, htr⟩
      exact ⟨hPx.mp hx, (ih hKx hx hR.2).mp htr⟩
    · rintro ⟨hx, htr⟩
      exact ⟨hPx.mpr hx, (ih hKx (hPx.mpr hx) hR.2).mpr htr⟩

end OSLib
