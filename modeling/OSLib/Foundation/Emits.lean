import Mathlib.Init
import Mathlib.Tactic.Common

/-!
# Machines and what is observed of them

A machine is a partial function `step`, without a value where it stops, and `obs` says what is seen
of a state that it steps out of, if anything.  `Emits step obs a es b` says that the machine comes
from `a` to `b` and that what is seen on the way is the list `es`.  A part of a run in which nothing
is seen has the empty list, so loops that one does not care about leave no trace.  `Arrives` is the
same without observations.

Loops are run by induction on what is left of their input, and a part of a run is put behind another
with `trans` and `append`.  Nothing here asks for termination beforehand: `Emits` is an inductive
relation, so that a run that is shown is finite, and that it is the only one follows from `step`
being a function.
-/

namespace OSLib

variable {α ε : Type*}

/-- The machine comes from `a` to `b`, and `es` is what is observed. -/
inductive Emits (step : α → Option α) (obs : α → Option ε) : α → List ε → α → Prop where
  | refl (a : α) : Emits step obs a [] a
  | head {a b c : α} {es : List ε} (h : step a = some b) (hrest : Emits step obs b es c) :
    Emits step obs a ((obs a).toList ++ es) c

namespace Emits

variable {step step' : α → Option α} {obs : α → Option ε} {a b c : α} {es fs : List ε}

/-- One step that is not seen. -/
theorem silent (h : step a = some b) (hobs : obs a = none) : Emits step obs a [] b := by
  have hstep : Emits step obs a ((obs a).toList ++ []) b := .head h (.refl b)
  rwa [hobs] at hstep

/-- One step that is. -/
theorem seen {e : ε} (h : step a = some b) (hobs : obs a = some e) : Emits step obs a [e] b := by
  have hstep : Emits step obs a ((obs a).toList ++ []) b := .head h (.refl b)
  rwa [hobs] at hstep

/-- One run after another. -/
theorem append (h : Emits step obs a es b) (h' : Emits step obs b fs c) :
    Emits step obs a (es ++ fs) c := by
  induction h with
  | refl a => exact h'
  | head h _ ih =>
    rw [List.append_assoc]
    exact .head h (ih h')

/-- After a part in which nothing is seen. -/
theorem trans (h : Emits step obs a [] b) (h' : Emits step obs b es c) :
    Emits step obs a es c := h.append h'

/-- The same run of a machine that makes all of its steps. -/
theorem mono (hstep : ∀ a b, step a = some b → step' a = some b) (h : Emits step obs a es b) :
    Emits step' obs a es b := by
  induction h with
  | refl a => exact .refl a
  | head h _ ih => exact .head (hstep _ _ h) ih

/-- **A machine stops in one state**, and one list is observed until then. -/
theorem unique (h : Emits step obs a es b) (h' : Emits step obs a fs c) (hb : step b = none)
    (hc : step c = none) : es = fs ∧ b = c := by
  induction h generalizing fs with
  | refl a =>
    cases h' with
    | refl => exact ⟨rfl, rfl⟩
    | head hstep _ => rw [hb] at hstep; cases hstep
  | head hstep _ ih =>
    cases h' with
    | refl => rw [hc] at hstep; cases hstep
    | head hstep' hrest =>
      rw [hstep] at hstep'
      obtain rfl := Option.some.inj hstep'
      obtain ⟨rfl, rfl⟩ := ih hrest hb
      exact ⟨rfl, rfl⟩

end Emits

/-- The machine comes from `a` to `b`. -/
def Arrives (step : α → Option α) (a b : α) : Prop :=
  Emits step (fun _ => (none : Option Empty)) a [] b

variable {step : α → Option α} {obs : α → Option ε} {a b c : α} {es : List ε}

theorem Emits.arrives (h : Emits step obs a es b) : Arrives step a b := by
  induction h with
  | refl a => exact .refl a
  | head h _ ih => exact (Emits.silent h rfl).trans ih

/-- One step. -/
theorem Arrives.single (h : step a = some b) : Arrives step a b := Emits.silent h rfl

/-- One step, and the rest of a run. -/
theorem Arrives.head (h : step a = some b) (hrest : Arrives step b c) : Arrives step a c :=
  Emits.trans (Arrives.single h) hrest

/-- An invariant of the steps holds where the machine comes to. -/
theorem Emits.invariant {P : α → Prop} (hP : ∀ a b, P a → step a = some b → P b)
    (h : Emits step obs a es b) (ha : P a) : P b := by
  induction h with
  | refl a => exact ha
  | head hstep _ ih => exact ih (hP _ _ ha hstep)

/-- A machine that does the same on the states of another one. -/
theorem Emits.map {β : Type*} {step' : β → Option β} (f : α → β)
    (hf : ∀ a b, step a = some b → step' (f a) = some (f b)) (h : Emits step obs a es b) :
    Arrives step' (f a) (f b) := by
  induction h with
  | refl a => exact .refl (f a)
  | head hstep _ ih => exact Arrives.head (hf _ _ hstep) ih

/-- **A machine stops in one state.** -/
theorem Arrives.unique (h : Arrives step a b) (h' : Arrives step a c) (hb : step b = none)
    (hc : step c = none) : b = c := (Emits.unique h h' hb hc).2

end OSLib
