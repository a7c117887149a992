import Mathlib.Data.List.Induction
import Mathlib.Data.List.Nodup
import Mathlib.Logic.Function.Iterate

/-!
# Rings of nodes

A doubly linked ring is two functions on nodes, `next` and `prev`.  `Linked next prev l` says that
the consecutive nodes of a list are linked both ways, and `Ring next prev h l` that the nodes of `l`
follow the head `h` and lead back to it.  An edit is local in this view: `Ring.concat` links a node
in before the head, with four links given and all others kept.

`Ring.iterate` reads a ring off: following `next` from the head visits the nodes in order.  A ring
read backwards is a ring (`Ring.reverse`), so following `prev` visits them in the reverse order.

The head is not an element of the list: it is what a kernel keeps the others at, and an empty ring
is a head that leads to itself.  For edits at any node see `Circular`.  Functions on nodes and not a
memory are what the lemmas are about, so that a user says once how its nodes lie in memory.
-/

namespace OSLib

variable {α : Type*} {next prev next' prev' : α → α} {h a b n : α} {l l' : List α}

/-- Consecutive nodes of the list are linked both ways. -/
def Linked (next prev : α → α) : List α → Prop
  | [] => True
  | [_] => True
  | a :: b :: l => next a = b ∧ prev b = a ∧ Linked next prev (b :: l)

/-- The nodes of the list follow the head and lead back to it. -/
def Ring (next prev : α → α) (h : α) (l : List α) : Prop := Linked next prev (h :: (l ++ [h]))

theorem linked_cons_cons :
    Linked next prev (a :: b :: l) ↔ next a = b ∧ prev b = a ∧ Linked next prev (b :: l) := Iff.rfl

theorem linked_singleton (a : α) : Linked next prev [a] := trivial

/-- Linked lists with a node in common. -/
theorem linked_append :
    Linked next prev (l ++ a :: l') ↔
      Linked next prev (l ++ [a]) ∧ Linked next prev (a :: l') := by
  induction l with
  | nil => exact (and_iff_right (linked_singleton a)).symm
  | cons b l ih =>
    cases l with
    | nil =>
      rw [List.singleton_append, List.singleton_append, linked_cons_cons, linked_cons_cons]
      exact ⟨fun ⟨h1, h2, h3⟩ => ⟨⟨h1, h2, linked_singleton a⟩, h3⟩,
        fun ⟨⟨h1, h2, _⟩, h3⟩ => ⟨h1, h2, h3⟩⟩
    | cons c l =>
      rw [List.cons_append, List.cons_append, List.cons_append, List.cons_append,
        linked_cons_cons, linked_cons_cons, ← List.cons_append, ih, List.cons_append]
      exact ⟨fun ⟨h1, h2, h3, h4⟩ => ⟨⟨h1, h2, h3⟩, h4⟩,
        fun ⟨⟨h1, h2, h3⟩, h4⟩ => ⟨h1, h2, h3, h4⟩⟩

/-- Links read `next` of all nodes but the last and `prev` of all nodes but the first. -/
theorem Linked.congr (hl : Linked next prev l) (hnext : ∀ a ∈ l.dropLast, next' a = next a)
    (hprev : ∀ a ∈ l.tail, prev' a = prev a) : Linked next' prev' l := by
  induction l with
  | nil => trivial
  | cons a l ih =>
    cases l with
    | nil => trivial
    | cons b l =>
      obtain ⟨h1, h2, h3⟩ := hl
      refine ⟨(hnext a ?_).trans h1, (hprev b ?_).trans h2, ih h3 (fun c hc => hnext c ?_)
        fun c hc => hprev c ?_⟩
      · rw [List.dropLast_cons_cons]
        exact List.mem_cons_self
      · exact List.mem_cons_self
      · rw [List.dropLast_cons_cons]
        exact List.mem_cons_of_mem _ hc
      · exact List.mem_cons_of_mem _ hc

/-- Links read backwards. -/
theorem Linked.reverse (hl : Linked next prev l) : Linked prev next l.reverse := by
  induction l with
  | nil => trivial
  | cons a l ih =>
    cases l with
    | nil => trivial
    | cons b l =>
      obtain ⟨h1, h2, h3⟩ := hl
      have hrest := ih h3
      rw [List.reverse_cons] at hrest
      rw [List.reverse_cons, List.reverse_cons, List.append_assoc, List.singleton_append,
        linked_append]
      exact ⟨hrest, h2, h1, linked_singleton a⟩

/-- **A ring read backwards.** -/
theorem Ring.reverse (hr : Ring next prev h l) : Ring prev next h l.reverse := by
  have hl := Linked.reverse hr
  rwa [List.reverse_cons, List.reverse_append, List.reverse_singleton, List.append_assoc] at hl

/-- The ring of the head alone. -/
theorem ring_nil : Ring next prev h [] ↔ next h = h ∧ prev h = h :=
  ⟨fun ⟨h1, h2, _⟩ => ⟨h1, h2⟩, fun ⟨h1, h2⟩ => ⟨h1, h2, linked_singleton h⟩⟩

/-- A ring depends on the links of its own nodes. -/
theorem Ring.congr (hr : Ring next prev h l) (hnext : ∀ a ∈ h :: l, next' a = next a)
    (hprev : ∀ a ∈ h :: l, prev' a = prev a) : Ring next' prev' h l := by
  refine Linked.congr hr (fun a ha => hnext a ?_) fun a ha => hprev a ?_
  · rwa [← List.cons_append, List.dropLast_concat] at ha
  · rw [List.tail_cons, List.mem_append, List.mem_singleton] at ha
    exact List.mem_cons.mpr ha.symm

/-- The head is behind the last node. -/
theorem Ring.prev_head (hr : Ring next prev h l) : prev h = l.getLastD h := by
  rcases List.eq_nil_or_concat' l with rfl | ⟨l, a, rfl⟩
  · exact (ring_nil.mp hr).2
  · rw [Ring, List.append_assoc, List.singleton_append, ← List.cons_append, linked_append] at hr
    rw [List.getLastD_concat]
    exact hr.2.2.1

theorem Ring.prev_head_mem (hr : Ring next prev h l) : prev h ∈ h :: l := by
  rw [hr.prev_head]
  rcases List.eq_nil_or_concat' l with rfl | ⟨l, a, rfl⟩
  · exact List.mem_cons_self
  · rw [List.getLastD_concat]
    exact List.mem_cons_of_mem _ (List.mem_append_right _ List.mem_cons_self)

/-- **Linking a node in before the head** takes four links; the others are kept. -/
theorem Ring.concat (hr : Ring next prev h l) (hnodup : (h :: l).Nodup)
    (h1 : next' (prev h) = n) (h2 : prev' n = prev h) (h3 : next' n = h) (h4 : prev' h = n)
    (hnext : ∀ a ∈ h :: l, a ≠ prev h → next' a = next a)
    (hprev : ∀ a ∈ l, prev' a = prev a) : Ring next' prev' h (l ++ [n]) := by
  have hlast := hr.prev_head
  rw [hlast] at h1 h2 hnext
  have hends : Linked next' prev' [n, h] := ⟨h3, h4, linked_singleton h⟩
  rcases List.eq_nil_or_concat' l with rfl | ⟨l, a, rfl⟩
  · exact ⟨h1, h2, hends⟩
  · rw [List.getLastD_concat] at h1 h2 hnext
    -- the links up to the last node are kept, and the two new ones follow
    rw [Ring, List.append_assoc, List.append_assoc, List.singleton_append, ← List.cons_append,
      linked_append]
    rw [Ring, List.append_assoc, List.singleton_append, ← List.cons_append, linked_append] at hr
    refine ⟨hr.1.congr (fun c hc => ?_) fun c hc => ?_, h1, h2, hends⟩
    · rw [List.dropLast_concat] at hc
      rw [← List.cons_append, List.nodup_append] at hnodup
      refine hnext c ?_ (hnodup.2.2 c hc a List.mem_cons_self)
      rw [← List.cons_append]
      exact List.mem_append_left _ hc
    · exact hprev c hc

/-- Following `next` along linked nodes. -/
theorem Linked.iterate (hl : Linked next prev (a :: (l ++ [b]))) :
    List.iterate next (next a) l.length = l ∧ next^[l.length + 1] a = b := by
  induction l generalizing a with
  | nil => exact ⟨rfl, hl.1⟩
  | cons c l ih =>
    obtain ⟨h1, -, h3⟩ := hl
    obtain ⟨hiter, hend⟩ := ih h3
    refine ⟨?_, ?_⟩
    · rw [List.length_cons, List.iterate, h1, hiter]
    · rw [List.length_cons, Function.iterate_succ_apply, h1]
      exact hend

/-- **Following a ring** from its head visits its nodes in order and comes back. -/
theorem Ring.iterate (hr : Ring next prev h l) :
    List.iterate next (next h) l.length = l ∧ next^[l.length + 1] h = h := Linked.iterate hr

end OSLib
