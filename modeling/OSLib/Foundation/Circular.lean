import OSLib.Foundation.Ring

/-!
# Circular lists

A ring without a distinguished head: `Circular next prev c` says that the nodes of the list `c`
follow one another and the last leads back to the first.  It does not depend on where the list
begins (`circular_append_comm`), so an edit at a node is an edit at the head of a ring.  A node is
linked in behind or before another one by four links and taken out by two, and everything else is
kept.

`insertBehind` and `insertBefore` are the edits of the abstract sequence.

The representation is of the list and not of a set of nodes, so an edit in memory is matched by an
edit of the list, and what is read off a ring afterwards is the edited list.  Short lists are no
special case: in a list of one node the neighbours of the node are the node itself, and the lemmas
about four links cover that, since they ask what the links are afterwards and not in which order
they were stored.
-/

namespace OSLib

variable {α : Type*} {next prev next' prev' : α → α} {a e h n : α} {c l x y : List α}

/-- The nodes of the list follow one another, and the last leads back to the first. -/
def Circular (next prev : α → α) : List α → Prop
  | [] => True
  | h :: l => Ring next prev h l

theorem circular_cons : Circular next prev (h :: l) ↔ Ring next prev h l := Iff.rfl

/-- **Where a circular list begins does not matter.** -/
theorem circular_append_comm : Circular next prev (x ++ y) ↔ Circular next prev (y ++ x) := by
  cases x with
  | nil => rw [List.nil_append, List.append_nil]
  | cons a x =>
    cases y with
    | nil => rw [List.nil_append, List.append_nil]
    | cons b y =>
      have hsplit {a b : α} {x y : List α} : Circular next prev (a :: x ++ b :: y) ↔
          Linked next prev (a :: (x ++ [b])) ∧ Linked next prev (b :: (y ++ [a])) := by
        rw [List.cons_append, circular_cons, Ring, List.append_assoc, List.cons_append,
          ← List.cons_append, linked_append, List.cons_append]
      rw [hsplit, hsplit, and_comm]

/-- A circular list from one of its nodes on. -/
theorem circular_iff_ring : Circular next prev (x ++ e :: y) ↔ Ring next prev e (y ++ x) :=
  circular_append_comm

/-! ## Neighbours -/

theorem Ring.next_head (hr : Ring next prev h l) : prev (next h) = h := by
  cases l with
  | nil => rw [(ring_nil.mp hr).1, (ring_nil.mp hr).2]
  | cons b l =>
    obtain ⟨h1, h2, -⟩ := hr
    rw [h1, h2]

theorem Ring.next_head_mem (hr : Ring next prev h l) : next h ∈ h :: l := by
  cases l with
  | nil =>
    rw [(ring_nil.mp hr).1]
    exact List.mem_cons_self
  | cons b l =>
    rw [hr.1]
    exact List.mem_cons_of_mem _ List.mem_cons_self

/-- **The links are inverse to each other** on the nodes of a circular list. -/
theorem Circular.inverse (hc : Circular next prev c) (ha : a ∈ c) :
    next (prev a) = a ∧ prev (next a) = a := by
  obtain ⟨x, y, rfl⟩ := List.append_of_mem ha
  have hr := circular_iff_ring.mp hc
  exact ⟨hr.reverse.next_head, hr.next_head⟩

theorem Circular.next_mem (hc : Circular next prev c) (ha : a ∈ c) : next a ∈ c := by
  obtain ⟨x, y, rfl⟩ := List.append_of_mem ha
  have hmem := (circular_iff_ring.mp hc).next_head_mem
  rw [← List.cons_append] at hmem
  exact List.mem_append.mpr (List.mem_append.mp hmem).symm

theorem Circular.prev_mem (hc : Circular next prev c) (ha : a ∈ c) : prev a ∈ c := by
  obtain ⟨x, y, rfl⟩ := List.append_of_mem ha
  have hmem := (circular_iff_ring.mp hc).prev_head_mem
  rw [← List.cons_append] at hmem
  exact List.mem_append.mpr (List.mem_append.mp hmem).symm

/-- **A node that follows itself** is alone. -/
theorem Circular.next_eq_self_iff (hc : Circular next prev c) (hnodup : c.Nodup) (ha : a ∈ c) :
    next a = a ↔ c = [a] := by
  constructor
  · intro hself
    obtain ⟨x, y, rfl⟩ := List.append_of_mem ha
    have hr := circular_iff_ring.mp hc
    have hrest : y ++ x = [] := by
      rcases hyx : y ++ x with _ | ⟨b, l⟩
      · rfl
      · rw [hyx] at hr
        have hb : b ∈ x ++ y := List.mem_append.mpr (List.mem_append.mp
          (hyx ▸ List.mem_cons_self : b ∈ y ++ x)).symm
        rw [List.nodup_middle, List.nodup_cons] at hnodup
        exact absurd (hself ▸ hr.1 ▸ hb : a ∈ x ++ y) hnodup.1
    rw [List.append_eq_nil_iff] at hrest
    rw [hrest.1, hrest.2, List.nil_append]
  · rintro rfl
    exact (ring_nil.mp (circular_cons.mp hc)).1

/-- A circular list depends on the links of its own nodes. -/
theorem Circular.congr (hc : Circular next prev c) (hnext : ∀ a ∈ c, next' a = next a)
    (hprev : ∀ a ∈ c, prev' a = prev a) : Circular next' prev' c := by
  cases c with
  | nil => trivial
  | cons h l => exact Ring.congr hc hnext hprev

/-! ## Linking in and taking out -/

/-- The nodup of a circular list, from one of its nodes on. -/
theorem nodup_rotate (hnodup : (x ++ e :: y).Nodup) : (e :: (y ++ x)).Nodup :=
  List.nodup_append_comm.mp hnodup

theorem mem_rotate : a ∈ e :: (y ++ x) ↔ a ∈ x ++ e :: y := by
  rw [← List.cons_append, List.mem_append, List.mem_append, or_comm]

/-- **Linking a node in behind another one.** -/
theorem Circular.link_behind (hc : Circular next prev (x ++ e :: y))
    (hnodup : (x ++ e :: y).Nodup) (h1 : next' e = n) (h2 : prev' n = e) (h3 : next' n = next e)
    (h4 : prev' (next e) = n) (hnext : ∀ a ∈ x ++ e :: y, a ≠ e → next' a = next a)
    (hprev : ∀ a ∈ x ++ e :: y, a ≠ next e → prev' a = prev a) :
    Circular next' prev' (x ++ e :: n :: y) := by
  have hr := (circular_iff_ring.mp hc).reverse
  have hnodup' : (e :: (y ++ x).reverse).Nodup :=
    ((List.reverse_perm _).cons e).nodup_iff.mpr (nodup_rotate hnodup)
  have hmem {a : α} (ha : a ∈ (y ++ x).reverse) : a ∈ x ++ e :: y ∧ a ≠ e :=
    ⟨mem_rotate.mp (List.mem_cons_of_mem e (List.mem_reverse.mp ha)),
      fun hae => (List.nodup_cons.mp hnodup').1 (hae ▸ ha)⟩
  have hring := hr.concat hnodup' h4 h3 h2 h1
    (fun a ha hne => hprev a (mem_rotate.mp ?_) hne) (fun a ha => hnext a (hmem ha).1 (hmem ha).2)
  · have hback := hring.reverse
    rw [List.reverse_append, List.reverse_reverse, List.reverse_singleton,
      List.singleton_append] at hback
    exact circular_iff_ring.mpr hback
  · rcases List.mem_cons.mp ha with rfl | hmem'
    · exact List.mem_cons_self
    · exact List.mem_cons_of_mem _ (List.mem_reverse.mp hmem')

/-- **Linking a node in before another one.** -/
theorem Circular.link_before (hc : Circular next prev (x ++ e :: y))
    (hnodup : (x ++ e :: y).Nodup) (h1 : next' (prev e) = n) (h2 : prev' n = prev e)
    (h3 : next' n = e) (h4 : prev' e = n)
    (hnext : ∀ a ∈ x ++ e :: y, a ≠ prev e → next' a = next a)
    (hprev : ∀ a ∈ x ++ e :: y, a ≠ e → prev' a = prev a) :
    Circular next' prev' (x ++ n :: e :: y) := by
  have hnodup' := nodup_rotate hnodup
  have hring := (circular_iff_ring.mp hc).concat hnodup' h1 h2 h3 h4
    (fun a ha hne => hnext a (mem_rotate.mp ha) hne) (fun a ha => hprev a
      (mem_rotate.mp (List.mem_cons_of_mem e ha))
      fun hae => (List.nodup_cons.mp hnodup').1 (hae ▸ ha))
  rw [List.append_assoc] at hring
  have hswap : x ++ n :: e :: y = (x ++ [n]) ++ e :: y := by
    rw [List.append_assoc, List.singleton_append]
  rw [hswap]
  exact circular_iff_ring.mpr hring

/-- Taking out the head of a ring. -/
theorem Ring.unlink (hr : Ring next prev h l) (hnodup : (h :: l).Nodup)
    (h1 : next' (prev h) = next h) (h2 : prev' (next h) = prev h)
    (hnext : ∀ a ∈ l, a ≠ prev h → next' a = next a)
    (hprev : ∀ a ∈ l, a ≠ next h → prev' a = prev a) : Circular next' prev' l := by
  cases l with
  | nil => trivial
  | cons a l =>
    have hfirst : next h = a := hr.1
    have hlast := hr.prev_head
    rw [hlast, hfirst] at h1 h2
    rw [hlast] at hnext
    rw [hfirst] at hprev
    rw [List.nodup_cons] at hnodup
    rcases List.eq_nil_or_concat' l with rfl | ⟨l, b, rfl⟩
    · exact ring_nil.mpr ⟨h1, h2⟩
    · have hends : (a :: (l ++ [b])).getLastD h = b := by
        rw [← List.cons_append, List.getLastD_concat]
      rw [hends] at h1 h2 hnext
      -- the links between the other nodes are kept
      have hold : Linked next prev (a :: l ++ [b]) := by
        have hl : Linked next prev (a :: (l ++ [b]) ++ [h]) := hr.2.2
        rw [← List.cons_append, List.append_assoc, List.singleton_append, linked_append] at hl
        exact hl.1
      rw [circular_cons, Ring, List.append_assoc, List.singleton_append, ← List.cons_append,
        linked_append]
      have hdup := hnodup.2
      rw [← List.cons_append, List.nodup_append] at hdup
      refine ⟨hold.congr (fun d hd => hnext d ?_ ?_) fun d hd => hprev d ?_ ?_, h1, h2,
        linked_singleton a⟩
      · rw [List.dropLast_concat] at hd
        rw [← List.cons_append]
        exact List.mem_append_left _ hd
      · rw [List.dropLast_concat] at hd
        exact hdup.2.2 d hd b List.mem_cons_self
      · exact List.mem_cons_of_mem _ hd
      · rintro rfl
        exact (List.nodup_cons.mp hnodup.2).1 hd

/-- **Taking a node out.** -/
theorem Circular.unlink (hc : Circular next prev (x ++ e :: y)) (hnodup : (x ++ e :: y).Nodup)
    (h1 : next' (prev e) = next e) (h2 : prev' (next e) = prev e)
    (hnext : ∀ a ∈ x ++ e :: y, a ≠ prev e → next' a = next a)
    (hprev : ∀ a ∈ x ++ e :: y, a ≠ next e → prev' a = prev a) :
    Circular next' prev' (x ++ y) :=
  circular_append_comm.mp ((circular_iff_ring.mp hc).unlink (nodup_rotate hnodup) h1 h2
    (fun a ha => hnext a (mem_rotate.mp (List.mem_cons_of_mem e ha)))
    fun a ha => hprev a (mem_rotate.mp (List.mem_cons_of_mem e ha)))

/-! ## Edits of the sequence -/

theorem not_mem_of_nodup (hnodup : (x ++ e :: y).Nodup) : e ∉ x ∧ e ∉ y := by
  rw [List.nodup_middle, List.nodup_cons, List.mem_append, not_or] at hnodup
  exact hnodup.1

section Edits

variable [DecidableEq α]

/-- The sequence with `n` behind `e`. -/
def insertBehind (e n : α) (c : List α) : List α := c.flatMap fun a => if a = e then [a, n] else [a]

/-- The sequence with `n` before `e`. -/
def insertBefore (e n : α) (c : List α) : List α := c.flatMap fun a => if a = e then [n, a] else [a]

theorem flatMap_ite_of_not_mem (he : e ∉ c) (f : α → List α) :
    (c.flatMap fun a => if a = e then f a else [a]) = c := by
  induction c with
  | nil => rfl
  | cons a c ih =>
    rw [List.mem_cons, not_or] at he
    rw [List.flatMap_cons, if_neg (Ne.symm he.1), ih he.2, List.singleton_append]

theorem insertBehind_of_not_mem (he : e ∉ c) : insertBehind e n c = c :=
  flatMap_ite_of_not_mem he _

theorem insertBefore_of_not_mem (he : e ∉ c) : insertBefore e n c = c :=
  flatMap_ite_of_not_mem he _

theorem insertBehind_eq (hnodup : (x ++ e :: y).Nodup) :
    insertBehind e n (x ++ e :: y) = x ++ e :: n :: y := by
  obtain ⟨hx, hy⟩ := not_mem_of_nodup hnodup
  rw [insertBehind, List.flatMap_append, List.flatMap_cons, if_pos rfl, flatMap_ite_of_not_mem hx,
    flatMap_ite_of_not_mem hy]
  rfl

theorem insertBefore_eq (hnodup : (x ++ e :: y).Nodup) :
    insertBefore e n (x ++ e :: y) = x ++ n :: e :: y := by
  obtain ⟨hx, hy⟩ := not_mem_of_nodup hnodup
  rw [insertBefore, List.flatMap_append, List.flatMap_cons, if_pos rfl, flatMap_ite_of_not_mem hx,
    flatMap_ite_of_not_mem hy]
  rfl

theorem filter_ne_eq (hnodup : (x ++ e :: y).Nodup) :
    (x ++ e :: y).filter (· ≠ e) = x ++ y := by
  obtain ⟨hx, hy⟩ := not_mem_of_nodup hnodup
  have hkeep {l : List α} (hl : e ∉ l) : l.filter (· ≠ e) = l :=
    List.filter_eq_self.mpr fun a ha => decide_eq_true fun hae => hl (hae ▸ ha)
  rw [List.filter_append, List.filter_cons_of_neg (by simp), hkeep hx, hkeep hy]

theorem insertBehind_perm (hnodup : c.Nodup) (he : e ∈ c) : (insertBehind e n c).Perm (n :: c) := by
  obtain ⟨x, y, rfl⟩ := List.append_of_mem he
  rw [insertBehind_eq hnodup, ← List.singleton_append, ← List.append_assoc]
  refine List.perm_middle.trans (List.Perm.cons n ?_)
  rw [List.append_assoc, List.singleton_append]

theorem insertBefore_perm (hnodup : c.Nodup) (he : e ∈ c) : (insertBefore e n c).Perm (n :: c) := by
  obtain ⟨x, y, rfl⟩ := List.append_of_mem he
  rw [insertBefore_eq hnodup]
  exact List.perm_middle

/-- Leaving the new node out gives the old sequence back. -/
theorem flatMap_ite_filter {f : α → List α} (hf : ∀ a ∈ c, (f a).filter (· ∈ c) = [a])
    (hl : l ⊆ c) :
    (l.flatMap fun a => if a = e then f a else [a]).filter (· ∈ c) = l := by
  induction l with
  | nil => rfl
  | cons a l ih =>
    obtain ⟨ha, hl⟩ := List.cons_subset.mp hl
    rw [List.flatMap_cons, List.filter_append, ih hl]
    split
    · rw [hf a ha, List.singleton_append]
    · have hkeep : [a].filter (· ∈ c) = [a] := by simp [ha]
      rw [hkeep, List.singleton_append]

theorem insertBehind_filter (hn : n ∉ c) : (insertBehind e n c).filter (· ∈ c) = c :=
  flatMap_ite_filter (fun a ha => by simp [ha, hn]) (List.Subset.refl c)

theorem insertBefore_filter (hn : n ∉ c) : (insertBefore e n c).filter (· ∈ c) = c :=
  flatMap_ite_filter (fun a ha => by simp [ha, hn]) (List.Subset.refl c)

end Edits

end OSLib
