import Mathlib.Data.List.Pairwise
import OSLib.Foundation.Ring
import OSLib.Foundation.Words

/-!
# `lib.h`: lists

A `struct List` is a node of a circular list, two words in memory: the address of the previous node
and the address of the next one.  What the links of every node are after an operation is said once
(`links_listAddToBefore`), also where the nodes it writes coincide, and `list_add_to_before` on a
ring follows from it (`ring_listAddToBefore`).

The offset of the two words within a node is that of the struct, the previous node first.  A node is
its address, a word, and its links are read from memory, where two nodes may overlap only if they
are the same: the heap as a whole is the matter of `Lists`, and here the links are functions of the
address.
-/

namespace OSLib
namespace Lib

/-- The words of a node: `prev`, and `next` behind it. -/
def node (l : BitVec 64) : Block := ⟨l, 16⟩

/-- `list_init(list)`. -/
def listInit (m : Mem) (list : BitVec 64) : Mem := (m.write list list).write (list + 8) list

/-- `list_add_to_before(entry, new)`. -/
def listAddToBefore (m : Mem) (entry new : BitVec 64) : Mem :=
  let m := m.write (new + 8) entry
  let m := m.write (m.read entry + 8) new
  let m := m.write new (m.read entry)
  m.write entry new

/-- `list_prev(entry)`; its test for the null pointer makes no difference. -/
def listPrev (m : Mem) (entry : BitVec 64) : BitVec 64 := m.read entry

/-- `list_next(entry)`, likewise. -/
def listNext (m : Mem) (entry : BitVec 64) : BitVec 64 := m.read (entry + 8)

variable {A B : Block} {m : Mem} {list entry new x a b v : BitVec 64} {l : List (BitVec 64)}

theorem node_has (l : BitVec 64) : (node l).Has l 8 ∧ (node l).Has (l + 8) 8 := by
  unfold node Block.Has
  constructor <;> bv_omega

/-- `list_init` writes its node only. -/
theorem within_listInit : Mem.Within (node list) m (listInit m list) :=
  (Mem.within_write (node_has list).1).trans (Mem.within_write (node_has list).2)

/-- **`list_add_to_before` writes three nodes**: the new one, the entry, and the one before it. -/
theorem read_listAddToBefore (hnew : A.Apart (node new)) (hentry : A.Apart (node entry))
    (hlast : A.Apart (node (m.read entry))) (hne : (node new).Apart (node entry))
    (hx : A.Has x 8) : (listAddToBefore m entry new).read x = m.read x := by
  have hprev : (m.write (new + 8) entry).read entry = m.read entry :=
    Mem.read_write_of_apart (hne.words (node_has new).2 (node_has entry).1)
  unfold listAddToBefore
  simp only [hprev]
  rw [(Mem.within_write (node_has entry).1).read hentry hx,
    (Mem.within_write (node_has new).1).read hnew hx,
    (Mem.within_write (node_has _).2).read hlast hx,
    (Mem.within_write (node_has new).2).read hnew hx]

/-! ## Stores to links -/

/-- The `prev` of a node and the `next` of the same or another node share no byte. -/
theorem prev_apart_next (h : a = b ∨ (node a).Apart (node b)) : Mem.Apart a (b + 8) := by
  rcases h with rfl | h
  · rw [Mem.Apart]
    constructor <;> bv_omega
  · exact h.words (node_has a).1 (node_has b).2

/-- One node, or two that share no byte. -/
def Separate (a b : BitVec 64) : Prop := a = b ∨ (node a).Apart (node b)

theorem Separate.refl (a : BitVec 64) : Separate a a := .inl rfl

theorem Separate.symm (h : Separate a b) : Separate b a := h.imp Eq.symm Block.Apart.symm

theorem node_apart_ne (h : (node a).Apart (node b)) : a ≠ b := by
  rintro rfl
  rw [Block.Apart, node] at h
  simp only at h
  bv_omega

theorem listNext_write_next (h : Separate a b) :
    listNext (m.write (a + 8) v) b = if b = a then v else listNext m b := by
  rw [listNext, listNext]
  rcases h with rfl | h
  · rw [if_pos rfl, Mem.read_write_self]
  · rw [if_neg (node_apart_ne h).symm,
      Mem.read_write_of_apart (h.words (node_has a).2 (node_has b).2)]

theorem listNext_write_prev (h : Separate a b) : listNext (m.write a v) b = listNext m b := by
  rw [listNext, listNext, Mem.read_write_of_apart (prev_apart_next h)]

theorem listPrev_write_prev (h : Separate a b) :
    listPrev (m.write a v) b = if b = a then v else listPrev m b := by
  rw [listPrev, listPrev]
  rcases h with rfl | h
  · rw [if_pos rfl, Mem.read_write_self]
  · rw [if_neg (node_apart_ne h).symm,
      Mem.read_write_of_apart (h.words (node_has a).1 (node_has b).1)]

theorem listPrev_write_next (h : Separate a b) : listPrev (m.write (a + 8) v) b = listPrev m b := by
  rw [listPrev, listPrev, Mem.read_write_of_apart (prev_apart_next h.symm).symm]

/-! ## The links afterwards -/

/-- **`list_init`.** -/
theorem links_listInit (h : Separate entry b) :
    listNext (listInit m entry) b = (if b = entry then entry else listNext m b) ∧
      listPrev (listInit m entry) b = if b = entry then entry else listPrev m b := by
  rw [listInit, listNext_write_next h, listNext_write_prev h, listPrev_write_next h,
    listPrev_write_prev h]
  exact ⟨rfl, rfl⟩

/-- The four stores of `list_add_to_before`, when the new node is apart from the two others. -/
theorem listAddToBefore_eq (hentry : (node new).Apart (node entry))
    (hlast : entry = m.read entry ∨ (node entry).Apart (node (m.read entry))) :
    listAddToBefore m entry new = (((m.write (new + 8) entry).write (m.read entry + 8) new).write
      new (m.read entry)).write entry new := by
  have h1 : (m.write (new + 8) entry).read entry = m.read entry :=
    Mem.read_write_of_apart (hentry.words (node_has new).2 (node_has entry).1)
  have h2 : ((m.write (new + 8) entry).write (m.read entry + 8) new).read entry = m.read entry :=
    (Mem.read_write_of_apart (prev_apart_next hlast).symm).trans h1
  rw [listAddToBefore]
  simp only [h1, h2]

/-- **`list_add_to_before`.** -/
theorem links_listAddToBefore (hentry : (node new).Apart (node entry))
    (hprev : Separate entry (listPrev m entry)) (hb : Separate new b) (hb' : Separate entry b)
    (hb'' : Separate (listPrev m entry) b) :
    listNext (listAddToBefore m entry new) b =
        (if b = listPrev m entry then new else if b = new then entry else listNext m b) ∧
      listPrev (listAddToBefore m entry new) b =
        if b = entry then new else if b = new then listPrev m entry else listPrev m b := by
  rw [listAddToBefore_eq hentry hprev]
  change listNext ((((m.write (new + 8) entry).write (listPrev m entry + 8) new).write
      new (listPrev m entry)).write entry new) b = _ ∧ listPrev ((((m.write (new + 8) entry).write
      (listPrev m entry + 8) new).write new (listPrev m entry)).write entry new) b = _
  rw [listNext_write_prev hb', listNext_write_prev hb, listNext_write_next hb'',
    listNext_write_next hb, listPrev_write_prev hb', listPrev_write_prev hb,
    listPrev_write_next hb'', listPrev_write_next hb]
  exact ⟨rfl, rfl⟩

/-! ## Rings -/

/-- `list_init` makes a ring of its node. -/
theorem ring_listInit (m : Mem) (list : BitVec 64) :
    Ring (listNext (listInit m list)) (listPrev (listInit m list)) list [] := by
  obtain ⟨hnext, hprev⟩ := links_listInit (m := m) (Separate.refl list)
  exact ring_nil.mpr ⟨by rw [hnext, if_pos rfl], by rw [hprev, if_pos rfl]⟩

/-- **`list_add_to_before` on a ring** links the new node in as the last one. -/
theorem ring_listAddToBefore (hr : Ring (listNext m) (listPrev m) entry l)
    (hnodes : (entry :: l).Pairwise fun a b => (node a).Apart (node b))
    (hnew : ∀ a ∈ entry :: l, (node new).Apart (node a)) :
    Ring (listNext (listAddToBefore m entry new)) (listPrev (listAddToBefore m entry new)) entry
      (l ++ [new]) := by
  have hhead : entry ∈ entry :: l := List.mem_cons_self
  have hlast : listPrev m entry ∈ entry :: l := hr.prev_head_mem
  have hsep {a b : BitVec 64} (ha : a ∈ entry :: l) (hb : b ∈ entry :: l) : Separate a b := by
    have : Std.Symm fun a b => (node a).Apart (node b) := ⟨fun _ _ h => h.symm⟩
    exact (eq_or_ne a b).imp_right (hnodes.forall ha hb)
  have hnodup : (entry :: l).Nodup := hnodes.imp fun h => node_apart_ne h
  have hne {a : BitVec 64} (ha : a ∈ entry :: l) : a ≠ new := (node_apart_ne (hnew a ha)).symm
  -- the links of the new node, and of the nodes of the ring
  obtain ⟨hnext, hprev⟩ := links_listAddToBefore (hnew entry hhead) (hsep hhead hlast)
    (Separate.refl new) (.inr (hnew entry hhead).symm) (.inr (hnew _ hlast).symm)
  have hlinks {a : BitVec 64} (ha : a ∈ entry :: l) :=
    links_listAddToBefore (hnew entry hhead) (hsep hhead hlast) (.inr (hnew a ha)) (hsep hhead ha)
      (hsep hlast ha)
  refine hr.concat hnodup ?_ ?_ ?_ ?_ (fun a ha hal => ?_) fun a ha => ?_
  · rw [(hlinks hlast).1, if_pos rfl]
  · rw [hprev, if_neg (hne hhead).symm, if_pos rfl]
  · rw [hnext, if_neg (hne hlast).symm, if_pos rfl]
  · rw [(hlinks hhead).2, if_pos rfl]
  · rw [(hlinks ha).1, if_neg hal, if_neg (hne ha)]
  · have hmem := List.mem_cons_of_mem entry ha
    have hentry : a ≠ entry := fun h => (List.nodup_cons.mp hnodup).1 (h ▸ ha)
    rw [(hlinks hmem).2, if_neg hentry, if_neg (hne hmem)]

end Lib
end OSLib
