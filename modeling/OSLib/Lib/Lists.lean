import OSLib.Foundation.Circular
import OSLib.Foundation.Runs
import OSLib.Lib.List

/-!
# Families of lists

The heap as a family of circular lists.  Each of the four operations is a few stores to the links
of two or three nodes, which may coincide when a list is short; what the links of every node are
afterwards is said once for each of them.  The operations keep the representation of the family
whatever their order, and a node that was deleted may be used again, whatever its links hold.

What a list is in memory is `Represents`: the links of its nodes, and that the nodes of different
lists have no byte in common.  An operation on one list is an operation on the whole family, because
the frame is part of the statement: the other lists are represented as they were.  Nodes in no list
are free, and linking in a node asks only that it is free and shares no byte with a node in use.

A lemma about one operation starts from the links of every node afterwards (`links_listAddToBehind`,
`links_listDel`), in the form of an `if` over the three nodes that are written.  `LinkedIn` reads
those off for a node that is linked in between two neighbours, which is the same for both ways of
linking in; `edit` puts the new list in its place in the family and leaves the others.  The run of a
sequence of operations is then an induction with `Represents` as its invariant.
-/

namespace OSLib
namespace Lib

/-! ## The operations -/

/-- `list_add_to_behind(entry, new)`. -/
def listAddToBehind (m : Mem) (entry new : BitVec 64) : Mem :=
  let m := m.write (new + 8) (m.read (entry + 8))
  let m := m.write new entry
  let m := m.write (m.read (new + 8)) new
  m.write (entry + 8) new

/-- `list_del(entry)`. -/
def listDel (m : Mem) (entry : BitVec 64) : Mem :=
  let m := m.write (m.read (entry + 8)) (m.read entry)
  m.write (m.read entry + 8) (m.read (entry + 8))

/-- `list_is_empty(entry)`. -/
def listIsEmpty (m : Mem) (entry : BitVec 64) : Bool :=
  entry = m.read (entry + 8) ∧ m.read entry = entry

/-! ## The links afterwards -/

variable {m : Mem} {a b entry new x v : BitVec 64}

/-- **`list_add_to_behind`.** -/
theorem links_listAddToBehind (hb : Separate new b) (hb' : Separate entry b)
    (hb'' : Separate (listNext m entry) b) :
    listNext (listAddToBehind m entry new) b =
        (if b = entry then new else if b = new then listNext m entry else listNext m b) ∧
      listPrev (listAddToBehind m entry new) b =
        if b = listNext m entry then new else if b = new then entry else listPrev m b := by
  have hread : ((m.write (new + 8) (m.read (entry + 8))).write new entry).read (new + 8) =
      listNext m entry := by
    have hself := listNext_write_prev (m := m.write (new + 8) (m.read (entry + 8))) (v := entry)
      (Separate.refl new)
    rw [listNext_write_next (Separate.refl new), if_pos rfl] at hself
    exact hself
  unfold listAddToBehind
  simp only [hread]
  rw [listNext_write_next hb', listNext_write_prev hb'', listNext_write_prev hb,
    listNext_write_next hb, listPrev_write_next hb', listPrev_write_prev hb'',
    listPrev_write_prev hb, listPrev_write_next hb]
  exact ⟨rfl, rfl⟩

/-- **`list_del`.** -/
theorem links_listDel (hnext : Separate (listNext m entry) entry)
    (hb : Separate (listNext m entry) b) (hb' : Separate (listPrev m entry) b) :
    listNext (listDel m entry) b =
        (if b = listPrev m entry then listNext m entry else listNext m b) ∧
      listPrev (listDel m entry) b =
        if b = listNext m entry then listPrev m entry else listPrev m b := by
  have hprev : (m.write (m.read (entry + 8)) (m.read entry)).read entry = m.read entry := by
    have h := listPrev_write_prev (m := m) (v := m.read entry) hnext
    by_cases hself : entry = listNext m entry
    · exact h.trans (if_pos hself)
    · exact h.trans (if_neg hself)
  have hnext' : (m.write (m.read (entry + 8)) (m.read entry)).read (entry + 8) =
      m.read (entry + 8) := listNext_write_prev hnext
  have heq : listDel m entry = (m.write (listNext m entry) (listPrev m entry)).write
      (listPrev m entry + 8) (listNext m entry) := by
    rw [listDel]
    simp only [hprev, hnext']
    rfl
  rw [heq, listNext_write_next hb', listNext_write_prev hb, listPrev_write_next hb',
    listPrev_write_prev hb]
  exact ⟨rfl, rfl⟩

/-! ## Families -/

/-- The lists, each from one of its nodes on. -/
abbrev Family := List (List (BitVec 64))

/-- The node shares no byte with a node of the lists. -/
def Fresh (F : Family) (n : BitVec 64) : Prop := ∀ a ∈ F.flatten, (node n).Apart (node a)

/-- Memory holds the lists, in separate nodes. -/
structure Represents (m : Mem) (F : Family) : Prop where
  apart : F.flatten.Pairwise fun a b => (node a).Apart (node b)
  circular : ∀ c ∈ F, Circular (listNext m) (listPrev m) c

namespace Represents

variable {F : Family} {c : List (BitVec 64)} {e n : BitVec 64}

theorem nodup (h : Represents m F) : F.flatten.Nodup := h.apart.imp node_apart_ne

theorem nodup_of_mem (h : Represents m F) (hc : c ∈ F) : c.Nodup :=
  (List.nodup_flatten.mp h.nodup).1 c hc

theorem separate (h : Represents m F) (ha : a ∈ F.flatten) (hb : b ∈ F.flatten) :
    Separate a b := by
  have : Std.Symm fun a b => (node a).Apart (node b) := ⟨fun _ _ h => h.symm⟩
  exact (eq_or_ne a b).imp_right (h.apart.forall ha hb)

/-- Nodes of the family and a fresh one. -/
theorem separate_cons (h : Represents m F) (hn : Fresh F n) (hmem : a ∈ n :: F.flatten)
    (hb : b ∈ n :: F.flatten) : Separate a b := by
  rcases List.mem_cons.mp hmem with rfl | ha
  · rcases List.mem_cons.mp hb with rfl | hb
    · exact .refl _
    · exact .inr (hn b hb)
  · rcases List.mem_cons.mp hb with rfl | hb
    · exact .inr (hn _ ha).symm
    · exact h.separate ha hb

theorem next_mem (h : Represents m F) (he : e ∈ F.flatten) : listNext m e ∈ F.flatten := by
  obtain ⟨c, hc, hec⟩ := List.mem_flatten.mp he
  exact List.mem_flatten.mpr ⟨c, hc, (h.circular c hc).next_mem hec⟩

theorem prev_mem (h : Represents m F) (he : e ∈ F.flatten) : listPrev m e ∈ F.flatten := by
  obtain ⟨c, hc, hec⟩ := List.mem_flatten.mp he
  exact List.mem_flatten.mpr ⟨c, hc, (h.circular c hc).prev_mem hec⟩

/-- The neighbours of a node are in its list. -/
theorem neighbours_not_mem (h : Represents m F) (he : e ∈ F.flatten) (hc : c ∈ F) (hec : e ∉ c) :
    listNext m e ∉ c ∧ listPrev m e ∉ c := by
  obtain ⟨c', hc', hec'⟩ := List.mem_flatten.mp he
  have hinverse := (h.circular c' hc').inverse hec'
  constructor
  · intro hmem
    exact hec (hinverse.2 ▸ (h.circular c hc).prev_mem hmem)
  · intro hmem
    exact hec (hinverse.1 ▸ (h.circular c hc).next_mem hmem)

theorem ne_of_fresh (hn : Fresh F n) (ha : a ∈ F.flatten) : a ≠ n :=
  (node_apart_ne (hn a ha)).symm

/-- **An edit at a node.**  It is enough to look at the list the node is in, if the links of the
other lists are kept. -/
theorem edit {m' : Mem} {f : List (BitVec 64) → List (BitVec 64)} (h : Represents m F)
    (hapart : (F.map f).flatten.Pairwise fun a b => (node a).Apart (node b))
    (hin : ∀ x y, x ++ e :: y ∈ F → Circular (listNext m') (listPrev m') (f (x ++ e :: y)))
    (hout : ∀ c ∈ F, e ∉ c → f c = c)
    (hkept : ∀ c ∈ F, e ∉ c → ∀ a ∈ c,
      listNext m' a = listNext m a ∧ listPrev m' a = listPrev m a) :
    Represents m' (F.map f) := by
  refine ⟨hapart, fun c' hc' => ?_⟩
  obtain ⟨c, hc, rfl⟩ := List.mem_map.mp hc'
  by_cases hec : e ∈ c
  · obtain ⟨x, y, rfl⟩ := List.append_of_mem hec
    exact hin x y hc
  · rw [hout c hc hec]
    exact (h.circular c hc).congr (fun a ha => (hkept c hc hec a ha).1)
      fun a ha => (hkept c hc hec a ha).2

theorem flatten_map_flatMap (F : Family) (f : BitVec 64 → List (BitVec 64)) :
    (F.map (·.flatMap f)).flatten = F.flatten.flatMap f := by
  induction F with
  | nil => rfl
  | cons c F ih => rw [List.map_cons, List.flatten_cons, ih, List.flatten_cons, List.flatMap_append]

theorem insertBehind_flatten (F : Family) :
    (F.map (insertBehind e n)).flatten = insertBehind e n F.flatten := flatten_map_flatMap F _

theorem insertBefore_flatten (F : Family) :
    (F.map (insertBefore e n)).flatten = insertBefore e n F.flatten := flatten_map_flatMap F _

/-- The nodes with a fresh one. -/
theorem apart_cons (h : Represents m F) (hn : Fresh F n) {l : List (BitVec 64)}
    (hl : l.Perm (n :: F.flatten)) : l.Pairwise fun a b => (node a).Apart (node b) :=
  (hl.pairwise_iff fun h => h.symm).mpr (List.pairwise_cons.mpr ⟨hn, h.apart⟩)

end Represents

/-! ## Linking in -/

/-- The links of `m'` are those of `m`, with the new node `n` between `p` and `q`. -/
structure LinkedIn (m m' : Mem) (F : Family) (p n q : BitVec 64) : Prop where
  left : p ∈ F.flatten
  right : q ∈ F.flatten
  fresh : Fresh F n
  next : ∀ b ∈ n :: F.flatten,
    listNext m' b = if b = p then n else if b = n then q else listNext m b
  prev : ∀ b ∈ n :: F.flatten,
    listPrev m' b = if b = q then n else if b = n then p else listPrev m b

namespace LinkedIn

variable {m m' : Mem} {F : Family} {c : List (BitVec 64)} {a p n q : BitVec 64}

theorem next_left (h : LinkedIn m m' F p n q) : listNext m' p = n := by
  rw [h.next p (List.mem_cons_of_mem n h.left), if_pos rfl]

theorem prev_right (h : LinkedIn m m' F p n q) : listPrev m' q = n := by
  rw [h.prev q (List.mem_cons_of_mem n h.right), if_pos rfl]

theorem next_new (h : LinkedIn m m' F p n q) : listNext m' n = q := by
  rw [h.next n List.mem_cons_self, if_neg (Represents.ne_of_fresh h.fresh h.left).symm, if_pos rfl]

theorem prev_new (h : LinkedIn m m' F p n q) : listPrev m' n = p := by
  rw [h.prev n List.mem_cons_self, if_neg (Represents.ne_of_fresh h.fresh h.right).symm, if_pos rfl]

theorem next_of_ne (h : LinkedIn m m' F p n q) (ha : a ∈ F.flatten) (hne : a ≠ p) :
    listNext m' a = listNext m a := by
  rw [h.next a (List.mem_cons_of_mem n ha), if_neg hne,
    if_neg (Represents.ne_of_fresh h.fresh ha)]

theorem prev_of_ne (h : LinkedIn m m' F p n q) (ha : a ∈ F.flatten) (hne : a ≠ q) :
    listPrev m' a = listPrev m a := by
  rw [h.prev a (List.mem_cons_of_mem n ha), if_neg hne,
    if_neg (Represents.ne_of_fresh h.fresh ha)]

/-- A list the neighbours are not in. -/
theorem untouched (h : LinkedIn m m' F p n q) (hc : c ∈ F) (hp : p ∉ c) (hq : q ∉ c)
    (ha : a ∈ c) : listNext m' a = listNext m a ∧ listPrev m' a = listPrev m a := by
  have hmem : a ∈ F.flatten := List.mem_flatten.mpr ⟨c, hc, ha⟩
  exact ⟨h.next_of_ne hmem fun hap => hp (hap ▸ ha), h.prev_of_ne hmem fun haq => hq (haq ▸ ha)⟩

end LinkedIn

namespace Represents

variable {F : Family} {c : List (BitVec 64)} {e n : BitVec 64}

theorem linkedIn_behind (h : Represents m F) (he : e ∈ F.flatten) (hn : Fresh F n) :
    LinkedIn m (listAddToBehind m e n) F e n (listNext m e) := by
  have hlinks {b : BitVec 64} (hb : b ∈ n :: F.flatten) :=
    links_listAddToBehind (m := m) (h.separate_cons hn List.mem_cons_self hb)
      (h.separate_cons hn (List.mem_cons_of_mem n he) hb)
      (h.separate_cons hn (List.mem_cons_of_mem n (h.next_mem he)) hb)
  exact ⟨he, h.next_mem he, hn, fun _ hb => (hlinks hb).1, fun _ hb => (hlinks hb).2⟩

theorem linkedIn_before (h : Represents m F) (he : e ∈ F.flatten) (hn : Fresh F n) :
    LinkedIn m (listAddToBefore m e n) F (listPrev m e) n e := by
  have hlinks {b : BitVec 64} (hb : b ∈ n :: F.flatten) :=
    links_listAddToBefore (hn e he) (h.separate he (h.prev_mem he))
      (h.separate_cons hn List.mem_cons_self hb)
      (h.separate_cons hn (List.mem_cons_of_mem n he) hb)
      (h.separate_cons hn (List.mem_cons_of_mem n (h.prev_mem he)) hb)
  exact ⟨h.prev_mem he, he, hn, fun _ hb => (hlinks hb).1, fun _ hb => (hlinks hb).2⟩

/-- A list the node is not in. -/
theorem addToBehind_untouched (h : Represents m F) (he : e ∈ F.flatten) (hn : Fresh F n)
    (hc : c ∈ F) (hec : e ∉ c) (ha : a ∈ c) :
    listNext (listAddToBehind m e n) a = listNext m a ∧
      listPrev (listAddToBehind m e n) a = listPrev m a :=
  (h.linkedIn_behind he hn).untouched hc hec (h.neighbours_not_mem he hc hec).1 ha

theorem addToBefore_untouched (h : Represents m F) (he : e ∈ F.flatten) (hn : Fresh F n)
    (hc : c ∈ F) (hec : e ∉ c) (ha : a ∈ c) :
    listNext (listAddToBefore m e n) a = listNext m a ∧
      listPrev (listAddToBefore m e n) a = listPrev m a :=
  (h.linkedIn_before he hn).untouched hc (h.neighbours_not_mem he hc hec).2 hec ha

/-- **`list_add_to_behind` on a family.** -/
theorem addToBehind (h : Represents m F) (he : e ∈ F.flatten) (hn : Fresh F n) :
    Represents (listAddToBehind m e n) (F.map (insertBehind e n)) := by
  refine h.edit (h.apart_cons hn ?_) (fun x y hc => ?_) (fun c _ hec => insertBehind_of_not_mem hec)
    fun c hc hec a ha => h.addToBehind_untouched he hn hc hec ha
  · rw [insertBehind_flatten]
    exact insertBehind_perm h.nodup he
  · have hnodup := h.nodup_of_mem hc
    have hlinks := h.linkedIn_behind he hn
    have hmem {a : BitVec 64} (ha : a ∈ x ++ e :: y) : a ∈ F.flatten :=
      List.mem_flatten.mpr ⟨_, hc, ha⟩
    rw [insertBehind_eq hnodup]
    exact (h.circular _ hc).link_behind hnodup hlinks.next_left hlinks.prev_new hlinks.next_new
      hlinks.prev_right (fun a ha => hlinks.next_of_ne (hmem ha))
      fun a ha => hlinks.prev_of_ne (hmem ha)

/-- **`list_add_to_before` on a family.** -/
theorem addToBefore (h : Represents m F) (he : e ∈ F.flatten) (hn : Fresh F n) :
    Represents (listAddToBefore m e n) (F.map (insertBefore e n)) := by
  refine h.edit (h.apart_cons hn ?_) (fun x y hc => ?_) (fun c _ hec => insertBefore_of_not_mem hec)
    fun c hc hec a ha => h.addToBefore_untouched he hn hc hec ha
  · rw [insertBefore_flatten]
    exact insertBefore_perm h.nodup he
  · have hnodup := h.nodup_of_mem hc
    have hlinks := h.linkedIn_before he hn
    have hmem {a : BitVec 64} (ha : a ∈ x ++ e :: y) : a ∈ F.flatten :=
      List.mem_flatten.mpr ⟨_, hc, ha⟩
    rw [insertBefore_eq hnodup]
    exact (h.circular _ hc).link_before hnodup hlinks.next_left hlinks.prev_new hlinks.next_new
      hlinks.prev_right (fun a ha => hlinks.next_of_ne (hmem ha))
      fun a ha => hlinks.prev_of_ne (hmem ha)

/-! ## Taking out -/

theorem links_del (h : Represents m F) (he : e ∈ F.flatten) (hb : b ∈ F.flatten) :
    listNext (listDel m e) b = (if b = listPrev m e then listNext m e else listNext m b) ∧
      listPrev (listDel m e) b = if b = listNext m e then listPrev m e else listPrev m b :=
  links_listDel (h.separate (h.next_mem he) he) (h.separate (h.next_mem he) hb)
    (h.separate (h.prev_mem he) hb)

theorem del_untouched (h : Represents m F) (he : e ∈ F.flatten) (hc : c ∈ F) (hec : e ∉ c)
    (ha : a ∈ c) :
    listNext (listDel m e) a = listNext m a ∧ listPrev (listDel m e) a = listPrev m a := by
  have hnot := h.neighbours_not_mem he hc hec
  have hprev : a ≠ listPrev m e := by
    rintro rfl
    exact hnot.2 ha
  have hnext : a ≠ listNext m e := by
    rintro rfl
    exact hnot.1 ha
  obtain ⟨h1, h2⟩ := h.links_del he (List.mem_flatten.mpr ⟨c, hc, ha⟩)
  rw [h1, h2, if_neg hprev, if_neg hnext]
  exact ⟨rfl, rfl⟩

/-- **`list_del` on a family.** -/
theorem del (h : Represents m F) (he : e ∈ F.flatten) :
    Represents (listDel m e) (F.map (·.filter (· ≠ e))) := by
  refine h.edit ?_ (fun x y hc => ?_) (fun c _ hec => ?_)
    fun c hc hec a ha => h.del_untouched he hc hec ha
  · rw [← List.filter_flatten]
    exact h.apart.filter _
  · have hnodup := h.nodup_of_mem hc
    have hlinks {a : BitVec 64} (ha : a ∈ x ++ e :: y) :=
      h.links_del he (List.mem_flatten.mpr ⟨_, hc, ha⟩)
    have hemem : e ∈ x ++ e :: y := List.mem_append_right x List.mem_cons_self
    rw [filter_ne_eq hnodup]
    refine (h.circular _ hc).unlink hnodup ?_ ?_ (fun a ha hae => ?_) fun a ha hae => ?_
    · rw [(hlinks ((h.circular _ hc).prev_mem hemem)).1, if_pos rfl]
    · rw [(hlinks ((h.circular _ hc).next_mem hemem)).2, if_pos rfl]
    · rw [(hlinks ha).1, if_neg hae]
    · rw [(hlinks ha).2, if_neg hae]
  · exact List.filter_eq_self.mpr fun a ha => decide_eq_true fun hae => hec (hae ▸ ha)

/-! ## A new list -/

theorem init_untouched (hn : Fresh F n) (ha : a ∈ F.flatten) :
    listNext (listInit m n) a = listNext m a ∧ listPrev (listInit m n) a = listPrev m a := by
  obtain ⟨h1, h2⟩ := links_listInit (m := m) (.inr (hn a ha))
  rw [h1, h2, if_neg (ne_of_fresh hn ha), if_neg (ne_of_fresh hn ha)]
  exact ⟨rfl, rfl⟩

/-- **`list_init` on a family.** -/
theorem init (h : Represents m F) (hn : Fresh F n) :
    Represents (listInit m n) ([n] :: F) := by
  refine ⟨h.apart_cons hn (.refl _), List.forall_mem_cons.mpr ⟨ring_listInit m n, fun c hc => ?_⟩⟩
  have hmem {a : BitVec 64} (ha : a ∈ c) : a ∈ F.flatten := List.mem_flatten.mpr ⟨c, hc, ha⟩
  exact (h.circular c hc).congr (fun a ha => (init_untouched hn (hmem ha)).1)
    fun a ha => (init_untouched hn (hmem ha)).2

/-! ## What a represented family satisfies -/

/-- **A list is empty** for `list_is_empty` if its head is alone. -/
theorem isEmpty_iff (h : Represents m F) (hc : c ∈ F) (ha : a ∈ c) :
    listIsEmpty m a = true ↔ c = [a] := by
  have hiff := (h.circular c hc).next_eq_self_iff (h.nodup_of_mem hc) ha
  have hinverse := (h.circular c hc).inverse ha
  rw [← hiff, listIsEmpty, decide_eq_true_iff]
  constructor
  · rintro ⟨hnext, -⟩
    exact hnext.symm
  · intro hnext
    have hprev : listPrev m a = a := by rw [← congrArg (listPrev m) hnext]; exact hinverse.2
    exact ⟨hnext.symm, hprev⟩

end Represents

/-! ## Sequences of operations -/

/-- The operations. -/
inductive ListOp where
  | init (list : BitVec 64)
  | addToBehind (entry new : BitVec 64)
  | addToBefore (entry new : BitVec 64)
  | del (entry : BitVec 64)
  deriving DecidableEq

namespace ListOp

/-- Memory after an operation. -/
def run (m : Mem) : ListOp → Mem
  | init list => listInit m list
  | addToBehind entry new => listAddToBehind m entry new
  | addToBefore entry new => listAddToBefore m entry new
  | del entry => listDel m entry

/-- What an operation does to each list. -/
def edit : ListOp → List (BitVec 64) → List (BitVec 64)
  | init _, c => c
  | addToBehind entry new, c => insertBehind entry new c
  | addToBefore entry new, c => insertBefore entry new c
  | del entry, c => c.filter (· ≠ entry)

/-- What an operation does to the family. -/
def apply (F : Family) : ListOp → Family
  | init list => [list] :: F
  | addToBehind entry new => F.map (insertBehind entry new)
  | addToBefore entry new => F.map (insertBefore entry new)
  | del entry => F.map (·.filter (· ≠ entry))

/-- The node an operation is about. -/
def node : ListOp → BitVec 64
  | init list => list
  | addToBehind entry _ => entry
  | addToBefore entry _ => entry
  | del entry => entry

/-- Nodes that are linked in are in no list, and the node they are linked in at is in one. -/
def Allowed (F : Family) : ListOp → Prop
  | init list => Fresh F list
  | addToBehind entry new => entry ∈ F.flatten ∧ Fresh F new
  | addToBefore entry new => entry ∈ F.flatten ∧ Fresh F new
  | del entry => entry ∈ F.flatten

/-- Where the node is afterwards. -/
def Placed (m : Mem) (F : Family) : ListOp → Prop
  | init list => listNext m list = list ∧ listPrev m list = list
  | addToBehind entry new => listNext m entry = new ∧ listPrev m new = entry
  | addToBefore entry new => listPrev m entry = new ∧ listNext m new = entry
  | del entry => entry ∉ F.flatten

end ListOp

/-- A step of the heap and the family. -/
def listStep (s : Mem × Family) (op : ListOp) (t : Mem × Family) : Prop :=
  op.Allowed s.2 ∧ t = (op.run s.1, op.apply s.2)

/-- What an operation keeps and does. -/
structure KeepsLists (s : Mem × Family) (op : ListOp) (t : Mem × Family) : Prop where
  represents : Represents t.1 t.2
  inverse : ∀ c ∈ t.2, ∀ a ∈ c,
    listNext t.1 (listPrev t.1 a) = a ∧ listPrev t.1 (listNext t.1 a) = a
  isEmpty : ∀ c ∈ t.2, ∀ a ∈ c, (listIsEmpty t.1 a = true ↔ c = [a])
  placed : op.Placed t.1 t.2
  order : ∀ c ∈ s.2, (op.edit c).filter (· ∈ c) = c.filter (· ∈ op.edit c)
  untouched : ∀ c ∈ s.2, op.node ∉ c → op.edit c = c ∧ ∀ a ∈ c,
    listNext t.1 a = listNext s.1 a ∧ listPrev t.1 a = listPrev s.1 a

/-- A node that is in no list is in none of them. -/
theorem Fresh.not_mem {F : Family} {n : BitVec 64} {c : List (BitVec 64)} (hn : Fresh F n)
    (hc : c ∈ F) : n ∉ c := fun hmem =>
  node_apart_ne (hn n (List.mem_flatten.mpr ⟨c, hc, hmem⟩)) rfl

theorem subset_insert {α : Type*} {c c' : List α} [DecidableEq α] (h : c'.filter (· ∈ c) = c) :
    c.filter (· ∈ c') = c := by
  refine List.filter_eq_self.mpr fun a ha => decide_eq_true ?_
  rw [← h] at ha
  exact List.mem_of_mem_filter ha

/-- **One operation.** -/
theorem Represents.step {s t : Mem × Family} {op : ListOp} (h : Represents s.1 s.2)
    (hstep : listStep s op t) : KeepsLists s op t := by
  obtain ⟨m, F⟩ := s
  obtain ⟨hallowed, rfl⟩ := hstep
  have hrest {m' : Mem} {F' : Family} (h' : Represents m' F') :
      (∀ c ∈ F', ∀ a ∈ c, listNext m' (listPrev m' a) = a ∧ listPrev m' (listNext m' a) = a) ∧
        ∀ c ∈ F', ∀ a ∈ c, (listIsEmpty m' a = true ↔ c = [a]) :=
    ⟨fun c hc a ha => (h'.circular c hc).inverse ha, fun c hc a ha => h'.isEmpty_iff hc ha⟩
  cases op with
  | init list =>
    have h' := h.init hallowed
    refine ⟨h', (hrest h').1, (hrest h').2, ?_, fun c _ => rfl, fun c hc _ => ⟨rfl, fun a ha => ?_⟩⟩
    · exact ring_nil.mp (ring_listInit m list)
    · exact Represents.init_untouched hallowed (List.mem_flatten.mpr ⟨c, hc, ha⟩)
  | addToBehind entry new =>
    obtain ⟨he, hn⟩ := hallowed
    have h' := h.addToBehind he hn
    refine ⟨h', (hrest h').1, (hrest h').2,
      ⟨(h.linkedIn_behind he hn).next_left, (h.linkedIn_behind he hn).prev_new⟩, fun c hc => ?_,
      fun c hc hec => ⟨insertBehind_of_not_mem hec, fun a ha => ?_⟩⟩
    · have hfilter := insertBehind_filter (e := entry) (hn.not_mem hc)
      exact hfilter.trans (subset_insert hfilter).symm
    · exact h.addToBehind_untouched he hn hc hec ha
  | addToBefore entry new =>
    obtain ⟨he, hn⟩ := hallowed
    have h' := h.addToBefore he hn
    refine ⟨h', (hrest h').1, (hrest h').2,
      ⟨(h.linkedIn_before he hn).prev_right, (h.linkedIn_before he hn).next_new⟩, fun c hc => ?_,
      fun c hc hec => ⟨insertBefore_of_not_mem hec, fun a ha => ?_⟩⟩
    · have hfilter := insertBefore_filter (e := entry) (hn.not_mem hc)
      exact hfilter.trans (subset_insert hfilter).symm
    · exact h.addToBefore_untouched he hn hc hec ha
  | del entry =>
    have h' := h.del hallowed
    refine ⟨h', (hrest h').1, (hrest h').2, ?_, fun c hc => ?_,
      fun c hc hec => ⟨?_, fun a ha => ?_⟩⟩
    · show entry ∉ (F.map (·.filter (· ≠ entry))).flatten
      rw [← List.filter_flatten, List.mem_filter]
      simp
    · show (c.filter (· ≠ entry)).filter (· ∈ c) = c.filter (· ∈ c.filter (· ≠ entry))
      rw [List.filter_filter]
      refine List.filter_congr fun a ha => ?_
      simp [ha]
    · exact List.filter_eq_self.mpr fun a ha => decide_eq_true fun hae => hec (hae ▸ ha)
    · exact h.del_untouched hallowed hc hec ha

/-- **Whole sequences of operations.**  From any family of separate circular lists the heap goes on
to represent the family, and every operation does what it is for and leaves the rest alone. -/
theorem lists_run {s : Mem × Family} {tr : List (ListOp × (Mem × Family))}
    (h : Represents s.1 s.2) (htr : Always listStep s tr) : Always KeepsLists s tr := by
  refine (Always.invariant_both (P := fun s => Represents s.1 s.2)
    (fun s op t hs hstep => (hs.step hstep).represents) h htr).mono ?_
  rintro s op t ⟨hs, hstep, -⟩
  exact hs.step hstep

/-- A node is put in, taken out, and put in again on the other side. -/
theorem lists_run_reinsert : Always KeepsLists (fun _ => 0, [])
    (runOf (fun s op => (op.run s.1, op.apply s.2)) (fun _ => 0, [])
      [.init 16, .addToBehind 16 48, .del 48, .addToBefore 16 48]) := by
  have hmem (c : List (BitVec 64)) : 16 ∈ [16 :: c].flatten := List.mem_flatten.mpr
    ⟨_, List.mem_singleton.mpr rfl, List.mem_cons_self⟩
  have hfresh : Fresh [[16]] 48 := by
    intro a ha
    obtain rfl := List.mem_singleton.mp ha
    decide
  have hinit : Fresh [] 16 := fun a ha => absurd ha List.not_mem_nil
  refine lists_run ⟨List.Pairwise.nil, List.forall_mem_nil _⟩ ?_
  exact ⟨⟨hinit, rfl⟩, ⟨⟨hmem [], hfresh⟩, rfl⟩, ⟨List.mem_cons_of_mem _ List.mem_cons_self, rfl⟩,
    ⟨⟨hmem [], hfresh⟩, rfl⟩, trivial⟩
end Lib
end OSLib
