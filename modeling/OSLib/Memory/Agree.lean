import Mathlib.Data.List.Count
import OSLib.Memory.Page

/-!
# `page_init` in two memories that agree in part

`AgreeOn W P Z s s'` says that two states hold the same bitmap words on `W`, page structs on `P` and
zone structs on `Z`.  A run of `page_init` over page structs in `P` keeps such an agreement,
whatever the three sets are: it reads the page struct, and what it writes elsewhere depends only on
that and on what the place written held (`AgreeOn.pageInits`).

Over other page structs it does not.  `page_init` then follows a zone pointer that the two states
need not share: it can fault in one of them (`pageInits_eq_none_iff`), or count one reference more
in a zone (`pageInits_totalPageLnk`).

The sets are parameters, because the three arrays end at different places and a call may be safe in
the one and not in the other.  `Metadata` takes the arrays for them.
-/

namespace OSLib
namespace Memory

variable {s s' t t' : MemState} {W P Z : ℕ → Prop} {p z : ℕ} {ps : List ℕ} {flags : BitVec 64}

/-! ## States that agree -/

/-- Two states agree on some bitmap words, page structs and zone structs, and on what is not in the
three arrays. -/
structure AgreeOn (W P Z : ℕ → Prop) (s s' : MemState) : Prop where
  desc : s'.desc = s.desc
  gZoneDma : s'.gZoneDma = s.gZoneDma
  gZoneNormal : s'.gZoneNormal = s.gZoneNormal
  gZoneUnmapped : s'.gZoneUnmapped = s.gZoneUnmapped
  lowMapped : s'.lowMapped = s.lowMapped
  bits : ∀ v, W v → s'.bits v = s.bits v
  pages : ∀ x, P x → s'.pages x = s.pages x
  zones : ∀ z, Z z → s'.zones z = s.zones z

namespace AgreeOn

theorem refl (W P Z : ℕ → Prop) (s : MemState) : AgreeOn W P Z s s :=
  ⟨rfl, rfl, rfl, rfl, rfl, fun _ _ => rfl, fun _ _ => rfl, fun _ _ => rfl⟩

/-- One bit set, one page struct written and one zone changed, in both states. -/
theorem update (h : AgreeOn W P Z s s') {m m' : Bitmap} (hm : ∀ v, W v → m' v = m v) (pg : Page)
    (f : Zone → Zone) (zp : Option ℕ) :
    AgreeOn W P Z
      { s with bits := m, pages := Function.update s.pages p pg, zones := bumpZone s.zones f zp }
      { s' with
        bits := m', pages := Function.update s'.pages p pg, zones := bumpZone s'.zones f zp } where
  desc := h.desc
  gZoneDma := h.gZoneDma
  gZoneNormal := h.gZoneNormal
  gZoneUnmapped := h.gZoneUnmapped
  lowMapped := h.lowMapped
  bits := hm
  pages x hx := by
    show Function.update s'.pages p pg x = Function.update s.pages p pg x
    rw [Function.update_apply, Function.update_apply, h.pages x hx]
  zones z hz := by
    show bumpZone s'.zones f zp z = bumpZone s.zones f zp z
    cases zp with
    | none => exact h.zones z hz
    | some w =>
      show Function.update s'.zones w (f (s'.zones w)) z =
        Function.update s.zones w (f (s.zones w)) z
      rw [Function.update_apply, Function.update_apply, h.zones z hz]
      split
      · next hzw =>
        subst hzw
        rw [h.zones z hz]
      · rfl

end AgreeOn

/-- Setting a bit of two bitmaps that hold the same word. -/
theorem set_congr {m m' : Bitmap} {v : ℕ} (i : ℕ) (h : m' v = m v) : m'.set i v = m.set i v := by
  unfold Bitmap.set
  rw [Function.update_apply, Function.update_apply, h]
  split
  · next hv =>
    subst hv
    rw [h]
  · rfl

/-! ## Faults -/

/-- `page_init` follows the page's zone pointer: the page is free, or shared, or to be shared. -/
def FollowsZone (s : MemState) (flags : BitVec 64) (p : ℕ) : Prop :=
  (s.pages p).attr = 0 ∨ Shared (s.pages p).attr ∨ Shared flags

instance (s : MemState) (flags : BitVec 64) (p : ℕ) : Decidable (FollowsZone s flags p) := by
  unfold FollowsZone
  infer_instance

/-- `page_init` follows a null pointer that is not mapped. -/
def Faults (s : MemState) (flags : BitVec 64) (p : ℕ) : Prop :=
  (s.pages p).zoneStruct = none ∧ s.lowMapped = false ∧ FollowsZone s flags p

theorem pageInit_eq_none_iff : pageInit s p flags = none ↔ Faults s flags p := by
  have hzone : ∀ (u : MemState) (f : Zone → Zone), u.lowMapped = s.lowMapped →
      (u.updateZone (s.pages p).zoneStruct f = none ↔
        (s.pages p).zoneStruct = none ∧ s.lowMapped = false) := by
    intro u f hu
    unfold MemState.updateZone
    rw [hu]
    split <;> simp_all
  unfold Faults FollowsZone
  simp only [pageInit]
  split
  · next hfree =>
    refine (hzone _ _ ?_).trans ?_
    · rfl
    · rw [← and_assoc, and_iff_left (Or.inl hfree)]
  · next hused =>
    split
    · next hshared =>
      refine (hzone _ _ ?_).trans ?_
      · rfl
      · rw [← and_assoc, and_iff_left (Or.inr hshared)]
    · next hplain =>
      refine ⟨fun h => (Option.some_ne_none _ h).elim, ?_⟩
      rintro ⟨-, -, hfree | hshared⟩
      · exact absurd hfree hused
      · exact absurd hshared hplain

theorem faults_congr (hpage : s'.pages p = s.pages p) (hlow : s'.lowMapped = s.lowMapped) :
    Faults s' flags p ↔ Faults s flags p := by
  unfold Faults FollowsZone
  rw [hpage, hlow]

/-- A run of `page_init` over different page structs faults exactly when one of them makes it. -/
theorem pageInits_eq_none_iff (hnodup : ps.Nodup) :
    pageInits flags s ps = none ↔ ∃ p ∈ ps, Faults s flags p := by
  induction ps generalizing s with
  | nil => simp [pageInits]
  | cons p ps ih =>
    obtain ⟨hp, hnodup⟩ := List.nodup_cons.mp hnodup
    rw [List.exists_mem_cons_iff, ← pageInit_eq_none_iff]
    unfold pageInits
    cases hu : pageInit s p flags with
    | none => simp
    | some u =>
      -- the later page structs are as they were
      have hsame : (∃ x ∈ ps, Faults u flags x) ↔ ∃ x ∈ ps, Faults s flags x := by
        refine exists_congr fun x => and_congr_right fun hx => ?_
        exact faults_congr (pageInit_pages_of_ne hu (ne_of_mem_of_not_mem hx hp))
          (pageInit_sameLayout hu).lowMapped
      rw [← hsame, ← ih hnodup]
      simp

/-! ## Page structs in agreement -/

/-- **One turn.**  `page_init` on a page struct that the two states share. -/
theorem AgreeOn.pageInit (h : AgreeOn W P Z s s') (hp : P p) (ht : pageInit s p flags = some t) :
    ∃ t', pageInit s' p flags = some t' ∧ AgreeOn W P Z t t' := by
  have hpage := h.pages p hp
  obtain ⟨t', ht'⟩ : ∃ t', Memory.pageInit s' p flags = some t' := by
    refine Option.ne_none_iff_exists'.mp fun hnone => ?_
    rw [pageInit_eq_none_iff, faults_congr hpage h.lowMapped, ← pageInit_eq_none_iff, ht] at hnone
    exact Option.some_ne_none _ hnone
  refine ⟨t', ht', ?_⟩
  have hset : ∀ i v, W v → s'.bits.set i v = s.bits.set i v := fun i v hv =>
    set_congr i (h.bits v hv)
  have hcases' := pageInit_cases ht'
  rw [hpage] at hcases'
  rcases pageInit_cases ht with ⟨hfree, -, rfl⟩ | ⟨hused, hshared, -, rfl⟩ |
    ⟨hused, hplain, hflags, rfl⟩
  · rcases hcases' with ⟨-, -, rfl⟩ | ⟨hne, -⟩ | ⟨hne, -⟩
    · exact h.update (hset _) _ _ _
    · exact absurd hfree hne
    · exact absurd hfree hne
  · rcases hcases' with ⟨hfree, -⟩ | ⟨-, -, -, rfl⟩ | ⟨-, hplain, hflags, -⟩
    · exact absurd hfree hused
    · exact h.update h.bits _ _ _
    · exact absurd hshared (not_or.mpr ⟨hplain, hflags⟩)
  · rcases hcases' with ⟨hfree, -⟩ | ⟨-, hshared, -⟩ | ⟨-, -, -, rfl⟩
    · exact absurd hfree hused
    · exact absurd hshared (not_or.mpr ⟨hplain, hflags⟩)
    · exact h.update (hset _) _ id none

/-- **The loop.**  A run over page structs that the two states share. -/
theorem AgreeOn.pageInits (h : AgreeOn W P Z s s') (hps : ∀ p ∈ ps, P p)
    (ht : pageInits flags s ps = some t) :
    ∃ t', pageInits flags s' ps = some t' ∧ AgreeOn W P Z t t' := by
  induction ps generalizing s s' with
  | nil =>
    obtain rfl := Option.some.inj ht
    exact ⟨s', rfl, h⟩
  | cons p ps ih =>
    obtain ⟨hp, hps⟩ := List.forall_mem_cons.mp hps
    obtain ⟨u, hu, ht⟩ := pageInits_cons.mp ht
    obtain ⟨u', hu', hagree⟩ := h.pageInit hp hu
    obtain ⟨t', ht', hagree'⟩ := ih hagree hps ht
    exact ⟨t', pageInits_cons.mpr ⟨u', hu', ht'⟩, hagree'⟩

/-! ## References counted -/

/-- `page_init` on the page counts a reference in the zone. -/
def LinksTo (s : MemState) (flags : BitVec 64) (z p : ℕ) : Prop :=
  (s.pages p).zoneStruct = some z ∧ FollowsZone s flags p

instance (s : MemState) (flags : BitVec 64) (z p : ℕ) : Decidable (LinksTo s flags z p) := by
  unfold LinksTo
  infer_instance

theorem linksTo_congr (hpage : s'.pages p = s.pages p) :
    LinksTo s' flags z p ↔ LinksTo s flags z p := by
  unfold LinksTo FollowsZone
  rw [hpage]

/-- The counter of a zone when the zone behind a pointer gets one reference more. -/
theorem bumpZone_totalPageLnk {zones : ℕ → Zone} {f : Zone → Zone} {zp : Option ℕ}
    (hf : ∀ z, (f z).totalPageLnk = z.totalPageLnk + 1) :
    (bumpZone zones f zp z).totalPageLnk =
      (zones z).totalPageLnk + if zp = some z then 1 else 0 := by
  cases zp with
  | none => exact (BitVec.add_zero _).symm
  | some w =>
    show (Function.update zones w (f (zones w)) z).totalPageLnk = _
    rw [Function.update_apply]
    by_cases hzw : z = w
    · rw [if_pos hzw, if_pos (congrArg some hzw.symm), hf, hzw]
    · rw [if_neg hzw, if_neg fun hsome => hzw (Option.some.inj hsome).symm]
      exact (BitVec.add_zero _).symm

theorem pageInit_totalPageLnk (h : pageInit s p flags = some t) :
    (t.zones z).totalPageLnk =
      (s.zones z).totalPageLnk + if LinksTo s flags z p then 1 else 0 := by
  have hlinks : FollowsZone s flags p →
      (LinksTo s flags z p ↔ (s.pages p).zoneStruct = some z) := and_iff_left
  rcases pageInit_cases h with ⟨hfree, -, rfl⟩ | ⟨-, hshared, -, rfl⟩ | ⟨hused, hplain, hflags, rfl⟩
  · simp only [hlinks (.inl hfree)]
    exact bumpZone_totalPageLnk fun _ => rfl
  · simp only [hlinks (.inr hshared)]
    exact bumpZone_totalPageLnk fun _ => rfl
  · rw [if_neg]
    · exact (BitVec.add_zero _).symm
    · rintro ⟨-, hfree | hshared | hshared⟩
      · exact hused hfree
      · exact hplain hshared
      · exact hflags hshared

/-- **What a run counts** in a zone: one reference for each page that `page_init` links to it. -/
theorem pageInits_totalPageLnk (hnodup : ps.Nodup) (h : pageInits flags s ps = some t) :
    (t.zones z).totalPageLnk = (s.zones z).totalPageLnk +
      BitVec.ofNat 64 (ps.countP fun p => LinksTo s flags z p) := by
  induction ps generalizing s with
  | nil =>
    obtain rfl := Option.some.inj h
    exact (BitVec.add_zero _).symm
  | cons p ps ih =>
    obtain ⟨hp, hnodup⟩ := List.nodup_cons.mp hnodup
    obtain ⟨u, hu, ht⟩ := pageInits_cons.mp h
    have hcount : ps.countP (fun x => LinksTo u flags z x) =
        ps.countP (fun x => LinksTo s flags z x) := by
      refine List.countP_congr fun x hx => ?_
      rw [decide_eq_true_eq, decide_eq_true_eq]
      exact linksTo_congr (pageInit_pages_of_ne hu (ne_of_mem_of_not_mem hx hp))
    rw [ih hnodup ht, hcount, pageInit_totalPageLnk hu, List.countP_cons, BitVec.add_assoc]
    congr 1
    by_cases hlink : LinksTo s flags z p
    · simp only [hlink, decide_true, if_true]
      rw [Nat.add_comm, BitVec.ofNat_add]
      rfl
    · simp only [hlink, decide_false, if_false, Bool.false_eq_true, Nat.add_zero]
      exact BitVec.zero_add _

end Memory
end OSLib
