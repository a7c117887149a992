import OSLib.Memory.Desc

/-!
# `page_init` and `page_clean`

The two functions that take and release a page, branch by branch.  Each touches at most one bit of
the bitmap, one page struct and the counters of one zone, the one the page struct points to.

A null zone pointer is followed like any other: while the low addresses are mapped the counters are
bumped somewhere in low memory, outside the three arrays, and once they are not the access faults
and the function does not return.  That is the `Option` in the result.

The bit is that of the page's address, `PHY_address`, and the page struct the one passed.  That the
two belong to one page is not checked and is not assumed here.  It is part of the invariants of the
modules that need it, `Marked` in `Handout` and `Accounted` in `Accounting`.

`pageInit_cases` and `pageClean_cases` say once what a call can do.  `SameLayout` is what no call
changes: the descriptor, the bounds of the zones, and of the page structs the zone and the address.
Every later frame argument goes through it, so that a change of one of the two functions is a change
of this module.

A call is described by the state it leads to, field by field, and a run over a list of page structs
is a fold of such calls.  The rule for these runs (`pageInits_invariant`) asks for what one call
keeps; what has to be known of the page structs still to come is part of the invariant.
-/

namespace OSLib
namespace Memory

/-! ## Page attributes -/

/-- `PG_PTable_Maped`. -/
def pgPTableMaped : BitVec 64 := 0x1

/-- `PG_Kernel_Init`. -/
def pgKernelInit : BitVec 64 := 0x2

/-- `PG_Referenced`. -/
def pgReferenced : BitVec 64 := 0x4

/-- `PG_Active`. -/
def pgActive : BitVec 64 := 0x10

/-- `PG_Kernel`. -/
def pgKernel : BitVec 64 := 0x80

/-- `PG_K_Share_To_U`. -/
def pgKShareToU : BitVec 64 := 0x100

/-- The test `a & PG_Referenced || a & PG_K_Share_To_U`. -/
def Shared (a : BitVec 64) : Prop := a &&& pgReferenced ≠ 0 ∨ a &&& pgKShareToU ≠ 0

instance (a : BitVec 64) : Decidable (Shared a) := by unfold Shared; infer_instance

theorem Shared.ne_zero {a : BitVec 64} (h : Shared a) : a ≠ 0 := by
  rintro rfl
  rcases h with h | h <;> exact h (by decide)

/-- A sharing bit is in a union of attributes exactly when it is in one of the two. -/
theorem shared_or {a b : BitVec 64} : Shared (a ||| b) ↔ Shared a ∨ Shared b := by
  have hand : ∀ m : BitVec 64, (a ||| b) &&& m = 0 ↔ a &&& m = 0 ∧ b &&& m = 0 := by
    intro m
    rw [BitVec.and_or_distrib_right]
    exact BitVec.or_eq_zero_iff
  unfold Shared
  rw [Ne, Ne, hand, hand]
  tauto

/-! ## The zone counters -/

namespace Zone

variable (z : Zone)

/-- A free page of the zone goes into use. -/
def take : Zone :=
  { z with
    pageUsingCnt := z.pageUsingCnt + 1
    pageFreeCnt := z.pageFreeCnt - 1
    totalPageLnk := z.totalPageLnk + 1 }

/-- One more reference to a page of the zone. -/
def link : Zone := { z with totalPageLnk := z.totalPageLnk + 1 }

/-- One reference less. -/
def unlink : Zone := { z with totalPageLnk := z.totalPageLnk - 1 }

/-- A page of the zone is free again. -/
def release : Zone :=
  { z with
    pageUsingCnt := z.pageUsingCnt - 1
    pageFreeCnt := z.pageFreeCnt + 1 }

end Zone

/-- The zone structs after `p->zone_struct` was followed and the struct changed by `f`. -/
def bumpZone (zones : ℕ → Zone) (f : Zone → Zone) : Option ℕ → ℕ → Zone
  | none => zones
  | some z => Function.update zones z (f (zones z))

namespace MemState

variable (s : MemState)

/-- Change the zone behind a pointer.  A null pointer faults unless low memory is mapped. -/
def updateZone (zp : Option ℕ) (f : Zone → Zone) : Option MemState :=
  if zp = none ∧ s.lowMapped = false then none
  else some { s with zones := bumpZone s.zones f zp }

variable {s}

theorem updateZone_eq_some {zp : Option ℕ} {f : Zone → Zone} {t : MemState}
    (h : s.updateZone zp f = some t) :
    (zp = none → s.lowMapped = true) ∧ t = { s with zones := bumpZone s.zones f zp } := by
  unfold updateZone at h
  split at h
  · exact absurd h (by simp)
  · next hne =>
    refine ⟨fun hzp => ?_, (Option.some.inj h).symm⟩
    by_contra hlow
    exact hne ⟨hzp, by simpa using hlow⟩

end MemState

/-! ## The two functions -/

/-- `page_init(p, flags)` on the page struct with index `p`. -/
def pageInit (s : MemState) (p : ℕ) (flags : BitVec 64) : Option MemState :=
  let pg := s.pages p
  if pg.attr = 0 then
    { s with
      bits := s.bits.set (pageNo pg.phyAddr)
      pages := Function.update s.pages p
        { pg with attr := flags, refCnt := pg.refCnt + 1 } }.updateZone pg.zoneStruct Zone.take
  else if Shared pg.attr ∨ Shared flags then
    { s with
      pages := Function.update s.pages p
        { pg with attr := pg.attr ||| flags, refCnt := pg.refCnt + 1 } }.updateZone
          pg.zoneStruct Zone.link
  else
    some { s with
      bits := s.bits.set (pageNo pg.phyAddr)
      pages := Function.update s.pages p { pg with attr := pg.attr ||| flags } }

/-- `page_clean(p)`.  Releasing the last reference of a shared page does not touch the bitmap. -/
def pageClean (s : MemState) (p : ℕ) : Option MemState :=
  let pg := s.pages p
  if pg.attr = 0 then
    some { s with pages := Function.update s.pages p { pg with attr := 0 } }
  else if Shared pg.attr then
    if pg.refCnt - 1 = 0 then
      { s with
        pages := Function.update s.pages p
          { pg with attr := 0, refCnt := pg.refCnt - 1 } }.updateZone pg.zoneStruct
            (fun z => z.unlink.release)
    else
      { s with
        pages := Function.update s.pages p { pg with refCnt := pg.refCnt - 1 } }.updateZone
          pg.zoneStruct Zone.unlink
  else
    { s with
      bits := s.bits.clear (pageNo pg.phyAddr)
      pages := Function.update s.pages p { pg with attr := 0, refCnt := 0 } }.updateZone
        pg.zoneStruct (fun z => z.release.unlink)

theorem sub_one_eq_zero_iff {a : BitVec 64} : a - 1 = 0 ↔ a = 1 := by
  constructor <;> intro h <;> bv_omega

variable {s t u : MemState} {p x z : ℕ} {flags : BitVec 64}

/-- **What `page_init` can do.**  It takes a free page, adds a reference to a shared one, or only
adds attributes to a page in plain use. -/
theorem pageInit_cases (h : pageInit s p flags = some t) :
    ((s.pages p).attr = 0 ∧ ((s.pages p).zoneStruct = none → s.lowMapped = true) ∧
      t = { s with
        bits := s.bits.set (pageNo (s.pages p).phyAddr)
        pages := Function.update s.pages p
          { s.pages p with attr := flags, refCnt := (s.pages p).refCnt + 1 }
        zones := bumpZone s.zones Zone.take (s.pages p).zoneStruct }) ∨
    ((s.pages p).attr ≠ 0 ∧ (Shared (s.pages p).attr ∨ Shared flags) ∧
      ((s.pages p).zoneStruct = none → s.lowMapped = true) ∧
      t = { s with
        pages := Function.update s.pages p
          { s.pages p with
            attr := (s.pages p).attr ||| flags, refCnt := (s.pages p).refCnt + 1 }
        zones := bumpZone s.zones Zone.link (s.pages p).zoneStruct }) ∨
    ((s.pages p).attr ≠ 0 ∧ ¬ Shared (s.pages p).attr ∧ ¬ Shared flags ∧
      t = { s with
        bits := s.bits.set (pageNo (s.pages p).phyAddr)
        pages := Function.update s.pages p
          { s.pages p with attr := (s.pages p).attr ||| flags } }) := by
  simp only [pageInit] at h
  split at h
  · next hfree =>
    obtain ⟨hlow, ht⟩ := MemState.updateZone_eq_some h
    exact Or.inl ⟨hfree, hlow, ht⟩
  · next hused =>
    split at h
    · next hshared =>
      obtain ⟨hlow, ht⟩ := MemState.updateZone_eq_some h
      exact Or.inr (Or.inl ⟨hused, hshared, hlow, ht⟩)
    · next hplain =>
      rw [not_or] at hplain
      exact Or.inr (Or.inr ⟨hused, hplain.1, hplain.2, (Option.some.inj h).symm⟩)

/-- **What `page_clean` can do.** -/
theorem pageClean_cases (h : pageClean s p = some t) :
    ((s.pages p).attr = 0 ∧
      t = { s with pages := Function.update s.pages p { s.pages p with attr := 0 } }) ∨
    (Shared (s.pages p).attr ∧ (s.pages p).refCnt = 1 ∧
      ((s.pages p).zoneStruct = none → s.lowMapped = true) ∧
      t = { s with
        pages := Function.update s.pages p { s.pages p with attr := 0, refCnt := 0 }
        zones := bumpZone s.zones (fun z => z.unlink.release) (s.pages p).zoneStruct }) ∨
    (Shared (s.pages p).attr ∧ (s.pages p).refCnt ≠ 1 ∧
      ((s.pages p).zoneStruct = none → s.lowMapped = true) ∧
      t = { s with
        pages := Function.update s.pages p
          { s.pages p with refCnt := (s.pages p).refCnt - 1 }
        zones := bumpZone s.zones Zone.unlink (s.pages p).zoneStruct }) ∨
    ((s.pages p).attr ≠ 0 ∧ ¬ Shared (s.pages p).attr ∧
      ((s.pages p).zoneStruct = none → s.lowMapped = true) ∧
      t = { s with
        bits := s.bits.clear (pageNo (s.pages p).phyAddr)
        pages := Function.update s.pages p { s.pages p with attr := 0, refCnt := 0 }
        zones := bumpZone s.zones (fun z => z.release.unlink) (s.pages p).zoneStruct }) := by
  simp only [pageClean] at h
  split at h
  · next hfree => exact Or.inl ⟨hfree, (Option.some.inj h).symm⟩
  · next hused =>
    split at h
    · next hshared =>
      split at h
      · next hlast =>
        obtain ⟨hlow, ht⟩ := MemState.updateZone_eq_some h
        rw [hlast] at ht
        exact Or.inr (Or.inl ⟨hshared, sub_one_eq_zero_iff.mp hlast, hlow, ht⟩)
      · next hmore =>
        obtain ⟨hlow, ht⟩ := MemState.updateZone_eq_some h
        exact Or.inr (Or.inr (Or.inl
          ⟨hshared, fun hone => hmore (sub_one_eq_zero_iff.mpr hone), hlow, ht⟩))
    · next hplain =>
      obtain ⟨hlow, ht⟩ := MemState.updateZone_eq_some h
      exact Or.inr (Or.inr (Or.inr ⟨hused, hplain, hlow, ht⟩))

/-! ## What no call changes -/

/-- The descriptor, the zone indices, the extent of each zone and where each page struct points
are the same in both states. -/
structure SameLayout (s t : MemState) : Prop where
  desc : t.desc = s.desc
  gZoneDma : t.gZoneDma = s.gZoneDma
  gZoneNormal : t.gZoneNormal = s.gZoneNormal
  gZoneUnmapped : t.gZoneUnmapped = s.gZoneUnmapped
  lowMapped : t.lowMapped = s.lowMapped
  zoneStartAddr : ∀ z, (t.zones z).zoneStartAddr = (s.zones z).zoneStartAddr
  zoneEndAddr : ∀ z, (t.zones z).zoneEndAddr = (s.zones z).zoneEndAddr
  pageLen : ∀ z, (t.zones z).pageLen = (s.zones z).pageLen
  zoneStruct : ∀ x, (t.pages x).zoneStruct = (s.pages x).zoneStruct
  phyAddr : ∀ x, (t.pages x).phyAddr = (s.pages x).phyAddr

namespace SameLayout

theorem refl (s : MemState) : SameLayout s s :=
  ⟨rfl, rfl, rfl, rfl, rfl, fun _ => rfl, fun _ => rfl, fun _ => rfl, fun _ => rfl, fun _ => rfl⟩

theorem trans (h : SameLayout s t) (h' : SameLayout t u) : SameLayout s u where
  desc := h'.desc.trans h.desc
  gZoneDma := h'.gZoneDma.trans h.gZoneDma
  gZoneNormal := h'.gZoneNormal.trans h.gZoneNormal
  gZoneUnmapped := h'.gZoneUnmapped.trans h.gZoneUnmapped
  lowMapped := h'.lowMapped.trans h.lowMapped
  zoneStartAddr z := (h'.zoneStartAddr z).trans (h.zoneStartAddr z)
  zoneEndAddr z := (h'.zoneEndAddr z).trans (h.zoneEndAddr z)
  pageLen z := (h'.pageLen z).trans (h.pageLen z)
  zoneStruct x := (h'.zoneStruct x).trans (h.zoneStruct x)
  phyAddr x := (h'.phyAddr x).trans (h.phyAddr x)

theorem startPage (h : SameLayout s t) (z : ℕ) : (t.zones z).startPage = (s.zones z).startPage := by
  rw [Zone.startPage, h.zoneStartAddr, Zone.startPage]

theorem endPage (h : SameLayout s t) (z : ℕ) : (t.zones z).endPage = (s.zones z).endPage := by
  rw [Zone.endPage, h.zoneEndAddr, Zone.endPage]

theorem owns (h : SameLayout s t) {z x : ℕ} : (t.zones z).Owns x ↔ (s.zones z).Owns x := by
  rw [Zone.Owns, h.startPage, h.endPage, Zone.Owns]

end SameLayout

/-- A change of one page struct that keeps its pointers, and a bump of zone counters, keep the
layout. -/
theorem sameLayout_of_update (zp : Option ℕ) {bits : Bitmap} {pg : Page} {f : Zone → Zone}
    (hz : pg.zoneStruct = (s.pages p).zoneStruct) (hp : pg.phyAddr = (s.pages p).phyAddr)
    (hf : ∀ z, (f z).zoneStartAddr = z.zoneStartAddr ∧ (f z).zoneEndAddr = z.zoneEndAddr ∧
      (f z).pageLen = z.pageLen) :
    SameLayout s { s with
      bits := bits, pages := Function.update s.pages p pg, zones := bumpZone s.zones f zp } := by
  have hzone : ∀ y, bumpZone s.zones f zp y = s.zones y ∨
      bumpZone s.zones f zp y = f (s.zones y) := by
    intro y
    cases zp with
    | none => exact Or.inl rfl
    | some w =>
      by_cases hy : y = w
      · subst hy
        exact Or.inr (Function.update_self ..)
      · exact Or.inl (Function.update_of_ne hy ..)
  have hpage : ∀ y, (Function.update s.pages p pg y).zoneStruct = (s.pages y).zoneStruct ∧
      (Function.update s.pages p pg y).phyAddr = (s.pages y).phyAddr := by
    intro y
    by_cases hy : y = p
    · subst hy
      rw [Function.update_self]
      exact ⟨hz, hp⟩
    · rw [Function.update_of_ne hy]
      exact ⟨rfl, rfl⟩
  refine ⟨rfl, rfl, rfl, rfl, rfl, fun y => ?_, fun y => ?_, fun y => ?_,
    fun y => (hpage y).1, fun y => (hpage y).2⟩
  · rcases hzone y with h | h
    · exact congrArg Zone.zoneStartAddr h
    · exact (congrArg Zone.zoneStartAddr h).trans (hf _).1
  · rcases hzone y with h | h
    · exact congrArg Zone.zoneEndAddr h
    · exact (congrArg Zone.zoneEndAddr h).trans (hf _).2.1
  · rcases hzone y with h | h
    · exact congrArg Zone.pageLen h
    · exact (congrArg Zone.pageLen h).trans (hf _).2.2

theorem pageInit_sameLayout (h : pageInit s p flags = some t) : SameLayout s t := by
  rcases pageInit_cases h with ⟨-, -, rfl⟩ | ⟨-, -, -, rfl⟩ | ⟨-, -, -, rfl⟩
  · exact sameLayout_of_update _ rfl rfl fun _ => ⟨rfl, rfl, rfl⟩
  · exact sameLayout_of_update _ rfl rfl fun _ => ⟨rfl, rfl, rfl⟩
  · exact sameLayout_of_update none (f := id) rfl rfl fun _ => ⟨rfl, rfl, rfl⟩

theorem pageClean_sameLayout (h : pageClean s p = some t) : SameLayout s t := by
  rcases pageClean_cases h with ⟨-, rfl⟩ | ⟨-, -, -, rfl⟩ | ⟨-, -, -, rfl⟩ | ⟨-, -, -, rfl⟩
  · exact sameLayout_of_update none (f := id) rfl rfl fun _ => ⟨rfl, rfl, rfl⟩
  all_goals exact sameLayout_of_update _ rfl rfl fun _ => ⟨rfl, rfl, rfl⟩

/-- `page_init` writes no page struct but its own. -/
theorem pageInit_pages_of_ne (h : pageInit s p flags = some t) (hx : x ≠ p) :
    t.pages x = s.pages x := by
  rcases pageInit_cases h with ⟨-, -, rfl⟩ | ⟨-, -, -, rfl⟩ | ⟨-, -, -, rfl⟩ <;>
    exact Function.update_of_ne hx ..

/-- `page_init` clears no bit. -/
theorem pageInit_bit_of_set (h : pageInit s p flags = some t) (hx : s.bits.bit x = true) :
    t.bits.bit x = true := by
  rcases pageInit_cases h with ⟨-, -, rfl⟩ | ⟨-, -, -, rfl⟩ | ⟨-, -, -, rfl⟩
  · simp [hx]
  · exact hx
  · simp [hx]

/-- `page_init` sets no bit but the one of its page's address. -/
theorem pageInit_bit_of_ne (h : pageInit s p flags = some t)
    (hx : x ≠ pageNo (s.pages p).phyAddr) : t.bits.bit x = s.bits.bit x := by
  rcases pageInit_cases h with ⟨-, -, rfl⟩ | ⟨-, -, -, rfl⟩ | ⟨-, -, -, rfl⟩
  · simp [hx]
  · rfl
  · simp [hx]

/-- `page_init` returns when the page's zone pointer can be followed. -/
theorem exists_pageInit (flags : BitVec 64)
    (h : (s.pages p).zoneStruct = none → s.lowMapped = true) :
    ∃ t, pageInit s p flags = some t := by
  have hzone : ∀ (u : MemState) (f : Zone → Zone), u.lowMapped = s.lowMapped →
      ∃ t, u.updateZone (s.pages p).zoneStruct f = some t := by
    intro u f hu
    refine ⟨_, if_neg ?_⟩
    rintro ⟨hnone, hlow⟩
    rw [hu, h hnone] at hlow
    exact Bool.noConfusion hlow
  simp only [pageInit]
  split
  · exact hzone _ _ rfl
  · split
    · exact hzone _ _ rfl
    · exact ⟨_, rfl⟩

/-! ## Page structs and their zones -/

/-- The page structs of every zone point to it and hold their own addresses. -/
structure Zoned (s : MemState) : Prop where
  zoneStruct : ∀ z < s.desc.zonesSize, ∀ x, (s.zones z).Owns x → (s.pages x).zoneStruct = some z
  phyAddr : ∀ z < s.desc.zonesSize, ∀ x, (s.zones z).Owns x → (s.pages x).phyAddr = pageAddr x

/-- A page that a zone owns has a page number that fits an address. -/
theorem Zone.Owns.lt {zn : Zone} (h : zn.Owns x) : x < 2 ^ 43 :=
  lt_trans h.2 (pageNo_lt _)

namespace Zoned

theorem of_sameLayout (hs : Zoned s) (h : SameLayout s t) : Zoned t where
  zoneStruct z hz x hx := by
    rw [h.zoneStruct]
    exact hs.zoneStruct z (h.desc ▸ hz) x (h.owns.mp hx)
  phyAddr z hz x hx := by
    rw [h.phyAddr]
    exact hs.phyAddr z (h.desc ▸ hz) x (h.owns.mp hx)

/-- A page belongs to no zone but its own. -/
theorem not_owns (hs : Zoned s) {z' : ℕ} (hz : z < s.desc.zonesSize)
    (hz' : z' < s.desc.zonesSize) (hx : (s.zones z).Owns x) (hne : z' ≠ z) :
    ¬ (s.zones z').Owns x := by
  intro hx'
  have h := (hs.zoneStruct z' hz' x hx').symm.trans (hs.zoneStruct z hz x hx)
  exact hne (Option.some.inj h)

/-- The bit `page_init` sets for a page of a zone is the page's own. -/
theorem pageNo_phyAddr (hs : Zoned s) (hz : z < s.desc.zonesSize) (hx : (s.zones z).Owns x) :
    pageNo (s.pages x).phyAddr = x := by
  rw [hs.phyAddr z hz x hx, pageNo_pageAddr hx.lt]

end Zoned

/-! ## A run of page structs -/

/-- `page_init` on the page structs of a list, one after the other. -/
def pageInits (flags : BitVec 64) (s : MemState) : List ℕ → Option MemState
  | [] => some s
  | p :: ps => (pageInit s p flags).bind fun t => pageInits flags t ps

variable {ps : List ℕ}

theorem pageInits_cons :
    pageInits flags s (p :: ps) = some t ↔
      ∃ u, pageInit s p flags = some u ∧ pageInits flags u ps = some t :=
  Option.bind_eq_some_iff

/-- **The rule of the loop**: what every turn keeps, the loop keeps. -/
theorem pageInits_invariant {P : MemState → Prop}
    (hstep : ∀ s t, ∀ p ∈ ps, P s → pageInit s p flags = some t → P t)
    (h : pageInits flags s ps = some t) (h0 : P s) : P t := by
  induction ps generalizing s with
  | nil =>
    obtain rfl := Option.some.inj h
    exact h0
  | cons p ps ih =>
    obtain ⟨u, hu, ht⟩ := pageInits_cons.mp h
    exact ih (fun s t q hq => hstep s t q (List.mem_cons_of_mem _ hq)) ht
      (hstep s u p List.mem_cons_self h0 hu)

theorem pageInits_sameLayout (h : pageInits flags s ps = some t) : SameLayout s t :=
  pageInits_invariant (P := SameLayout s) (fun _ _ _ _ hs hu => hs.trans (pageInit_sameLayout hu))
    h (SameLayout.refl s)

theorem pageInits_bit_of_set (h : pageInits flags s ps = some t) (hx : s.bits.bit x = true) :
    t.bits.bit x = true :=
  pageInits_invariant (P := fun s => s.bits.bit x = true)
    (fun _ _ _ _ hs hu => pageInit_bit_of_set hu hs) h hx

/-- The loop returns when every zone pointer can be followed. -/
theorem exists_pageInits (flags : BitVec 64) (ps : List ℕ)
    (h : ∀ p ∈ ps, (s.pages p).zoneStruct = none → s.lowMapped = true) :
    ∃ t, pageInits flags s ps = some t := by
  induction ps generalizing s with
  | nil => exact ⟨s, rfl⟩
  | cons p ps ih =>
    obtain ⟨u, hu⟩ := exists_pageInit flags (h p List.mem_cons_self)
    have hlay := pageInit_sameLayout hu
    obtain ⟨t, ht⟩ := ih (s := u) fun q hq hnone => by
      rw [hlay.lowMapped]
      exact h q (List.mem_cons_of_mem _ hq) (hlay.zoneStruct q ▸ hnone)
    exact ⟨t, pageInits_cons.mpr ⟨u, hu, ht⟩⟩

end Memory
end OSLib
