import OSLib.Memory.Handout
import OSLib.Memory.ZoneLoop

/-!
# The free counter of a zone

`alloc_pages` skips a zone whose `page_free_cnt` is too small, so the counter should be the number
of clear bits among the pages of the zone.  `page_init` keeps the two in step for a page of a zone:
it sets the page's bit and moves the counter of the zone the page struct points to
(`Counted.pageInit`).

## After `init_memory`

What breaks them apart is a page struct that points to a zone its page is not in.  `init_memory`
makes one: it attaches page 0 to zone 0 and then reserves it, which takes one from the counter of
zone 0 and sets a bit that zone 0 need not have.  From then on the counter is one too small
(`ShortByOne`), and the pages that the kernel takes behind page 0 do not mend it.  So the counters
are right after `init_memory` exactly when zone 0 starts at page 0 (`ZeroBased`), or there is no
zone at all.

Where the kernel ends behind the last page of the bitmap, it takes page structs behind their array.
Nobody has cleared these, and `ZeroTail` asks that they were zero; what `page_init` does to a struct
of arbitrary bytes says nothing about the counters.

## In a run

A call takes the moved run of `Places.lean`, and two things can go wrong with a page struct of it.
It may lie behind the bitmap, where `page_init` follows whatever zone pointer it finds.  Or its page
may be free although its bit is set, or in use although it is clear, and the counter moves without a
bit.  In a run whose calls all have flags the second does not happen: a page that is taken keeps an
attribute other than 0 (`Tidy`).  Calls without flags take a page and leave it as free as it was,
and for these the bits are asked for call by call.
-/

namespace OSLib
namespace Memory

variable {s t u : MemState} {p x z : ℕ} {flags : BitVec 64} {ps : List ℕ} {b : Boot}

/-- **The counters are right**: `page_free_cnt` of every zone is the number of clear bits among its
own pages. -/
def FreeCounted (s : MemState) : Prop :=
  ∀ z < s.desc.zonesSize, (s.zones z).pageFreeCnt.toNat =
    s.bits.clearCount (s.zones z).startPage (s.zones z).endPage

instance (s : MemState) : Decidable (FreeCounted s) := by unfold FreeCounted; infer_instance

/-- The counters are right, and the clear bits of a zone belong to free page structs of the zone. -/
structure Counted (s : MemState) : Prop extends Zoned s where
  attr : ∀ z < s.desc.zonesSize, ∀ x, (s.zones z).Owns x → s.bits.bit x = false →
    (s.pages x).attr = 0
  cnt : FreeCounted s

/-- A page struct that `page_init` keeps the counters right for: one of a zone, free only if its bit
is clear; or one of no zone, with the address 0 of a page that has its bit set already. -/
def Balanced (s : MemState) (p : ℕ) : Prop :=
  (∃ z < s.desc.zonesSize, (s.zones z).Owns p ∧
    ((s.pages p).attr = 0 → s.bits.bit p = false)) ∨
  ((∀ z < s.desc.zonesSize, ¬ (s.zones z).Owns p) ∧ (s.pages p).zoneStruct = none ∧
    (s.pages p).phyAddr = 0 ∧ s.bits.bit 0 = true)

/-! ## One page struct -/

/-- Taking a page of a zone. -/
theorem Counted.pageInit_owned (hs : Counted s) (hz : z < s.desc.zonesSize)
    (hp : (s.zones z).Owns p) (hfree : (s.pages p).attr = 0 → s.bits.bit p = false)
    (h : pageInit s p flags = some t) : Counted t := by
  have hlay := pageInit_sameLayout h
  have hzs := hs.zoneStruct z hz p hp
  have hpage := hs.toZoned.pageNo_phyAddr hz hp
  -- whatever the branch, the bit of `p` is set afterwards
  have hself : t.bits.bit p = true := by
    rcases pageInit_cases h with ⟨-, -, rfl⟩ | ⟨hused, -, -, rfl⟩ | ⟨-, -, -, rfl⟩
    · simp [hpage]
    · by_contra hclear
      exact hused (hs.attr z hz p hp (by simpa using hclear))
    · simp [hpage]
  refine ⟨hs.toZoned.of_sameLayout hlay, fun y hy x hx hclear => ?_, fun y hy => ?_⟩
  · have hne : x ≠ p := by
      rintro rfl
      rw [hself] at hclear
      exact Bool.noConfusion hclear
    rw [pageInit_pages_of_ne h hne]
    rw [pageInit_bit_of_ne h (by rwa [hpage])] at hclear
    exact hs.attr y (hlay.desc ▸ hy) x (hlay.owns.mp hx) hclear
  · have hy : y < s.desc.zonesSize := hlay.desc ▸ hy
    have hcnt := hs.cnt y hy
    rw [hlay.startPage, hlay.endPage]
    rcases pageInit_cases h with ⟨hattr, -, rfl⟩ | ⟨-, -, -, rfl⟩ | ⟨hused, -, -, rfl⟩
    · -- a free page of zone `z` is taken
      simp only [hpage, hzs, bumpZone]
      have hclear := hfree hattr
      by_cases hyz : y = z
      · subst hyz
        have hset := Bitmap.clearCount_set_of_clear hp hclear
        simp only [Function.update_self, Zone.take]
        rw [BitVec.toNat_sub, show (1 : BitVec 64).toNat = 1 from rfl]
        have := (s.zones y).pageFreeCnt.isLt
        omega
      · rw [Function.update_of_ne hyz,
          Bitmap.clearCount_set_of_not_mem (hs.toZoned.not_owns hz hy hp hyz)]
        exact hcnt
    · -- only the link counter moves
      simp only [hzs, bumpZone]
      by_cases hyz : y = z
      · subst hyz
        rw [Function.update_self]
        exact hcnt
      · rw [Function.update_of_ne hyz]
        exact hcnt
    · -- the bit of a page in use is set already
      have hset : s.bits.bit p = true := by
        by_contra hclear
        exact hused (hs.attr z hz p hp (by simpa using hclear))
      simp only [hpage]
      rw [Bitmap.clearCount_set_of_set hset]
      exact hcnt

/-- Taking a page struct of no zone: it counts for nothing, and marks page 0. -/
theorem Counted.pageInit_unowned (hs : Counted s)
    (hp : ∀ z < s.desc.zonesSize, ¬ (s.zones z).Owns p)
    (hnone : (s.pages p).zoneStruct = none) (hphy : (s.pages p).phyAddr = 0)
    (h0 : s.bits.bit 0 = true) (h : pageInit s p flags = some t) : Counted t := by
  have hlay := pageInit_sameLayout h
  have hpage : pageNo (s.pages p).phyAddr = 0 := by rw [hphy]; rfl
  have hbits : ∀ x, t.bits.bit x = s.bits.bit x := by
    intro x
    by_cases hx : x = 0
    · rw [hx, h0, pageInit_bit_of_set h h0]
    · exact pageInit_bit_of_ne h (by rwa [hpage])
  have hzones : t.zones = s.zones := by
    rcases pageInit_cases h with ⟨-, -, rfl⟩ | ⟨-, -, -, rfl⟩ | ⟨-, -, -, rfl⟩ <;>
      simp only [hnone, bumpZone]
  refine ⟨hs.toZoned.of_sameLayout hlay, fun y hy x hx hclear => ?_, fun y hy => ?_⟩
  · have hy : y < s.desc.zonesSize := hlay.desc ▸ hy
    have hx := hlay.owns.mp hx
    rw [pageInit_pages_of_ne h (by rintro rfl; exact hp y hy hx)]
    exact hs.attr y hy x hx (by rwa [hbits] at hclear)
  · rw [hzones, Bitmap.clearCount_congr fun x _ _ => hbits x]
    exact hs.cnt y (hlay.desc ▸ hy)

theorem Counted.pageInit (hs : Counted s) (hp : Balanced s p) (h : pageInit s p flags = some t) :
    Counted t := by
  rcases hp with ⟨z, hz, howns, hfree⟩ | ⟨hno, hnone, hphy, h0⟩
  · exact hs.pageInit_owned hz howns hfree h
  · exact hs.pageInit_unowned hno hnone hphy h0 h

/-- Taking one page struct leaves the others as they were. -/
theorem Balanced.of_pageInit (hs : Counted s) (hp : Balanced s p) (hne : x ≠ p)
    (hx : Balanced s x) (h : Memory.pageInit s p flags = some t) : Balanced t x := by
  have hlay := pageInit_sameLayout h
  have hpages := pageInit_pages_of_ne h hne
  rcases hx with ⟨z, hz, howns, hfree⟩ | ⟨hno, hnone, hphy, h0⟩
  · refine Or.inl ⟨z, hlay.desc ▸ hz, hlay.owns.mpr howns, fun hattr => ?_⟩
    rw [hpages] at hattr
    have hclear := hfree hattr
    rw [pageInit_bit_of_ne h ?_]
    · exact hclear
    · rcases hp with ⟨y, hy, hp, -⟩ | ⟨-, -, hphy, h0⟩
      · rwa [hs.toZoned.pageNo_phyAddr hy hp]
      · rw [hphy]
        rintro rfl
        rw [show pageNo 0 = 0 from rfl, h0] at hclear
        exact Bool.noConfusion hclear
  · refine Or.inr ⟨fun z hz howns => hno z (hlay.desc ▸ hz) (hlay.owns.mp howns), ?_, ?_,
      pageInit_bit_of_set h h0⟩
    · rw [hpages, hnone]
    · rw [hpages, hphy]

/-- **The loop keeps the counters right** for page structs that are all different. -/
theorem Counted.pageInits (hs : Counted s) (hnodup : ps.Nodup) (hps : ∀ p ∈ ps, Balanced s p)
    (h : pageInits flags s ps = some t) : Counted t := by
  induction ps generalizing s with
  | nil =>
    obtain rfl := Option.some.inj h
    exact hs
  | cons p ps ih =>
    obtain ⟨u, hu, ht⟩ := pageInits_cons.mp h
    obtain ⟨hnotin, hnodup⟩ := List.nodup_cons.mp hnodup
    have hp := hps p List.mem_cons_self
    refine ih (hs.pageInit hp hu) hnodup (fun x hx => ?_) ht
    exact hp.of_pageInit hs (by rintro rfl; exact hnotin hx) (hps x (List.mem_cons_of_mem _ hx)) hu

/-! ## Pages given away -/

/-- The counters are right, and a page of a zone that is not in use has a clear bit. -/
structure Tidy (s : MemState) : Prop extends Counted s where
  free : ∀ z < s.desc.zonesSize, ∀ x, (s.zones z).Owns x → (s.pages x).attr = 0 →
    s.bits.bit x = false

/-- Taking a page struct with flags leaves the others as tidy as they were. -/
theorem Tidy.pageInit (hs : Tidy s) (hp : Balanced s p) (hflags : flags ≠ 0)
    (h : pageInit s p flags = some t) : Tidy t := by
  have hlay := pageInit_sameLayout h
  refine ⟨hs.toCounted.pageInit hp h, fun z hz x hx hattr => ?_⟩
  have hz : z < s.desc.zonesSize := hlay.desc ▸ hz
  have hx := hlay.owns.mp hx
  have hne : x ≠ p := by
    rintro rfl
    exact pageInit_attr_self h hflags hattr
  rw [pageInit_pages_of_ne h hne] at hattr
  have hclear := hs.free z hz x hx hattr
  rw [pageInit_bit_of_ne h ?_]
  · exact hclear
  · -- the bit set is that of `p`, or that of page 0, which was set already
    rcases hp with ⟨y, hy, hp, -⟩ | ⟨-, -, hphy, h0⟩
    · rwa [hs.toZoned.pageNo_phyAddr hy hp]
    · rw [hphy]
      rintro rfl
      rw [show pageNo 0 = 0 from rfl, h0] at hclear
      exact Bool.noConfusion hclear

/-- In a tidy state every page struct of a zone is one that keeps the counters right. -/
theorem Tidy.balanced (hs : Tidy s) (h : (∃ z < s.desc.zonesSize, (s.zones z).Owns x) ∨
    (s.pages x).zoneStruct = none ∧ (s.pages x).phyAddr = 0 ∧ s.bits.bit 0 = true) :
    Balanced s x := by
  by_cases hown : ∃ z < s.desc.zonesSize, (s.zones z).Owns x
  · obtain ⟨z, hz, hx⟩ := hown
    exact Or.inl ⟨z, hz, hx, hs.free z hz x hx⟩
  · exact Or.inr ⟨fun z hz hx => hown ⟨z, hz, hx⟩, h.resolve_left hown⟩

/-- **The loop keeps a state tidy.** -/
theorem Tidy.pageInits (hs : Tidy s) (hflags : flags ≠ 0)
    (hps : ∀ p ∈ ps, (∃ z < s.desc.zonesSize, (s.zones z).Owns p) ∨
      (s.pages p).zoneStruct = none ∧ (s.pages p).phyAddr = 0 ∧ s.bits.bit 0 = true)
    (h : pageInits flags s ps = some t) : Tidy t := by
  induction ps generalizing s with
  | nil =>
    obtain rfl := Option.some.inj h
    exact hs
  | cons p ps ih =>
    obtain ⟨u, hu, ht⟩ := pageInits_cons.mp h
    have hlay := pageInit_sameLayout hu
    refine ih (hs.pageInit (hs.balanced (hps p List.mem_cons_self)) hflags hu) (fun x hx => ?_) ht
    refine (hps x (List.mem_cons_of_mem _ hx)).imp ?_ ?_
    · rintro ⟨z, hz, hown⟩
      exact ⟨z, hlay.desc ▸ hz, hlay.owns.mpr hown⟩
    · rintro ⟨hnone, hphy, h0⟩
      rw [hlay.zoneStruct, hlay.phyAddr]
      exact ⟨hnone, hphy, pageInit_bit_of_set hu h0⟩

/-! ## After `init_memory` -/

/-- Zone 0, if there is a zone, starts at page 0. -/
def ZeroBased (b : Boot) : Prop := ∀ e ∈ (zoneEntries (e820Scan b.slots))[0]?, e.startPage = 0

instance (b : Boot) : Decidable (ZeroBased b) := by unfold ZeroBased; infer_instance

/-- The page structs behind the array that `init_memory` takes for the kernel, where the kernel ends
behind the last page of the bitmap, were zero before. -/
def ZeroTail (b : Boot) : Prop :=
  ∀ x, (initDesc b).bitsSize ≤ x → x ≤ lastKernelPage (beforeReserve b) → b.pages x = Page.zero

/-- The pages of the zones before the kernel takes its own, but for page 0. -/
theorem SoundMap.page_beforeReserve (hmap : SoundMap (e820Scan b.slots))
    (hz : z < (beforeReserve b).desc.zonesSize) (hx : ((beforeReserve b).zones z).Owns x)
    (hx0 : x ≠ 0) :
    (beforeReserve b).pages x = freshPage z x ∧ (beforeReserve b).bits.bit x = false := by
  have htab := hmap.zoneTable
  have hz : z < (zoneEntries (e820Scan b.slots)).length := htab.size ▸ hz
  have he := List.getElem?_eq_getElem hz
  have hown : (zoneEntries (e820Scan b.slots))[z].startPage ≤ x ∧
      x < (zoneEntries (e820Scan b.slots))[z].endPage := by
    rw [← E820.zone_owns, ← htab.zone z _ he]
    exact hx
  obtain ⟨hpage, hbit⟩ := htab.page z _ he x hown.1 hown.2
  exact ⟨(Function.update_of_ne hx0 ..).trans hpage, hbit⟩

/-- The first zone before the kernel takes its pages. -/
theorem SoundMap.zone_zero (hmap : SoundMap (e820Scan b.slots))
    (h : zoneEntries (e820Scan b.slots) ≠ []) :
    ∃ e, (zoneEntries (e820Scan b.slots))[0]? = some e ∧ e.HasPages ∧
      0 < (beforeReserve b).desc.zonesSize ∧ (beforeReserve b).zones 0 = e.zone := by
  have hlen := List.length_pos_iff.mpr h
  have he := List.getElem?_eq_getElem hlen
  refine ⟨_, he, (mem_zoneEntries.mp (List.getElem_mem hlen)).2, ?_, hmap.zoneTable.zone 0 _ he⟩
  have hsize : (beforeReserve b).desc.zonesSize = _ := hmap.zoneTable.size
  rwa [hsize]

/-- If zone 0 starts at page 0, that page is as the other ones. -/
theorem ZeroBased.page_beforeReserve (hb : ZeroBased b) (hmap : SoundMap (e820Scan b.slots))
    (hz : z < (beforeReserve b).desc.zonesSize) (hx : ((beforeReserve b).zones z).Owns x) :
    (beforeReserve b).pages x = freshPage z x ∧ (beforeReserve b).bits.bit x = false := by
  by_cases hx0 : x = 0
  · -- page 0 is in zone 0, and so `z` is 0
    subst hx0
    have hsize : (beforeReserve b).desc.zonesSize = _ := hmap.zoneTable.size
    have hne : zoneEntries (e820Scan b.slots) ≠ [] := List.length_pos_iff.mp (by omega)
    obtain ⟨e, he, hpages, hpos, hzone⟩ := hmap.zone_zero hne
    have hown : ((beforeReserve b).zones 0).Owns 0 := by
      rw [hzone, E820.zone_owns, hb e he]
      exact ⟨le_rfl, by have := hpages.2; omega⟩
    have htab := hmap.zoneTable
    have hz : z < (zoneEntries (e820Scan b.slots)).length := htab.size ▸ hz
    have hez := List.getElem?_eq_getElem hz
    have hzone' : (beforeReserve b).zones z = _ := htab.zone z _ hez
    rw [hzone', E820.zone_owns] at hx
    rw [hzone, E820.zone_owns] at hown
    obtain ⟨hpage, hbit⟩ := htab.page z _ hez 0 hx.1 hx.2
    have hzero : z = 0 := Option.some.inj (congrArg Page.zoneStruct
      (hpage.symm.trans (htab.page 0 e he 0 hown.1 hown.2).1))
    refine ⟨?_, hbit⟩
    rw [hzero]
    rfl
  · exact hmap.page_beforeReserve hz hx hx0

/-- The page structs outside the zones are zero. -/
theorem SoundMap.page_of_not_owns (hmap : SoundMap (e820Scan b.slots))
    (hno : ∀ z < (beforeReserve b).desc.zonesSize, ¬ ((beforeReserve b).zones z).Owns x)
    (hx0 : x ≠ 0) (hzero : x < (initDesc b).bitsSize ∨ b.pages x = Page.zero) :
    (beforeReserve b).pages x = Page.zero := by
  have htab := hmap.zoneTable
  have hout := (htab.outside x fun e he hx => ?_).1
  · refine (Function.update_of_ne hx0 ..).trans (hout.trans ?_)
    show (if x < (initDesc b).bitsSize then Page.zero else b.pages x) = Page.zero
    split
    · rfl
    · next hge => exact hzero.resolve_left hge
  · obtain ⟨z, hz, rfl⟩ := List.getElem_of_mem he
    refine hno z (htab.size ▸ hz) ?_
    have hzone : (beforeReserve b).zones z = _ := htab.zone z _ (List.getElem?_eq_getElem hz)
    rw [hzone, E820.zone_owns]
    exact hx

theorem ZeroBased.tidy_beforeReserve (hb : ZeroBased b) (hmap : SoundMap (e820Scan b.slots)) :
    Tidy (beforeReserve b) where
  zoneStruct z hz x hx := by rw [(hb.page_beforeReserve hmap hz hx).1]; rfl
  phyAddr z hz x hx := by rw [(hb.page_beforeReserve hmap hz hx).1]; rfl
  attr z hz x hx _ := by rw [(hb.page_beforeReserve hmap hz hx).1]; rfl
  free z hz x hx _ := (hb.page_beforeReserve hmap hz hx).2
  cnt z hz := by
    have hclear := Bitmap.clearCount_eq_of_clear
      fun x h1 h2 => (hb.page_beforeReserve (x := x) hmap hz ⟨h1, h2⟩).2
    rw [hclear]
    have hz : z < (zoneEntries (e820Scan b.slots)).length := hmap.zoneTable.size ▸ hz
    have hzone : (beforeReserve b).zones z = _ :=
      hmap.zoneTable.zone z _ (List.getElem?_eq_getElem hz)
    rw [hzone, E820.zone_startPage, E820.zone_endPage]
    exact (mem_zoneEntries.mp (List.getElem_mem hz)).2.toNat_pageFreeCnt

/-- What the runs start from: a tidy state with the bit of page 0 set, in which the page structs of
no zone are those the array was filled with. -/
structure Steady (s : MemState) : Prop extends Counted s where
  bit0 : s.bits.bit 0 = true
  unowned : ∀ x < s.desc.bitsSize, (∀ z < s.desc.zonesSize, ¬ (s.zones z).Owns x) →
    (s.pages x).zoneStruct = none ∧ (s.pages x).phyAddr = 0

/-- **The counters are right after `init_memory`**, when the memory map is sound and zone 0 starts
at page 0. -/
theorem ZeroBased.steady_initMemory (hb : ZeroBased b) (hmap : SoundMap (e820Scan b.slots))
    (hne : zoneEntries (e820Scan b.slots) ≠ []) (htail : ZeroTail b) (h : initMemory b = some s) :
    Tidy s ∧ Steady s := by
  obtain ⟨t, ht, rfl⟩ := initMemory_eq_some_iff.mp h
  have hlay := pageInits_sameLayout ht
  have hs := hb.tidy_beforeReserve hmap
  obtain ⟨e, he, hpages, hpos, hzone⟩ := hmap.zone_zero hne
  have hown0 : ((beforeReserve b).zones 0).Owns 0 := by
    rw [hzone, E820.zone_owns, hb e he]
    exact ⟨le_rfl, by have := hpages.2; omega⟩
  -- the page structs of no zone, inside the array and taken for the kernel
  have hunowned : ∀ x, x < (initDesc b).bitsSize ∨ x ≤ lastKernelPage (beforeReserve b) →
      (∀ z < (beforeReserve b).desc.zonesSize, ¬ ((beforeReserve b).zones z).Owns x) →
      ((beforeReserve b).pages x).zoneStruct = none ∧ ((beforeReserve b).pages x).phyAddr = 0 := by
    intro x hx hno
    have hx0 : x ≠ 0 := by
      rintro rfl
      exact hno 0 hpos hown0
    rw [hmap.page_of_not_owns hno hx0 ?_]
    · exact ⟨rfl, rfl⟩
    · rcases Nat.lt_or_ge x (initDesc b).bitsSize with hlt | hge
      · exact .inl hlt
      · exact .inr (htail x hge (hx.resolve_left (Nat.not_lt.mpr hge)))
  -- page 0 is a page of zone 0; once it is taken the others follow
  obtain ⟨u, hu, hrest⟩ : ∃ u, pageInit (beforeReserve b) 0 kernelFlags = some u ∧
      pageInits kernelFlags u ((List.range (lastKernelPage (beforeReserve b))).map Nat.succ) =
        some t := by
    rw [List.range_succ_eq_map] at ht
    exact pageInits_cons.mp ht
  have hulay := pageInit_sameLayout hu
  have hutidy : Tidy u := hs.pageInit (hs.balanced (.inl ⟨0, hpos, hown0⟩)) (by decide) hu
  have hu0 : u.bits.bit 0 = true := by
    by_contra hclear
    rw [Bool.not_eq_true] at hclear
    have hattr := hutidy.attr 0 (hulay.desc ▸ hpos) 0 (hulay.owns.mpr hown0) hclear
    exact pageInit_attr_self hu (by decide) hattr
  have httidy : Tidy t := by
    refine hutidy.pageInits (by decide) (fun x hx => ?_) hrest
    obtain ⟨j, hj, rfl⟩ := List.mem_map.mp hx
    have hle : j.succ ≤ lastKernelPage (beforeReserve b) := List.mem_range.mp hj
    by_cases hown : ∃ z < (beforeReserve b).desc.zonesSize, ((beforeReserve b).zones z).Owns j.succ
    · obtain ⟨z, hz, hx⟩ := hown
      exact .inl ⟨z, hulay.desc ▸ hz, hulay.owns.mpr hx⟩
    · obtain ⟨hnone, hphy⟩ := hunowned j.succ (.inr hle) fun z hz hx => hown ⟨z, hz, hx⟩
      rw [hulay.zoneStruct, hulay.phyAddr]
      exact .inr ⟨hnone, hphy, hu0⟩
  have hsize : t.desc.bitsSize = (initDesc b).bitsSize := by
    rw [hlay.desc]
    exact hmap.zoneTable.bitsSize
  have htsteady : Steady t := by
    refine ⟨httidy.toCounted, pageInits_bit_of_set hrest hu0, fun x hx hno => ?_⟩
    rw [hlay.zoneStruct, hlay.phyAddr]
    refine hunowned x (.inl (hsize ▸ hx)) fun z hz hown => ?_
    exact hno z (hlay.desc ▸ hz) (hlay.owns.mpr hown)
  exact ⟨⟨⟨⟨httidy.zoneStruct, httidy.phyAddr⟩, httidy.attr, httidy.cnt⟩, httidy.free⟩,
    ⟨⟨⟨httidy.zoneStruct, httidy.phyAddr⟩, httidy.attr, httidy.cnt⟩, htsteady.bit0,
      htsteady.unowned⟩⟩

/-! ## A zone 0 that starts later -/

/-- Zone 0 counts one page less than are clear. -/
def ShortByOne (s : MemState) : Prop :=
  (s.zones 0).pageFreeCnt + 1 =
    BitVec.ofNat 64 (s.bits.clearCount (s.zones 0).startPage (s.zones 0).endPage)

/-- A page struct that belongs to zone 0 and is not in use, or has nothing to do with it. -/
def Plain (s : MemState) (p : ℕ) : Prop :=
  ((s.zones 0).Owns p ∧ (s.pages p).zoneStruct = some 0 ∧ pageNo (s.pages p).phyAddr = p ∧
    (s.pages p).attr = 0 ∧ s.bits.bit p = false) ∨
  (¬ (s.zones 0).Owns p ∧ (s.pages p).zoneStruct ≠ some 0 ∧
    ¬ (s.zones 0).Owns (pageNo (s.pages p).phyAddr))

/-- Such a page struct leaves zone 0 short by one. -/
theorem ShortByOne.pageInit (hs : ShortByOne s) (hp : Plain s p)
    (h : pageInit s p flags = some t) : ShortByOne t := by
  unfold ShortByOne at *
  have hlay := pageInit_sameLayout h
  rw [hlay.startPage, hlay.endPage]
  have hupdate : (s.pages p).zoneStruct ≠ some 0 → ∀ f,
      bumpZone s.zones f (s.pages p).zoneStruct 0 = s.zones 0 := by
    intro hne f
    cases hz : (s.pages p).zoneStruct with
    | none => rfl
    | some w => exact Function.update_of_ne (fun h0 => hne (hz.trans (congrArg some h0.symm))) ..
  rcases hp with ⟨hown, hzs, hphy, hattr, hclear⟩ | ⟨-, hzs, hphy⟩
  · rcases pageInit_cases h with ⟨-, -, rfl⟩ | ⟨hused, -⟩ | ⟨hused, -⟩
    · have hcount := Bitmap.clearCount_set_of_clear hown hclear
      simp only [hphy, hzs, bumpZone, Function.update_self, Zone.take]
      rw [← hcount, BitVec.ofNat_add] at hs
      rw [BitVec.sub_add_cancel, ← BitVec.add_left_inj 1#64]
      exact hs
    · exact absurd hattr hused
    · exact absurd hattr hused
  · rcases pageInit_cases h with ⟨-, -, rfl⟩ | ⟨-, -, -, rfl⟩ | ⟨-, -, -, rfl⟩
    · simp only [hupdate hzs, Bitmap.clearCount_set_of_not_mem hphy]
      exact hs
    · simp only [hupdate hzs]
      exact hs
    · simp only [Bitmap.clearCount_set_of_not_mem hphy]
      exact hs

/-- Taking one page struct leaves another as it was, unless it sets the bit of that page. -/
theorem Plain.of_pageInit (hx : Plain s x) (hne : x ≠ p)
    (hfar : x = pageNo (s.pages p).phyAddr → ¬ (s.zones 0).Owns x)
    (h : pageInit s p flags = some t) : Plain t x := by
  have hlay := pageInit_sameLayout h
  have hpages := pageInit_pages_of_ne h hne
  rcases hx with ⟨hown, hzs, hphy, hattr, hclear⟩ | ⟨hown, hzs, hphy⟩
  · refine .inl ⟨hlay.owns.mpr hown, ?_, ?_, ?_, ?_⟩
    · rwa [hpages]
    · rwa [hpages]
    · rwa [hpages]
    · rw [pageInit_bit_of_ne h fun heq => hfar heq hown]
      exact hclear
  · exact .inr ⟨fun hx => hown (hlay.owns.mp hx), by rwa [hpages],
      fun hx => hphy (by rw [hpages] at hx; exact hlay.owns.mp hx)⟩

/-- The bit a plain page struct sets is its own, or none of zone 0. -/
theorem Plain.far (hp : Plain s p) (hne : x ≠ p) (heq : x = pageNo (s.pages p).phyAddr) :
    ¬ (s.zones 0).Owns x := by
  rcases hp with ⟨-, -, hphy, -⟩ | ⟨-, -, hphy⟩
  · exact absurd (heq.trans hphy) hne
  · rwa [heq]

theorem ShortByOne.pageInits (hs : ShortByOne s) (hnodup : ps.Nodup) (hps : ∀ p ∈ ps, Plain s p)
    (h : pageInits flags s ps = some t) : ShortByOne t := by
  induction ps generalizing s with
  | nil =>
    obtain rfl := Option.some.inj h
    exact hs
  | cons p ps ih =>
    obtain ⟨u, hu, ht⟩ := pageInits_cons.mp h
    obtain ⟨hnotin, hnodup⟩ := List.nodup_cons.mp hnodup
    have hp := hps p List.mem_cons_self
    refine ih (hs.pageInit hp hu) hnodup (fun x hx => ?_) ht
    have hne : x ≠ p := by
      rintro rfl
      exact hnotin hx
    exact (hps x (List.mem_cons_of_mem _ hx)).of_pageInit hne (hp.far hne) hu

section LateZone

variable {e : E820}

/-- The page structs behind page 0 that the kernel takes. -/
theorem SoundMap.plain_beforeReserve (hmap : SoundMap (e820Scan b.slots))
    (he : (zoneEntries (e820Scan b.slots))[0]? = some e) (hstart : e.startPage ≠ 0)
    (htail : ZeroTail b) (hx0 : x ≠ 0) (hle : x ≤ lastKernelPage (beforeReserve b)) :
    Plain (beforeReserve b) x := by
  have hne : zoneEntries (e820Scan b.slots) ≠ [] := List.ne_nil_of_mem (List.mem_of_getElem? he)
  obtain ⟨e', he', -, hpos, hzone⟩ := hmap.zone_zero hne
  obtain rfl : e = e' := Option.some.inj (he.symm.trans he')
  by_cases hsome : ∃ z < (beforeReserve b).desc.zonesSize, ((beforeReserve b).zones z).Owns x
  · obtain ⟨z, hz, hx⟩ := hsome
    obtain ⟨hpage, hclear⟩ := hmap.page_beforeReserve hz hx hx0
    have hphy : pageNo ((beforeReserve b).pages x).phyAddr = x := by
      rw [hpage]
      exact pageNo_pageAddr hx.lt
    by_cases hz0 : z = 0
    · subst hz0
      exact .inl ⟨hx, by rw [hpage]; rfl, hphy, by rw [hpage]; rfl, hclear⟩
    · have hno : ¬ ((beforeReserve b).zones 0).Owns x := by
        intro hx'
        have hpage' := (hmap.page_beforeReserve hpos hx' hx0).1
        exact hz0 (Option.some.inj (congrArg Page.zoneStruct (hpage.symm.trans hpage')))
      refine .inr ⟨hno, ?_, by rwa [hphy]⟩
      rw [hpage]
      exact fun h0 => hz0 (Option.some.inj h0)
  · have hno : ∀ z < (beforeReserve b).desc.zonesSize,
        ¬ ((beforeReserve b).zones z).Owns x := fun z hz hx => hsome ⟨z, hz, hx⟩
    have hpage : (beforeReserve b).pages x = Page.zero := by
      refine hmap.page_of_not_owns hno hx0 ?_
      rcases Nat.lt_or_ge x (initDesc b).bitsSize with hlt | hge
      · exact .inl hlt
      · exact .inr (htail x hge hle)
    refine .inr ⟨hno 0 hpos, ?_, ?_⟩
    · rw [hpage]
      exact fun h0 => nomatch h0
    · rw [hpage, hzone, E820.zone_owns]
      exact fun h0 => hstart (Nat.le_zero.mp h0.1)

/-- Page 0 takes one from the counter of zone 0, but from none of its bits. -/
theorem SoundMap.shortByOne_pageZero (hmap : SoundMap (e820Scan b.slots))
    (he : (zoneEntries (e820Scan b.slots))[0]? = some e) (hstart : e.startPage ≠ 0)
    (h : pageInit (beforeReserve b) 0 flags = some u) : ShortByOne u := by
  have hne : zoneEntries (e820Scan b.slots) ≠ [] := List.ne_nil_of_mem (List.mem_of_getElem? he)
  obtain ⟨e', he', hpages, hpos, hzone⟩ := hmap.zone_zero hne
  obtain rfl : e = e' := Option.some.inj (he.symm.trans he')
  have hlay := pageInit_sameLayout h
  have hclear : (beforeReserve b).bits.clearCount e.startPage e.endPage =
      e.endPage - e.startPage := by
    refine Bitmap.clearCount_eq_of_clear fun x h1 h2 => ?_
    refine (hmap.page_beforeReserve hpos ?_ (by omega)).2
    rw [hzone, E820.zone_owns]
    exact ⟨h1, h2⟩
  have hout : ¬ (e.startPage ≤ pageNo 0 ∧ pageNo 0 < e.endPage) := fun h0 =>
    hstart (Nat.le_zero.mp h0.1)
  have hpage0 : (beforeReserve b).pages 0 = ⟨some 0, 0, 0, 0, 0⟩ := rfl
  rcases pageInit_cases h with ⟨-, -, heq⟩ | ⟨hused, -⟩ | ⟨hused, -⟩
  · unfold ShortByOne
    rw [hlay.startPage, hlay.endPage, hzone, E820.zone_startPage, E820.zone_endPage, heq, hpage0]
    simp only [bumpZone, Function.update_self, Zone.take]
    rw [Bitmap.clearCount_set_of_not_mem hout, hclear, hzone, BitVec.sub_add_cancel,
      ← hpages.toNat_pageFreeCnt, BitVec.ofNat_toNat, BitVec.setWidth_eq]
  · exact absurd (congrArg Page.attr hpage0) hused
  · exact absurd (congrArg Page.attr hpage0) hused

/-- **Zone 0 pays for page 0** when it does not start there: once `init_memory` has attached that
page to it and taken it, zone 0 counts one page too few. -/
theorem SoundMap.shortByOne_initMemory (hmap : SoundMap (e820Scan b.slots))
    (he : (zoneEntries (e820Scan b.slots))[0]? = some e) (hstart : e.startPage ≠ 0)
    (htail : ZeroTail b) (h : initMemory b = some s) : ShortByOne s := by
  obtain ⟨t, ht, rfl⟩ := initMemory_eq_some_iff.mp h
  obtain ⟨u, hu, hrest⟩ : ∃ u, pageInit (beforeReserve b) 0 kernelFlags = some u ∧
      pageInits kernelFlags u ((List.range (lastKernelPage (beforeReserve b))).map Nat.succ) =
        some t := by
    rw [List.range_succ_eq_map] at ht
    exact pageInits_cons.mp ht
  have hshort : ShortByOne t := by
    refine (hmap.shortByOne_pageZero he hstart hu).pageInits
      (List.Nodup.map Nat.succ_injective List.nodup_range) (fun x hx => ?_) hrest
    obtain ⟨j, hj, rfl⟩ := List.mem_map.mp hx
    have hne : j.succ ≠ 0 := Nat.succ_ne_zero j
    have hplain := hmap.plain_beforeReserve he hstart htail hne (List.mem_range.mp hj)
    have hphy : pageNo ((beforeReserve b).pages 0).phyAddr = 0 := by
      rw [show (beforeReserve b).pages 0 = ⟨some 0, 0, 0, 0, 0⟩ from rfl]
      rfl
    exact hplain.of_pageInit hne (fun h0 => absurd (h0.trans hphy) hne) hu
  exact hshort

end LateZone

theorem ShortByOne.not_freeCounted (hs : ShortByOne s) (hpos : 0 < s.desc.zonesSize) :
    ¬ FreeCounted s := by
  intro h
  have hcnt := h 0 hpos
  unfold ShortByOne at hs
  rw [← hcnt, BitVec.ofNat_toNat, BitVec.setWidth_eq] at hs
  bv_omega

/-! ## Runs of `alloc_pages` -/

/-- A run of fewer than `2 ^ 64` page structs has none twice. -/
theorem nodup_runFrom {page n : ℕ} (hn : n ≤ 2 ^ 64) : (runFrom page n).Nodup := by
  refine List.Nodup.map_on (fun l hl l' hl' h => ?_) List.nodup_range
  rw [List.mem_range] at hl hl'
  omega

/-- The page structs of the bitmap keep the counters right when those of the zones that are not in
use have a clear bit. -/
theorem Steady.balanced (hs : Steady s) (hx : x < s.desc.bitsSize)
    (hfree : ∀ z < s.desc.zonesSize, (s.zones z).Owns x → (s.pages x).attr = 0 →
      s.bits.bit x = false) : Balanced s x := by
  by_cases hown : ∃ z < s.desc.zonesSize, (s.zones z).Owns x
  · obtain ⟨z, hz, hown⟩ := hown
    exact Or.inl ⟨z, hz, hown, hfree z hz hown⟩
  · have hno : ∀ z < s.desc.zonesSize, ¬ (s.zones z).Owns x := fun z hz h => hown ⟨z, hz, h⟩
    obtain ⟨hnone, hphy⟩ := hs.unowned x hx hno
    exact Or.inr ⟨hno, hnone, hphy, hs.bit0⟩

theorem Steady.of_step {l : AllocCall × Option ℕ} (hs : Steady s) (h : AllocStep s l t)
    (ht : Counted t) : Steady t := by
  have hlay := h.sameLayout
  refine ⟨ht, h.bit_of_set hs.bit0, fun x hx hno => ?_⟩
  rw [hlay.zoneStruct, hlay.phyAddr]
  exact hs.unowned x (hlay.desc ▸ hx) fun z hz hown =>
    hno z (hlay.desc ▸ hz) (hlay.owns.mpr hown)

/-- One call, whose page structs not in use have clear bits. -/
theorem AllocStep.steady {l : AllocCall × Option ℕ} (hs : Steady s) (h : AllocStep s l t)
    (hin : l.1.MovedRun (· < s.desc.bitsSize) s)
    (hfree : l.1.MovedRun (fun x => (s.pages x).attr = 0 → s.bits.bit x = false) s) :
    Steady t := by
  refine hs.of_step h ?_
  rcases h.cases with ⟨-, -, rfl⟩ | ⟨q, hq, -, ht⟩
  · exact hs.toCounted
  · refine hs.toCounted.pageInits (nodup_runFrom (BitVec.isLt _).le) (fun x hx => ?_) ht
    exact hs.balanced (AllocCall.movedRun_iff.mp hin q hq x hx)
      fun _ _ _ => AllocCall.movedRun_iff.mp hfree q hq x hx

/-- One call with flags, in a tidy state. -/
theorem AllocStep.tidy {l : AllocCall × Option ℕ} (hs : Tidy s ∧ Steady s) (h : AllocStep s l t)
    (hin : l.1.MovedRun (· < s.desc.bitsSize) s) (hflags : l.1.pageFlags ≠ 0) :
    Tidy t ∧ Steady t := by
  have ht : Tidy t := by
    rcases h.cases with ⟨-, -, rfl⟩ | ⟨q, hq, -, ht⟩
    · exact hs.1
    · refine hs.1.pageInits hflags (fun x hx => ?_) ht
      have hx := AllocCall.movedRun_iff.mp hin q hq x hx
      by_cases hown : ∃ z < s.desc.zonesSize, (s.zones z).Owns x
      · exact .inl hown
      · obtain ⟨hnone, hphy⟩ := hs.2.unowned x hx fun z hz h => hown ⟨z, hz, h⟩
        exact .inr ⟨hnone, hphy, hs.2.bit0⟩
  exact ⟨ht, hs.2.of_step h ht.toCounted⟩

/-- A counter that is right before and after a call did not grow, and so did not wrap. -/
theorem AllocStep.pageFreeCnt_le {l : AllocCall × Option ℕ} (h : AllocStep s l t)
    (hs : FreeCounted s) (ht : FreeCounted t) (hz : z < t.desc.zonesSize) :
    (t.zones z).pageFreeCnt ≤ (s.zones z).pageFreeCnt := by
  have hlay := h.sameLayout
  rw [BitVec.le_def, hs z (hlay.desc ▸ hz), ht z hz, hlay.startPage, hlay.endPage]
  refine Finset.card_le_card fun x hx => ?_
  obtain ⟨hin, hclear⟩ := Bitmap.mem_clearBits.mp hx
  refine Bitmap.mem_clearBits.mpr ⟨hin, ?_⟩
  by_contra hset
  rw [Bool.not_eq_false] at hset
  rw [h.bit_of_set hset] at hclear
  exact Bool.noConfusion hclear

/-- The counters are right in the state after the call, and the call lets none of them wrap. -/
def CountsOn (s t : MemState) : Prop :=
  FreeCounted t ∧ ∀ z < t.desc.zonesSize, (t.zones z).pageFreeCnt ≤ (s.zones z).pageFreeCnt

/-- An invariant under which the counters are right, along a run. -/
theorem always_countsOn {P : MemState → Prop}
    {R : MemState → AllocCall × Option ℕ → MemState → Prop} (hP : ∀ s, P s → FreeCounted s)
    (hstep : ∀ s l t, P s → AllocStep s l t ∧ R s l t → P t) (hs : P s)
    {tr : List ((AllocCall × Option ℕ) × MemState)} (hrun : Always AllocStep s tr)
    (hR : Always R s tr) : Always (fun s _ t => CountsOn s t) s tr := by
  refine (Always.invariant_both hstep hs (hrun.and hR)).mono fun s l t ⟨hs, hstep, ht⟩ => ?_
  exact ⟨hP t ht, fun z hz => hstep.1.pageFreeCnt_le (hP s hs) (hP t ht) hz⟩

/-- **The free counters along runs.**  On a sound memory map, `page_free_cnt` of every zone is the
number of clear bits among its pages after `init_memory` exactly when zone 0, if there is a zone,
starts at page 0; with the page structs zero that the kernel takes behind the array, if it ends
there.

It is so after every call of a run, and no call lets it wrap, when there is no zone; and also from a
zone 0 that starts at page 0 while the lowest run of every call, moved, lies inside the bitmap, and
either all calls have flags or the page structs of the moved runs that are not in use have clear
bits. -/
theorem always_freeCounted (hmap : SoundMap (e820Scan b.slots))
    (htail : zoneEntries (e820Scan b.slots) ≠ [] → ZeroTail b) (hinit : initMemory b = some s) :
    (FreeCounted s ↔ ZeroBased b) ∧
    ∀ tr, Always AllocStep s tr →
      (zoneEntries (e820Scan b.slots) = [] ∨ ZeroBased b ∧
        Always (fun s l _ => l.1.MovedRun (· < s.desc.bitsSize) s) s tr ∧
        (Always (fun _ l _ => l.1.pageFlags ≠ 0) s tr ∨
          Always (fun s l _ => l.1.MovedRun
            (fun x => (s.pages x).attr = 0 → s.bits.bit x = false) s) s tr)) →
      FreeCounted s ∧ Always (fun s _ t => CountsOn s t) s tr := by
  have hsize : s.desc.zonesSize = (zoneEntries (e820Scan b.slots)).length := by
    obtain ⟨t, ht, rfl⟩ := initMemory_eq_some_iff.mp hinit
    exact (congrArg GlobalMemoryDesc.zonesSize (pageInits_sameLayout ht).desc).trans
      hmap.zoneTable.size
  have hnone : zoneEntries (e820Scan b.slots) = [] → s.desc.zonesSize = 0 := by
    intro hnil
    rw [hsize, hnil]
    rfl
  have hvoid : ∀ u : MemState, u.desc.zonesSize = 0 → FreeCounted u := by
    intro u hu z hz
    omega
  constructor
  · constructor
    · intro hcounted e he
      by_contra hstart
      have hmem : e ∈ zoneEntries (e820Scan b.slots) := List.mem_of_getElem? he
      have hshort := hmap.shortByOne_initMemory he hstart (htail (List.ne_nil_of_mem hmem)) hinit
      refine hshort.not_freeCounted ?_ hcounted
      rw [hsize]
      exact List.length_pos_of_mem hmem
    · intro hb
      by_cases hne : zoneEntries (e820Scan b.slots) = []
      · exact hvoid s (hnone hne)
      · exact (hb.steady_initMemory hmap hne (htail hne) hinit).1.cnt
  · rintro tr hrun hcase
    by_cases hne : zoneEntries (e820Scan b.slots) = []
    · refine ⟨hvoid s (hnone hne), ?_⟩
      refine always_countsOn (P := fun u => u.desc.zonesSize = 0) (R := fun _ _ _ => True) hvoid
        ?_ (hnone hne) hrun (hrun.mono fun _ _ _ _ => trivial)
      intro u l t hu hstep
      rw [hstep.1.sameLayout.desc, hu]
    · obtain ⟨hb, hin, hcalls⟩ := hcase.resolve_left hne
      have hs := hb.steady_initMemory hmap hne (htail hne) hinit
      refine ⟨hs.1.cnt, ?_⟩
      rcases hcalls with hflags | hfree
      · exact always_countsOn (P := fun u => Tidy u ∧ Steady u) (fun u hu => hu.1.cnt)
          (fun u l t hu hstep => hstep.1.tidy hu hstep.2.1 hstep.2.2) hs hrun (hin.and hflags)
      · exact always_countsOn (P := Steady) (fun u hu => hu.cnt)
          (fun u l t hu hstep => hstep.1.steady hu hstep.2.1 hstep.2.2) hs.2 hrun (hin.and hfree)

theorem soundMap_flatBoot : SoundMap (e820Scan flatBoot.slots) where
  apart := by
    rw [show e820Scan flatBoot.slots = [⟨0, 0x1000000, 1⟩] by decide]
    exact List.pairwise_singleton _ _
  highest := by decide
  ends := by decide
  starts := by decide

/-- Two calls on a machine whose memory starts at address 0. -/
theorem flatState_freeCounted :
    FreeCounted flatState ∧ Always (fun s _ t => CountsOn s t) flatState
      (runCalls flatState (normalCalls [2, 1])) := by
  have htail : ZeroTail flatBoot := fun _ _ _ => rfl
  refine (always_freeCounted soundMap_flatBoot (fun _ => htail) initMemory_flatBoot).2 _
    (runCalls_steps _ _) (.inr ⟨by decide, by decide +kernel, .inl (by decide +kernel)⟩)

/-- **The counter is wrong on a PC as soon as `init_memory` returns.**  Zone 0 starts at page 1 and
pays for page 0 all the same. -/
theorem pcState_not_freeCounted :
    RamMap (e820Scan pcBoot.slots) ∧ initMemory pcBoot = some pcState ∧ ¬ FreeCounted pcState := by
  refine ⟨⟨?_, by decide⟩, initMemory_pcBoot, by decide +kernel⟩
  have hle : (e820Scan pcBoot.slots).Pairwise fun e e' => e.type = ram → e'.type = ram →
      e.addr.toNat + e.len.toNat ≤ e'.addr.toNat := by decide
  exact hle.imp fun h => E820.Apart.of_le h

end Memory
end OSLib
