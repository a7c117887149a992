import OSLib.Memory.FreeCount

/-!
# The free pages after the zone loop

`init_memory` frees pages by flipping bits that were all set, and it numbers them twice: the page
structs from `page_group` on, the bits from `phy_addr`.  For a sound memory map none of this goes
wrong (`afterZones_free`): at the end of the zone loop the clear bits are exactly the 2 MiB pages
that lie in a RAM entry whole, and the struct of each of them belongs to its page and to its zone.

The statement is about pages and RAM entries and does not mention the zones: the zone of a page is
the one made for the entry that holds it.  `ZoneTable` says which one that is, and disjoint entries
make it the only one.
-/

namespace OSLib
namespace Memory

variable {table : List E820} {s : MemState} {e : E820} {z x : ℕ} {b : Boot}

/-! ## Whole pages -/

namespace E820

/-- The 2 MiB page `x` lies in the entry whole. -/
def Holds (e : E820) (x : ℕ) : Prop := ∀ o < 2 ^ 21, e.Covers (x * 2 ^ 21 + o)

/-- The pages the loop makes of an entry are those that lie in it whole. -/
theorem holds_iff (h : e.Fits) : e.Holds x ↔ e.startPage ≤ x ∧ x < e.endPage := by
  rw [startPage_eq h, endPage_eq h]
  constructor
  · intro hx
    obtain ⟨hlow, -⟩ := hx 0 (by decide)
    obtain ⟨-, hhigh⟩ := hx (2 ^ 21 - 1) (by decide)
    omega
  · rintro ⟨hlow, hhigh⟩ o ho
    exact ⟨by omega, by omega⟩

end E820

/-! ## The pages of the zones -/

/-- A page in one of the zones is a page of a RAM entry. -/
theorem SoundMap.mem_zone_iff (h : SoundMap (e820Scan b.slots)) :
    (∃ e ∈ zoneEntries (e820Scan b.slots), e.startPage ≤ x ∧ x < e.endPage) ↔
      ∃ e ∈ e820Scan b.slots, e.type = ram ∧ e.Holds x := by
  constructor
  · rintro ⟨e, he, hx⟩
    obtain ⟨hmem, hpages⟩ := mem_zoneEntries.mp he
    exact ⟨e, hmem, hpages.1, (E820.holds_iff (h.fits hmem hpages.1)).mpr hx⟩
  · rintro ⟨e, he, hram, hx⟩
    have hown := (E820.holds_iff (h.fits he hram)).mp hx
    exact ⟨e, mem_zoneEntries.mpr ⟨he, hram, by omega⟩, hown⟩

/-- **A clear bit is a page of RAM**, and the other way round. -/
theorem SoundMap.bit_iff (h : SoundMap (e820Scan b.slots))
    (hx : x < 64 * ((initDesc b).bitsLen / 8)) :
    (afterZones b).bits.bit x = false ↔ ∃ e ∈ e820Scan b.slots, e.type = ram ∧ e.Holds x := by
  rw [← h.mem_zone_iff]
  constructor
  · intro hclear
    by_contra hno
    have hsame := (h.zoneTable.outside x fun e he hx => hno ⟨e, he, hx⟩).2
    rw [hclear, initArrays_bit_of_word (by omega)] at hsame
    exact Bool.noConfusion hsame
  · rintro ⟨e, he, hx⟩
    obtain ⟨z, hz⟩ := List.getElem?_of_mem he
    exact (h.zoneTable.page z e hz x hx.1 hx.2).2

/-! ## The structs of the free pages -/

/-- The struct of page `x` belongs to the page, which is free, and points to the only zone the page
lies in; the free pages of that zone are counted. -/
structure FreePage (s : MemState) (x : ℕ) : Prop where
  phyAddr : (s.pages x).phyAddr.toNat = x * 2 ^ 21
  attr : (s.pages x).attr = 0
  refCnt : (s.pages x).refCnt = 0
  zone : ∃ z < s.desc.zonesSize, (s.pages x).zoneStruct = some z ∧ (s.zones z).Owns x ∧
    (∀ y < s.desc.zonesSize, (s.zones y).Owns x → y = z) ∧
    (s.zones z).pageFreeCnt.toNat =
      s.bits.clearCount (s.zones z).startPage (s.zones z).endPage

/-- The counter of a zone is right at the end of the loop. -/
theorem SoundMap.pageFreeCnt (h : SoundMap (e820Scan b.slots))
    (he : (zoneEntries (e820Scan b.slots))[z]? = some e) :
    ((afterZones b).zones z).pageFreeCnt.toNat =
      (afterZones b).bits.clearCount ((afterZones b).zones z).startPage
        ((afterZones b).zones z).endPage := by
  have hpages := (mem_zoneEntries.mp (List.mem_of_getElem? he)).2
  have hclear : (afterZones b).bits.clearCount e.startPage e.endPage = e.endPage - e.startPage :=
    Bitmap.clearCount_eq_of_clear fun x h1 h2 => (h.zoneTable.page z e he x h1 h2).2
  rw [h.zoneTable.zone z e he, E820.zone_startPage, E820.zone_endPage, hclear,
    hpages.toNat_pageFreeCnt]

/-- The zones have no page in common: the struct of a page points to one of them only. -/
theorem SoundMap.eq_of_owns (h : SoundMap (e820Scan b.slots)) {y : ℕ}
    (hpage : (afterZones b).pages x = freshPage z x) (hy : y < (afterZones b).desc.zonesSize)
    (hown : ((afterZones b).zones y).Owns x) : y = z := by
  rw [h.zoneTable.size] at hy
  have he := List.getElem?_eq_getElem hy
  rw [h.zoneTable.zone y _ he, E820.zone_owns] at hown
  have hsame := (h.zoneTable.page y _ he x hown.1 hown.2).1.symm.trans hpage
  exact Option.some.inj (congrArg Page.zoneStruct hsame)

theorem SoundMap.freePage (h : SoundMap (e820Scan b.slots)) (he : e ∈ e820Scan b.slots)
    (hram : e.type = ram) (hx : e.Holds x) : FreePage (afterZones b) x := by
  obtain ⟨e, hmem, hown⟩ := h.mem_zone_iff.mpr ⟨e, he, hram, hx⟩
  obtain ⟨z, hz⟩ := List.getElem?_of_mem hmem
  obtain ⟨hpage, -⟩ := h.zoneTable.page z e hz x hown.1 hown.2
  have hlt : x < 2 ^ 43 := lt_trans hown.2 (pageNo_lt _)
  have hsize : z < (afterZones b).desc.zonesSize := by
    rw [h.zoneTable.size]
    exact (List.getElem?_eq_some_iff.mp hz).1
  constructor
  · rw [hpage]
    exact toNat_pageAddr hlt
  · rw [hpage]
    rfl
  · rw [hpage]
    rfl
  · refine ⟨z, hsize, ?_, ?_, fun y hy => h.eq_of_owns hpage hy, h.pageFreeCnt hz⟩
    · rw [hpage]
      rfl
    · rw [h.zoneTable.zone z e hz]
      exact E820.zone_owns.mpr hown

/-- **The free pages at the end of the zone loop.**  For a sound memory map, a bit of the bitmap is
clear exactly when its page lies in a RAM entry whole, and the struct of each such page is that of a
free page. -/
theorem afterZones_free (h : SoundMap (e820Scan b.slots)) :
    (∀ x < 64 * ((initDesc b).bitsLen / 8), (afterZones b).bits.bit x = false ↔
      ∃ e ∈ e820Scan b.slots, e.type = ram ∧ e.Holds x) ∧
    ∀ x, ∀ e ∈ e820Scan b.slots, e.type = ram → e.Holds x →
      x < (initDesc b).bitsSize ∧ FreePage (afterZones b) x := by
  refine ⟨fun x hx => h.bit_iff hx, fun x e he hram hx => ⟨?_, h.freePage he hram hx⟩⟩
  have hown := (E820.holds_iff (h.fits he hram)).mp hx
  exact lt_of_lt_of_le hown.2 (h.endPage_le he)

theorem soundMap_pcBoot : SoundMap (e820Scan pcBoot.slots) where
  apart := by
    have hle : (e820Scan pcBoot.slots).Pairwise fun e e' => e.type = ram → e'.type = ram →
        e.addr.toNat + e.len.toNat ≤ e'.addr.toNat := by decide
    exact hle.imp fun h => E820.Apart.of_le h
  highest := by decide
  ends := by decide
  starts := by decide

/-- On the PC page 1 is the first page that lies in the high memory. -/
theorem pcBoot_free : (afterZones pcBoot).bits.bit 1 = false ∧ FreePage (afterZones pcBoot) 1 := by
  obtain ⟨hbits, hpages⟩ := afterZones_free soundMap_pcBoot
  have hmem : ⟨0x100000, 0x8900000, 1⟩ ∈ e820Scan pcBoot.slots := by decide
  have hholds : E820.Holds ⟨0x100000, 0x8900000, 1⟩ 1 :=
    (E820.holds_iff (by decide)).mpr (by decide)
  exact ⟨(hbits 1 (by decide)).mpr ⟨_, hmem, rfl, hholds⟩, (hpages 1 _ hmem rfl hholds).2⟩

end Memory
end OSLib
