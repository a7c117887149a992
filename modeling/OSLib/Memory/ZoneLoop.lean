import OSLib.Memory.Init

/-!
# The zones of a sound memory map

`addZone_cases` says what one entry does to any state.  This file says what the whole zone loop
does when the memory map is sound: its RAM entries are disjoint, its last entry is the highest, and
no address the loop computes from it overflows, neither the end of an entry nor the start of a RAM
entry, rounded up (`SoundMap`).

Then `zoneEntries` lists the entries that become zones, zone `z` is the zone of the entry at
position `z` of that list, and the loop leaves a bit clear exactly in the zones (`ZoneTable`).
Disjointness of the entries is what keeps a bit from being flipped twice, and the last entry being
the highest is what keeps the zones inside the bitmap.

`ZoneTable` of the entries so far is the invariant of the loop, and the induction is on prefixes of
the table: one more entry makes one more zone behind the zones there are, or changes nothing when it
is not RAM or has no whole page.
-/

namespace OSLib
namespace Memory

/-! ## Sound memory maps -/

namespace E820

/-- The entry covers the address. -/
def Covers (e : E820) (a : ℕ) : Prop := e.addr.toNat ≤ a ∧ a < e.addr.toNat + e.len.toNat

/-- No entry ends beyond the last address or starts in the last 2 MiB. -/
def Fits (e : E820) : Prop :=
  e.addr.toNat + 2 ^ 21 ≤ 2 ^ 64 ∧ e.addr.toNat + e.len.toNat < 2 ^ 64

instance (e : E820) : Decidable e.Fits := by unfold Fits; infer_instance

/-- The two entries are not both RAM, or they have no address in common. -/
def Apart (e e' : E820) : Prop :=
  e.type = ram → e'.type = ram → ∀ a, ¬ (e.Covers a ∧ e'.Covers a)

variable {e e' : E820} {x : ℕ}

theorem Apart.of_le (h : e.type = ram → e'.type = ram →
    e.addr.toNat + e.len.toNat ≤ e'.addr.toNat) : e.Apart e' := by
  rintro hram hram' a ⟨⟨-, h1⟩, h2, -⟩
  have := h hram hram'
  omega

theorem toNat_add_len (h : e.Fits) : (e.addr + e.len).toNat = e.addr.toNat + e.len.toNat := by
  rw [BitVec.toNat_add, Nat.mod_eq_of_lt h.2]

theorem endPage_eq (h : e.Fits) : e.endPage = (e.addr.toNat + e.len.toNat) / 2 ^ 21 := by
  rw [endPage, pageNo_eq, toNat_add_len h]

theorem startPage_eq (h : e.Fits) : e.startPage = (e.addr.toNat + (2 ^ 21 - 1)) / 2 ^ 21 := by
  have hfit := h.1
  have hsize : (page2mSize).toNat = 2 ^ 21 := by decide
  have hadd : (e.addr + page2mSize - 1).toNat = e.addr.toNat + (2 ^ 21 - 1) := by
    rw [BitVec.toNat_sub, BitVec.toNat_add, hsize, show (1 : BitVec 64).toNat = 1 from rfl]
    omega
  rw [startPage, page2mAlign, and_page2mMask, pageNo_pageAddr (pageNo_lt _), pageNo_eq, hadd]

/-- A page of the entry lies in it whole. -/
theorem covers_of_page (h : e.Fits) (h1 : e.startPage ≤ x) (h2 : x < e.endPage) :
    e.Covers (x * 2 ^ 21) := by
  rw [startPage_eq h] at h1
  rw [endPage_eq h] at h2
  unfold Covers
  omega

/-- Entries apart have no page in common. -/
theorem Apart.not_page (h : e.Apart e') (hram : e.type = ram) (hram' : e'.type = ram)
    (hfit : e.Fits) (hfit' : e'.Fits) (hx : e.startPage ≤ x ∧ x < e.endPage) :
    ¬ (e'.startPage ≤ x ∧ x < e'.endPage) := fun hx' =>
  h hram hram' _ ⟨covers_of_page hfit hx.1 hx.2, covers_of_page hfit' hx'.1 hx'.2⟩

/-- The entry becomes a zone. -/
def HasPages (e : E820) : Prop := e.type = ram ∧ e.startPage < e.endPage

instance (e : E820) : Decidable e.HasPages := by unfold HasPages; infer_instance

/-- The zone of an entry. -/
def zone (e : E820) : Zone := initZone (pageAddr e.startPage) (pageAddr e.endPage)

theorem zone_startPage (e : E820) : e.zone.startPage = e.startPage := pageNo_pageAddr (pageNo_lt _)

theorem zone_endPage (e : E820) : e.zone.endPage = e.endPage := pageNo_pageAddr (pageNo_lt _)

theorem zone_owns : e.zone.Owns x ↔ e.startPage ≤ x ∧ x < e.endPage := by
  rw [Zone.Owns, zone_startPage, zone_endPage]

theorem HasPages.toNat_pageFreeCnt (h : e.HasPages) :
    e.zone.pageFreeCnt.toNat = e.endPage - e.startPage := pageNo_sub (pageNo_lt _) h.2.le

end E820

/-- A memory map with disjoint RAM entries whose last entry is the highest. -/
structure RamMap (table : List E820) : Prop where
  apart : table.Pairwise E820.Apart
  highest : ∀ e ∈ table, ∀ e' ∈ table.getLast?,
    e.addr.toNat + e.len.toNat ≤ e'.addr.toNat + e'.len.toNat

/-- The entries that become zones, in order. -/
def zoneEntries (table : List E820) : List E820 := table.filter fun e => e.HasPages

variable {table : List E820} {s : MemState} {e : E820} {z x : ℕ} {b : Boot}

theorem mem_zoneEntries : e ∈ zoneEntries table ↔ e ∈ table ∧ e.HasPages := by
  simp [zoneEntries]

/-! ## The loop -/

/-- What the zone loop has done once the entries `es` have become zones: they are the zones, in
order; their pages are fresh and clear; everything else is as it was. -/
structure ZoneTable (s₀ : MemState) (es : List E820) (s : MemState) : Prop where
  size : s.desc.zonesSize = es.length
  bitsSize : s.desc.bitsSize = s₀.desc.bitsSize
  zone : ∀ z e, es[z]? = some e → s.zones z = e.zone
  page : ∀ z e, es[z]? = some e → ∀ x, e.startPage ≤ x → x < e.endPage →
    s.pages x = freshPage z x ∧ s.bits.bit x = false
  outside : ∀ x, (∀ e ∈ es, ¬ (e.startPage ≤ x ∧ x < e.endPage)) →
    s.pages x = s₀.pages x ∧ s.bits.bit x = s₀.bits.bit x
  lowMapped : s.lowMapped = s₀.lowMapped

theorem zoneTable_nil (s : MemState) (h : s.desc.zonesSize = 0) : ZoneTable s [] s where
  size := h
  bitsSize := rfl
  zone z e he := absurd he (by simp)
  page z e he := absurd he (by simp)
  outside x _ := ⟨rfl, rfl⟩
  lowMapped := rfl

/-- An entry without whole pages adds nothing. -/
theorem zoneEntries_append_of_not (h : ¬ e.HasPages) :
    zoneEntries (table ++ [e]) = zoneEntries table := by
  simp [zoneEntries, List.filter_append, h]

theorem zoneEntries_append_of (h : e.HasPages) :
    zoneEntries (table ++ [e]) = zoneEntries table ++ [e] := by
  simp [zoneEntries, List.filter_append, h]

/-- **One turn.**  An entry apart from those before it, whose pages had their bits set, becomes the
next zone and disturbs no earlier one. -/
theorem ZoneTable.addZone {s₀ : MemState} {pre : List E820} (h : ZoneTable s₀ (zoneEntries pre) s)
    (hapart : ∀ e' ∈ pre, e'.Apart e) (hfits : ∀ e' ∈ pre, e'.Fits) (hfit : e.Fits)
    (hset : ∀ x < e.endPage, s₀.bits.bit x = true) :
    ZoneTable s₀ (zoneEntries (pre ++ [e])) (addZone s e) := by
  rcases addZone_cases s e with ⟨hno, heq⟩ | ⟨hram, hlt, bits, heq, hbits⟩
  · have hpages : ¬ e.HasPages := by
      rintro ⟨hram, hlt⟩
      rcases hno with hno | hno
      · exact hno hram
      · omega
    rw [heq, zoneEntries_append_of_not hpages]
    exact h
  · have hpages : e.HasPages := ⟨hram, hlt⟩
    have hsize := h.size
    -- the new entry has no page in common with an earlier zone
    have hfar : ∀ e' ∈ zoneEntries pre, ∀ x, e'.startPage ≤ x ∧ x < e'.endPage →
        ¬ (e.startPage ≤ x ∧ x < e.endPage) := by
      intro e' he' x hx
      obtain ⟨hmem, hram', -⟩ := mem_zoneEntries.mp he'
      exact (hapart e' hmem).not_page hram' hram (hfits e' hmem) hfit hx
    have hfresh : ∀ x, e.startPage ≤ x ∧ x < e.endPage → s.bits.bit x = true := by
      intro x hx
      rw [(h.outside x fun e' he' hx' => hfar e' he' x hx' hx).2]
      exact hset x hx.2
    -- a position of the extended list is an old one or the new one
    have hpos : ∀ z e', (zoneEntries pre ++ [e])[z]? = some e' →
        (zoneEntries pre)[z]? = some e' ∧ z ≠ s.desc.zonesSize ∨
          z = s.desc.zonesSize ∧ e' = e := by
      intro z e' he'
      rcases Nat.lt_or_ge z (zoneEntries pre).length with hz | hz
      · rw [List.getElem?_append_left hz] at he'
        exact Or.inl ⟨he', by omega⟩
      · rw [List.getElem?_append_right hz, List.getElem?_singleton] at he'
        split at he'
        · exact Or.inr ⟨by omega, (Option.some.inj he').symm⟩
        · exact absurd he' (by simp)
    rw [heq, zoneEntries_append_of hpages]
    constructor
    · change s.desc.zonesSize + 1 = _
      rw [List.length_append, List.length_singleton, hsize]
    · exact h.bitsSize
    · intro z e' he'
      rcases hpos z e' he' with ⟨hold, hne⟩ | ⟨rfl, rfl⟩
      · exact (Function.update_of_ne hne ..).trans (h.zone z e' hold)
      · exact Function.update_self ..
    · intro z e' he' x h1 h2
      rcases hpos z e' he' with ⟨hold, hne⟩ | ⟨rfl, rfl⟩
      · have hnew := hfar e' (List.mem_of_getElem? hold) x ⟨h1, h2⟩
        obtain ⟨hpage, hbit⟩ := h.page z e' hold x h1 h2
        refine ⟨(if_neg hnew).trans hpage, ?_⟩
        change bits.bit x = false
        rw [hbits, decide_eq_false hnew, hbit]
        rfl
      · refine ⟨if_pos ⟨h1, h2⟩, ?_⟩
        change bits.bit x = false
        rw [hbits, decide_eq_true ⟨h1, h2⟩, hfresh x ⟨h1, h2⟩]
        rfl
    · intro x hx
      have hnew := hx e (List.mem_append_right _ List.mem_cons_self)
      obtain ⟨hpage, hbit⟩ := h.outside x fun e' he' => hx e' (List.mem_append_left _ he')
      refine ⟨(if_neg hnew).trans hpage, ?_⟩
      change bits.bit x = _
      rw [hbits, decide_eq_false hnew, Bool.false_xor, hbit]
    · exact h.lowMapped

/-- **The zone loop on a sound memory map.** -/
theorem zoneTable_addZones {s₀ : MemState} (hsize : s₀.desc.zonesSize = 0)
    (hapart : table.Pairwise E820.Apart) (hfits : ∀ e ∈ table, e.Fits)
    (hset : ∀ e ∈ table, ∀ x < e.endPage, s₀.bits.bit x = true) :
    ZoneTable s₀ (zoneEntries table) (addZones s₀ table) := by
  induction table using List.reverseRecOn with
  | nil => exact zoneTable_nil s₀ hsize
  | append_singleton pre e ih =>
    rw [List.pairwise_append] at hapart
    have hpre : ∀ e' ∈ pre, e' ∈ pre ++ [e] := fun e' he' => List.mem_append_left _ he'
    have hlast : e ∈ pre ++ [e] := List.mem_append_right _ List.mem_cons_self
    have h := ih hapart.1 (fun e' he' => hfits e' (hpre e' he'))
      (fun e' he' => hset e' (hpre e' he'))
    rw [addZones, List.foldl_append]
    exact h.addZone (fun e' he' => hapart.2.2 e' he' e List.mem_cons_self)
      (fun e' he' => hfits e' (hpre e' he')) (hfits e hlast) (hset e hlast)

/-! ## Maps without overflow -/

/-- A memory map with disjoint RAM entries whose last entry is the highest and whose addresses do
not overflow. -/
structure SoundMap (table : List E820) : Prop extends RamMap table where
  ends : ∀ e ∈ table, e.addr.toNat + e.len.toNat < 2 ^ 64
  starts : ∀ e ∈ table, e.type = ram → e.addr.toNat + 2 ^ 21 ≤ 2 ^ 64

theorem SoundMap.fits (h : SoundMap table) (he : e ∈ table) (hram : e.type = ram) : e.Fits :=
  ⟨h.starts e he hram, h.ends e he⟩

/-- In a sound map no page of an entry is behind the end of the bitmap. -/
theorem SoundMap.endPage_le (h : SoundMap table) (he : e ∈ table) :
    e.endPage ≤ pageNo (totelMem table) := by
  cases hlast : table.getLast? with
  | none =>
    rw [List.getLast?_eq_none_iff] at hlast
    subst hlast
    exact absurd he List.not_mem_nil
  | some e' =>
    have hle := h.highest e he e' hlast
    have hend := h.ends e' (List.mem_of_getLast? hlast)
    have hsum (e : E820) : (e.addr + e.len).toNat = (e.addr.toNat + e.len.toNat) % 2 ^ 64 :=
      BitVec.toNat_add _ _
    rw [E820.endPage, totelMem, hlast, pageNo_eq, pageNo_eq, hsum, hsum]
    omega

/-! ## The entries that are not RAM -/

/-- The RAM entries of a memory map. -/
def ramEntries (table : List E820) : List E820 := table.filter fun e => e.type = ram

theorem mem_ramEntries : e ∈ ramEntries table ↔ e ∈ table ∧ e.type = ram := by
  simp [ramEntries]

/-- The loop skips the other entries. -/
theorem addZones_ramEntries (s : MemState) (table : List E820) :
    addZones s (ramEntries table) = addZones s table := by
  induction table generalizing s with
  | nil => rfl
  | cons e table ih =>
    by_cases hram : e.type = ram
    · rw [ramEntries, List.filter_cons_of_pos (by simpa using hram)]
      exact ih (addZone s e)
    · rw [ramEntries, List.filter_cons_of_neg (by simpa using hram)]
      have hskip : addZone s e = s := by
        rcases addZone_cases s e with ⟨-, heq⟩ | ⟨hram', -⟩
        · exact heq
        · exact absurd hram' hram
      refine (ih s).trans ?_
      rw [addZones, addZones, List.foldl_cons, hskip]

theorem zoneEntries_ramEntries (table : List E820) :
    zoneEntries (ramEntries table) = zoneEntries table := by
  rw [zoneEntries, ramEntries, List.filter_filter, zoneEntries]
  refine List.filter_congr fun e _ => ?_
  rw [← Bool.decide_and]
  exact decide_eq_decide.mpr ⟨fun h => h.1, fun h => ⟨h, h.1⟩⟩

/-! ## The loop of `init_memory` -/

/-- The state at the end of the zone loop. -/
def afterZones (b : Boot) : MemState := addZones (initArrays b) (initDesc b).e820

/-- What the loop leaves. -/
theorem SoundMap.zoneTable (h : SoundMap (e820Scan b.slots)) :
    ZoneTable (initArrays b) (zoneEntries (e820Scan b.slots)) (afterZones b) := by
  have hram : ∀ e ∈ ramEntries (e820Scan b.slots), e.Fits := fun e he =>
    h.fits (mem_ramEntries.mp he).1 (mem_ramEntries.mp he).2
  have htab : ZoneTable (initArrays b) (zoneEntries (ramEntries (e820Scan b.slots)))
      (addZones (initArrays b) (ramEntries (e820Scan b.slots))) := by
    refine zoneTable_addZones rfl (h.apart.filter _) hram fun e he x hx => initArrays_bit ?_
    exact lt_of_lt_of_le hx (h.endPage_le (mem_ramEntries.mp he).1)
  rw [zoneEntries_ramEntries, addZones_ramEntries] at htab
  exact htab

end Memory
end OSLib
