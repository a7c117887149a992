import OSLib.Memory.FreeMap

/-!
# Where the zone loop writes

`init_memory` sizes the bitmap and the array of page structs by the end of the last entry of the
memory map alone.  The zone loop then writes a page struct and a bitmap word for every page of every
RAM entry.

`touches` lists these writes by their indices: each turn of the page loop makes the one it stands
for, and the loop changes no other struct and no other word.  They stay in the arrays exactly when
no RAM entry with a whole page ends behind the last entry, which the order of the entries decides.
`touches_inBounds_iff` says all three.

The list comes from the memory map and not from the state, since neither the bounds of the loops nor
the indices depend on what the arrays hold.  That is what makes the condition one on the table, and
lets a write out of bounds be named although the model's arrays have no end.
-/

namespace OSLib
namespace Memory

variable {table : List E820} {s : MemState} {e : E820} {x w : ℕ} {b : Boot}

/-! ## The writes -/

/-- What a turn of the page loop writes: the index of the page struct, and that of the bitmap word.
-/
structure Touch where
  page : ℕ
  word : ℕ
  deriving DecidableEq

/-- The turn for page `j` of the zone that starts at `start`. -/
def initPageTouch (start : BitVec 64) (j : ℕ) : Touch :=
  ⟨pageNo start + j, pageNo (start + page2mSize * BitVec.ofNat 64 j) / 64⟩

/-- The turns for one entry of the memory map. -/
def addZoneTouches (e : E820) : List Touch :=
  let start := page2mAlign e.addr
  let stop := (e.addr + e.len) >>> 21 <<< 21
  if e.type ≠ ram then []
  else if stop ≤ start then []
  else (List.range (initZone start stop).pageLen.toNat).map (initPageTouch start)

/-- The turns for all entries. -/
def touches (table : List E820) : List Touch := table.flatMap addZoneTouches

/-- The write stays in the arrays. -/
def Touch.InBounds (t : Touch) (d : GlobalMemoryDesc) : Prop :=
  t.page < d.pagesSize ∧ t.word < d.bitsLen / 8

instance (t : Touch) (d : GlobalMemoryDesc) : Decidable (t.InBounds d) := by
  unfold Touch.InBounds
  infer_instance

/-- A turn of the page loop writes the struct and the word its touch names. -/
theorem initPage_touch (z : ℕ) (start : BitVec 64) (s : MemState) (j : ℕ) :
    (∃ pg, (initPage z start s j).pages =
      Function.update s.pages (initPageTouch start j).page pg) ∧
    ∃ v, (initPage z start s j).bits =
      Function.update s.bits (initPageTouch start j).word v :=
  ⟨⟨_, rfl⟩, ⟨_, rfl⟩⟩

/-- The turns for an entry are one for each of its pages. -/
theorem mem_addZoneTouches {t : Touch} :
    t ∈ addZoneTouches e ↔
      e.HasPages ∧ ∃ x, e.startPage ≤ x ∧ x < e.endPage ∧ t = ⟨x, x / 64⟩ := by
  have ha : e.startPage < 2 ^ 43 := pageNo_lt _
  have hb : e.endPage < 2 ^ 43 := pageNo_lt _
  have hdef : addZoneTouches e =
      if e.type ≠ ram then []
      else if pageAddr e.endPage ≤ pageAddr e.startPage then []
      else (List.range (initZone (pageAddr e.startPage) (pageAddr e.endPage)).pageLen.toNat).map
        (initPageTouch (pageAddr e.startPage)) := by
    rw [addZoneTouches, E820.startPage, E820.endPage, shiftRight_shiftLeft,
      ← page2mAlign_eq e.addr]
  rw [hdef]
  by_cases hram : e.type = ram
  · rw [if_neg (not_not.mpr hram)]
    by_cases hle : e.endPage ≤ e.startPage
    · rw [if_pos ((pageAddr_le_iff hb ha).mpr hle)]
      exact iff_of_false List.not_mem_nil fun h => by have := h.1.2; omega
    · have hlt : e.startPage < e.endPage := Nat.lt_of_not_le hle
      have hlen : (initZone (pageAddr e.startPage) (pageAddr e.endPage)).pageLen.toNat =
          e.endPage - e.startPage := pageNo_sub hb hlt.le
      -- page `j` of the zone is page `startPage + j`, along both paths
      have htouch : ∀ j < e.endPage - e.startPage, initPageTouch (pageAddr e.startPage) j =
          ⟨e.startPage + j, (e.startPage + j) / 64⟩ := by
        intro j hj
        rw [initPageTouch, pageAddr_add, pageNo_pageAddr ha, pageNo_pageAddr (by omega)]
      rw [if_neg (fun h => hle ((pageAddr_le_iff hb ha).mp h)), hlen]
      simp only [List.mem_map, List.mem_range]
      constructor
      · rintro ⟨j, hj, rfl⟩
        exact ⟨⟨hram, hlt⟩, e.startPage + j, by omega, by omega, htouch j hj⟩
      · rintro ⟨-, x, h1, h2, rfl⟩
        refine ⟨x - e.startPage, by omega, ?_⟩
        rw [htouch _ (by omega), Nat.add_sub_cancel' h1]
  · rw [if_pos hram]
    exact iff_of_false List.not_mem_nil fun h => hram h.1.1

theorem mem_touches {t : Touch} :
    t ∈ touches table ↔ ∃ e ∈ table, e.HasPages ∧
      ∃ x, e.startPage ≤ x ∧ x < e.endPage ∧ t = ⟨x, x / 64⟩ := by
  rw [touches, List.mem_flatMap]
  exact exists_congr fun e => and_congr_right fun _ => mem_addZoneTouches

/-- A bitmap with the same bits has the same words. -/
theorem word_eq_of_bit {m m' : Bitmap} (h : ∀ x, x / 64 = w → m'.bit x = m.bit x) : m' w = m w := by
  refine BitVec.eq_of_getLsbD_eq fun i hi => ?_
  have hbit := h (64 * w + i) (by omega)
  rwa [Bitmap.bit, Bitmap.bit, show (64 * w + i) / 64 = w by omega,
    show (64 * w + i) % 64 = i by omega] at hbit

/-- One entry changes no other struct and no other word. -/
theorem addZone_frame (s : MemState) (e : E820) :
    (∀ x, (∀ t ∈ addZoneTouches e, t.page ≠ x) → (addZone s e).pages x = s.pages x) ∧
    ∀ w, (∀ t ∈ addZoneTouches e, t.word ≠ w) → (addZone s e).bits w = s.bits w := by
  rcases addZone_cases s e with ⟨-, heq⟩ | ⟨hram, hlt, bits, heq, hbits⟩
  · rw [heq]
    exact ⟨fun _ _ => rfl, fun _ _ => rfl⟩
  · have hmem : ∀ x, e.startPage ≤ x → x < e.endPage → (⟨x, x / 64⟩ : Touch) ∈ addZoneTouches e :=
      fun x h1 h2 => mem_addZoneTouches.mpr ⟨⟨hram, hlt⟩, x, h1, h2, rfl⟩
    rw [heq]
    refine ⟨fun x hx => if_neg fun h => hx _ (hmem x h.1 h.2) rfl, fun w hw => ?_⟩
    refine word_eq_of_bit fun x hx => ?_
    change bits.bit x = s.bits.bit x
    rw [hbits, decide_eq_false fun h => hw _ (hmem x h.1 h.2) hx, Bool.false_xor]

/-- **The zone loop changes only what `touches` lists.** -/
theorem addZones_frame (s : MemState) (table : List E820) :
    (∀ x, (∀ t ∈ touches table, t.page ≠ x) → (addZones s table).pages x = s.pages x) ∧
    ∀ w, (∀ t ∈ touches table, t.word ≠ w) → (addZones s table).bits w = s.bits w := by
  induction table generalizing s with
  | nil => exact ⟨fun _ _ => rfl, fun _ _ => rfl⟩
  | cons e table ih =>
    obtain ⟨hpages, hbits⟩ := ih (addZone s e)
    obtain ⟨hpages', hbits'⟩ := addZone_frame s e
    have hhead : ∀ t ∈ addZoneTouches e, t ∈ touches (e :: table) := fun t ht =>
      List.mem_flatMap.mpr ⟨e, List.mem_cons_self, ht⟩
    have htail : ∀ t ∈ touches table, t ∈ touches (e :: table) := fun t ht => by
      rw [touches, List.flatMap_cons]
      exact List.mem_append_right _ ht
    exact ⟨fun x hx => (hpages x fun t ht => hx t (htail t ht)).trans
        (hpages' x fun t ht => hx t (hhead t ht)),
      fun w hw => (hbits w fun t ht => hw t (htail t ht)).trans
        (hbits' w fun t ht => hw t (hhead t ht))⟩

/-! ## The sizes of the arrays -/

/-- The bitmap has a word for every page. -/
theorem word_lt_of_page (hx : x < (initDesc b).pagesSize) : x / 64 < (initDesc b).bitsLen / 8 := by
  change x < (initDesc b).bitsSize at hx
  change x / 64 < ((initDesc b).bitsSize + 63) / 8 / 8 * 8 / 8
  omega

/-- The writes stay in the arrays while no entry with a whole page ends behind the last one. -/
theorem forall_touches_inBounds_iff (b : Boot) :
    (∀ t ∈ touches (e820Scan b.slots), t.InBounds (initDesc b)) ↔
      ∀ e ∈ e820Scan b.slots, e.HasPages → e.endPage ≤ pageNo (totelMem (e820Scan b.slots)) := by
  constructor
  · intro h e he hpages
    have hlast : (⟨e.endPage - 1, (e.endPage - 1) / 64⟩ : Touch) ∈ touches (e820Scan b.slots) :=
      mem_touches.mpr ⟨e, he, hpages, e.endPage - 1, by have := hpages.2; omega,
        by have := hpages.2; omega, rfl⟩
    have hpage : e.endPage - 1 < pageNo (totelMem (e820Scan b.slots)) := (h _ hlast).1
    omega
  · intro h t ht
    obtain ⟨e, he, hpages, x, -, hx, rfl⟩ := mem_touches.mp ht
    have hpage : x < (initDesc b).pagesSize := lt_of_lt_of_le hx (h e he hpages)
    exact ⟨hpage, word_lt_of_page hpage⟩

/-- **When the zone loop stays in its arrays.**  `touches` has what the zone loop writes: a turn of
the page loop writes the struct and the word of its touch, and what no touch names is left alone.
For every memory map these writes lie in the arrays exactly when no RAM entry that holds a whole
page ends in a later page than the last entry. -/
theorem touches_inBounds_iff (b : Boot) :
    (∀ z start s j, (∃ pg, (initPage z start s j).pages =
        Function.update s.pages (initPageTouch start j).page pg) ∧
      ∃ v, (initPage z start s j).bits =
        Function.update s.bits (initPageTouch start j).word v) ∧
    (∀ s, (∀ x, (∀ t ∈ touches (e820Scan b.slots), t.page ≠ x) →
        (addZones s (e820Scan b.slots)).pages x = s.pages x) ∧
      ∀ w, (∀ t ∈ touches (e820Scan b.slots), t.word ≠ w) →
        (addZones s (e820Scan b.slots)).bits w = s.bits w) ∧
    ((∀ t ∈ touches (e820Scan b.slots), t.InBounds (initDesc b)) ↔
      ∀ e ∈ e820Scan b.slots, e.HasPages → e.endPage ≤ pageNo (totelMem (e820Scan b.slots))) :=
  ⟨initPage_touch, fun s => addZones_frame s (e820Scan b.slots), forall_touches_inBounds_iff b⟩

/-- On a sound memory map it does. -/
theorem SoundMap.touches_inBounds (h : SoundMap (e820Scan b.slots)) :
    ∀ t ∈ touches (e820Scan b.slots), t.InBounds (initDesc b) :=
  (forall_touches_inBounds_iff b).mpr fun _ he _ => h.endPage_le he

/-- A PC whose firmware reports the high memory first. -/
def unsortedBoot : Boot := Boot.ofMap [⟨0x100000, 0x8900000, 1⟩, ⟨0, 0x9fc00, 1⟩]

/-- **Writes behind the arrays.**  The arrays of that PC are empty, and the loop writes the struct
of page 1 and a word of the bitmap. -/
theorem unsortedBoot_not_inBounds :
    ¬ ∀ t ∈ touches (e820Scan unsortedBoot.slots), t.InBounds (initDesc unsortedBoot) := by
  intro h
  have hmem : (⟨1, 0⟩ : Touch) ∈ touches (e820Scan unsortedBoot.slots) := by
    refine mem_touches.mpr ⟨⟨0x100000, 0x8900000, 1⟩, ?_, ?_, 1, ?_, ?_, rfl⟩ <;> decide
  exact absurd (h _ hmem) (by decide)

end Memory
end OSLib
