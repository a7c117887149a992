import OSLib.Memory.FreeMap
import OSLib.Memory.Handout
import OSLib.Memory.Search

/-!
# The pages up to 62, one after the other

On a PC the first zone starts at 1 MiB, so that its first whole page is page 1.  There the search of
`alloc_pages` begins with the windows at the bits 1 to 62 of the first word, and a probe takes the
pages it tests.  As long as nothing is freed, the pages in use are those below some page `m`, and
the search finds page `m`: `alloc_pages` hands out the pages in order, whatever the numbers asked
for (`NextFree.alloc`), until `m` is 63.

`NextFree m` is the whole invariant: in the first zone the bits and the page structs are free from
page `m` on, and `page_free_cnt` counts them but for one.  It is enough to find the next run, and a
call moves `m` by the number it was asked for, so a run of calls is an induction on the calls with
`m` going up, and no fact about the pages handed out before is needed.

`init_memory` leaves such a state, with the page behind the kernel as the next one
(`nextFree_initMemory`).  It takes page 0 from the count of zone 0 although that zone does not have
it, so the last page of the zone is never handed out.
-/

namespace OSLib
namespace Memory

variable {s t : MemState} {m n x : ℕ} {flags : BitVec 64} {c : AllocCall} {b : Boot} {e : E820}

/-- The pages below `m` are in use, and those of zone 0 from `m` on are free. -/
structure NextFree (m : ℕ) (s : MemState) : Prop where
  gZoneDma : s.gZoneDma = 0
  gZoneNormal : s.gZoneNormal = 0
  start : (s.zones 0).startPage = 1
  count : (s.zones 0).pageFreeCnt.toNat + m + 1 = (s.zones 0).endPage
  inside : (s.zones 0).endPage ≤ s.desc.bitsSize
  zone : ∀ x < (s.zones 0).endPage, (s.pages x).zoneStruct = some 0
  phyAddr : ∀ x < (s.zones 0).endPage, (s.pages x).phyAddr = pageAddr x
  attr : ∀ x < (s.zones 0).endPage, m ≤ x → (s.pages x).attr = 0
  taken : ∀ x < m, s.bits.bit x = true
  clear : ∀ x < (s.zones 0).endPage, 1 ≤ x → m ≤ x → s.bits.bit x = false

/-! ## Taking pages -/

/-- Page `m` is taken. -/
theorem NextFree.pageInit (h : NextFree m s) (hm : m + 1 < (s.zones 0).endPage)
    (flags : BitVec 64) : ∃ t, pageInit s m flags = some t ∧ NextFree (m + 1) t := by
  have hend : (s.zones 0).endPage < 2 ^ 43 := pageNo_lt _
  have hzone := h.zone m (by omega)
  have hphy := h.phyAddr m (by omega)
  have hattr := h.attr m (by omega) le_rfl
  obtain ⟨t, ht⟩ : ∃ t, Memory.pageInit s m flags = some t :=
    exists_pageInit flags fun hnone => absurd (hzone.symm.trans hnone) (by simp)
  have hlay := pageInit_sameLayout ht
  have hbits : ∀ x, t.bits.bit x = (decide (x = m) || s.bits.bit x) := by
    intro x
    rcases pageInit_cases ht with ⟨-, -, rfl⟩ | ⟨hne, -⟩ | ⟨hne, -⟩
    · rw [Bitmap.bit_set, hphy, pageNo_pageAddr (by omega)]
    · exact absurd hattr hne
    · exact absurd hattr hne
  have hcount : (t.zones 0).pageFreeCnt = (s.zones 0).pageFreeCnt - 1 := by
    rcases pageInit_cases ht with ⟨-, -, rfl⟩ | ⟨hne, -⟩ | ⟨hne, -⟩
    · simp only [hzone, bumpZone, Function.update_self]
      rfl
    · exact absurd hattr hne
    · exact absurd hattr hne
  have hcnt := h.count
  refine ⟨t, ht, hlay.gZoneDma.trans h.gZoneDma, hlay.gZoneNormal.trans h.gZoneNormal,
    (hlay.startPage 0).trans h.start, ?_, ?_, fun x hx => ?_, fun x hx => ?_, fun x hx hmx => ?_,
    fun x hx => ?_, fun x hx h1 hmx => ?_⟩
  · rw [hcount, hlay.endPage]
    bv_omega
  · rw [hlay.endPage, hlay.desc]
    exact h.inside
  · rw [hlay.zoneStruct]
    exact h.zone x (hlay.endPage 0 ▸ hx)
  · rw [hlay.phyAddr]
    exact h.phyAddr x (hlay.endPage 0 ▸ hx)
  · rw [pageInit_pages_of_ne ht (by omega)]
    exact h.attr x (hlay.endPage 0 ▸ hx) (by omega)
  · rw [hbits]
    by_cases hxm : x = m
    · simp [hxm]
    · rw [h.taken x (by omega), Bool.or_true]
  · rw [hbits, h.clear x (hlay.endPage 0 ▸ hx) h1 (by omega)]
    simp
    omega

/-- `n` pages from `m` on are taken. -/
theorem NextFree.pageInits (h : NextFree m s) (hm : m + n < (s.zones 0).endPage)
    (flags : BitVec 64) :
    ∃ t, pageInits flags s (List.range' m n) = some t ∧ NextFree (m + n) t := by
  induction n generalizing m s with
  | zero => exact ⟨s, rfl, h⟩
  | succ n ih =>
    obtain ⟨u, hu, hnext⟩ := h.pageInit (by omega) flags
    have hend := (pageInit_sameLayout hu).endPage 0
    obtain ⟨t, ht, hfree⟩ := ih hnext (by omega)
    rw [List.range'_succ]
    refine ⟨t, pageInits_cons.mpr ⟨u, hu, ht⟩, ?_⟩
    rwa [Nat.add_assoc, Nat.add_comm 1 n] at hfree

/-! ## The search -/

/-- The pages of a call, in natural numbers. -/
theorem runFrom_eq_range' (h : m + n ≤ 2 ^ 64) : runFrom m n = List.range' m n := by
  rw [runFrom, List.range'_eq_map_range]
  refine List.map_congr_left fun l hl => ?_
  rw [List.mem_range] at hl
  exact Nat.mod_eq_of_lt (by omega)

/-- The first windows of a zone that starts at page 1. -/
theorem words_one {stop : ℕ} (h : 1 ≤ stop) : ∃ js, words 1 stop = 1 :: js := by
  obtain ⟨n, hn⟩ : ∃ n, stop + 1 - 1 = n + 1 := ⟨stop - 1, by omega⟩
  rw [words, hn, wordsFrom, if_pos h]
  exact ⟨_, rfl⟩

/-- The search ends at page `m`. -/
theorem NextFree.found (h : NextFree m s) (hsel : c.zoneSelect ≠ zoneUnmapped) (h1 : 1 ≤ m)
    (hm : m ≤ 62) (hn : 1 ≤ c.number.toNat) (hn' : c.number.toNat ≤ 64)
    (hfits : m + c.number.toNat < (s.zones 0).endPage) : c.found s = some ⟨0, 1, m⟩ := by
  have hrange : zoneRange s c.zoneSelect = (0, 0) := by
    rw [zoneRange, h.gZoneDma, h.gZoneNormal, if_neg hsel, ite_self, ite_self]
  have hcnt : ¬ (s.zones 0).pageFreeCnt < c.number.signExtend 64 := by
    have hcount := c.count_eq (by omega)
    have hfree := h.count
    rw [AllocCall.count] at hcount
    rw [BitVec.lt_def, hcount]
    omega
  obtain ⟨js, hjs⟩ := words_one (show 1 ≤ (s.zones 0).endPage by omega)
  -- a probe succeeds at `k` exactly when the run from bit `k` is clear
  have hclear : ∀ k, 1 ≤ k → k < 64 → ((⟨0, 1, k⟩ : Probe).Clear s.bits c.number ↔
      ∀ l < c.number.toNat, s.bits.bit (64 * 0 + k + l) = false) := by
    intro k hk hk'
    simp only [Probe.Clear, Nat.reduceDiv]
    exact ⟨fun hwindow l hl => Bitmap.bit_eq_false_of_window hk' hn' hwindow hl,
      fun hbits => Bitmap.window_eq_zero_of_bit hk hk' hn' hbits⟩
  have hfirst : (List.range' 1 62).find? (fun k => decide ((⟨0, 1, k⟩ : Probe).Clear s.bits
      c.number)) = some m := by
    rw [List.find?_range'_eq_some]
    refine ⟨?_, List.mem_range'_1.mpr (by omega), fun k hk hkm => ?_⟩
    · rw [decide_eq_true_iff, hclear m h1 (by omega)]
      exact fun l hl => h.clear _ (by omega) (by omega) (by omega)
    · rw [Bool.not_eq_true', decide_eq_false_iff_not, hclear k hk (by omega)]
      intro hbits
      have hbit := hbits 0 hn
      rw [h.taken _ (by omega)] at hbit
      exact Bool.noConfusion hbit
  rw [AllocCall.found, firstClear, probes, hrange]
  have hzones : zonesFrom (0, 0) = [0] := rfl
  rw [hzones, List.flatMap_singleton, zoneProbes, if_neg hcnt, h.start, hjs, List.flatMap_cons,
    List.find?_append, List.find?_map]
  have hlow : List.range' (1 % 64) (64 - 1 % 64 - 1 % 64) = List.range' 1 62 := rfl
  rw [hlow]
  exact congrArg (fun o => (Option.map (Probe.mk 0 1) o).or _) hfirst

/-- The pages of a call that fits. -/
theorem NextFree.page (hm : m ≤ 62) (hn' : c.number.toNat ≤ 64) :
    (⟨0, 1, m⟩ : Probe).page = m ∧ runFrom m c.count = List.range' m c.number.toNat := by
  constructor
  · show (1 + m + (2 ^ 64 - 1)) % 2 ^ 64 = m
    omega
  · rw [c.count_eq (by omega), runFrom_eq_range' (by omega)]

/-- The call takes the next pages. -/
theorem NextFree.movedRun {P : ℕ → Prop} (h : NextFree m s) (hsel : c.zoneSelect ≠ zoneUnmapped)
    (h1 : 1 ≤ m) (hm : m ≤ 62) (hn : 1 ≤ c.number.toNat) (hn' : c.number.toNat ≤ 64)
    (hfits : m + c.number.toNat < (s.zones 0).endPage)
    (hP : ∀ x, m ≤ x → x < m + c.number.toNat → P x) : c.MovedRun P s := by
  obtain ⟨hpage, hrun⟩ := NextFree.page hm hn'
  refine AllocCall.movedRun_iff.mpr fun q hq x hx => ?_
  obtain rfl := Option.some.inj ((h.found hsel h1 hm hn hn' hfits).symm.trans hq)
  rw [hpage, hrun, List.mem_range'_1] at hx
  exact hP x hx.1 hx.2

/-- **The next call hands out the next pages.** -/
theorem NextFree.alloc (h : NextFree m s) (hsel : c.zoneSelect ≠ zoneUnmapped) (h1 : 1 ≤ m)
    (hm : m ≤ 62) (hn : 1 ≤ c.number.toNat) (hn' : c.number.toNat ≤ 64)
    (hfits : m + c.number.toNat < (s.zones 0).endPage) :
    c.TakesClear s ∧ ∃ t, c.run s = .pages m t ∧ NextFree (m + c.number.toNat) t := by
  have hin := h.inside
  obtain ⟨hpage, hrun⟩ := NextFree.page hm hn'
  constructor
  · exact h.movedRun hsel h1 hm hn hn' hfits fun x hx hx' =>
      ⟨by omega, h.clear x (by omega) (by omega) hx⟩
  · obtain ⟨t, ht, hfree⟩ := h.pageInits hfits c.pageFlags
    refine ⟨t, AllocCall.run_eq_pages_iff.mpr ⟨_, h.found hsel h1 hm hn hn' hfits, hpage, ?_⟩,
      hfree⟩
    rw [hpage, hrun, ht]

/-- A call that would not leave a page of the zone finds too few free pages counted. -/
theorem NextFree.run_eq_null (h : NextFree m s) (hsel : c.zoneSelect ≠ zoneUnmapped)
    (hn' : c.number.toNat ≤ 64) (hfits : (s.zones 0).endPage ≤ m + c.number.toNat) :
    c.run s = .null := by
  have hrange : zoneRange s c.zoneSelect = (0, 0) := by
    rw [zoneRange, h.gZoneDma, h.gZoneNormal, if_neg hsel, ite_self, ite_self]
  refine AllocCall.run_eq_null_iff.mpr ⟨?_, ?_⟩
  · rw [AllocCall.Ends, hrange]
    decide
  · rintro ⟨i, -, hi, hfree, -⟩
    rw [hrange] at hi
    obtain rfl : i = 0 := Nat.le_zero.mp hi
    have hcount := c.count_eq (by omega)
    have hcnt := h.count
    rw [AllocCall.count] at hcount
    rw [Zone.HasFree, BitVec.lt_def, hcount] at hfree
    omega

/-- The next page after a list of calls, in a zone that ends at page `stop` and has `m` as its next
page now: the calls that leave a page of the zone take theirs. -/
def nextAfter (stop m : ℕ) (cs : List AllocCall) : ℕ :=
  cs.foldl (fun m c => if m + c.number.toNat < stop then m + c.number.toNat else m) m

theorem le_nextAfter (stop m : ℕ) (cs : List AllocCall) : m ≤ nextAfter stop m cs := by
  induction cs generalizing m with
  | nil => exact le_rfl
  | cons c cs ih =>
    refine le_trans ?_ (ih _)
    show m ≤ if m + c.number.toNat < stop then m + c.number.toNat else m
    split
    · exact Nat.le_add_right _ _
    · exact le_rfl

/-! ## After `init_memory` -/

/-- The zone loop leaves the zone indices alone. -/
theorem addZones_zoneIndices (s : MemState) (table : List E820) :
    (addZones s table).gZoneDma = s.gZoneDma ∧
      (addZones s table).gZoneNormal = s.gZoneNormal := by
  induction table generalizing s with
  | nil => exact ⟨rfl, rfl⟩
  | cons e table ih =>
    obtain ⟨hdma, hnormal⟩ := ih (addZone s e)
    have hone : (addZone s e).gZoneDma = s.gZoneDma ∧
        (addZone s e).gZoneNormal = s.gZoneNormal := by
      rcases addZone_cases s e with ⟨-, heq⟩ | ⟨-, -, bits, heq, -⟩ <;> rw [heq] <;>
        exact ⟨rfl, rfl⟩
    exact ⟨hdma.trans hone.1, hnormal.trans hone.2⟩

/-- Zone 0 before the kernel takes its pages. -/
theorem nextFree_beforeReserve (hmap : SoundMap (e820Scan b.slots))
    (he : (zoneEntries (e820Scan b.slots))[0]? = some e) (hstart : e.startPage = 1) :
    NextFree 0 (beforeReserve b) := by
  have htab := hmap.zoneTable
  have hmem := mem_zoneEntries.mp (List.mem_of_getElem? he)
  have hzone : (beforeReserve b).zones 0 = e.zone := htab.zone 0 e he
  have hend : ((beforeReserve b).zones 0).endPage = e.endPage := by
    rw [hzone, E820.zone_endPage]
  have hpage : ∀ x, 1 ≤ x → x < e.endPage →
      (beforeReserve b).pages x = freshPage 0 x ∧ (beforeReserve b).bits.bit x = false := by
    intro x h1 hx
    obtain ⟨hpage, hbit⟩ := htab.page 0 e he x (by omega) hx
    exact ⟨(Function.update_of_ne (by omega) ..).trans hpage, hbit⟩
  have hpage0 : (beforeReserve b).pages 0 = freshPage 0 0 := by
    show Function.update (afterZones b).pages 0 _ 0 = _
    rw [Function.update_self]
    rfl
  have hfresh : ∀ x < e.endPage, (beforeReserve b).pages x = freshPage 0 x := by
    intro x hx
    rcases Nat.eq_zero_or_pos x with rfl | h1
    · exact hpage0
    · exact (hpage x h1 hx).1
  obtain ⟨hdma, hnormal⟩ := addZones_zoneIndices (initArrays b) (initDesc b).e820
  refine ⟨hdma, hnormal, ?_, ?_, ?_, fun x hx => ?_, fun x hx => ?_, fun x hx _ => ?_,
    fun x hx => absurd hx (Nat.not_lt_zero x), fun x hx h1 _ => ?_⟩
  · rw [hzone, E820.zone_startPage, hstart]
  · have hcnt := hmem.2.toNat_pageFreeCnt
    have hlt := hmem.2.2
    rw [hend, hzone, hcnt]
    omega
  · rw [hend]
    exact (hmap.endPage_le hmem.1).trans_eq htab.bitsSize.symm
  · rw [hfresh x (hend ▸ hx)]
    rfl
  · rw [hfresh x (hend ▸ hx)]
    rfl
  · rw [hfresh x (hend ▸ hx)]
    rfl
  · exact (hpage x h1 (hend ▸ hx)).2

/-- **Behind the kernel all pages are free.** -/
theorem nextFree_initMemory (hmap : SoundMap (e820Scan b.slots))
    (he : (zoneEntries (e820Scan b.slots))[0]? = some e) (hstart : e.startPage = 1)
    (h : initMemory b = some s) (hfits : lastKernelPage s + 1 < e.endPage) :
    NextFree (lastKernelPage s + 1) s ∧ (s.zones 0).endPage = e.endPage := by
  have hfree := nextFree_beforeReserve hmap he hstart
  have hend : ((beforeReserve b).zones 0).endPage = e.endPage := by
    have hzone : (beforeReserve b).zones 0 = e.zone := hmap.zoneTable.zone 0 e he
    rw [hzone, E820.zone_endPage]
  obtain ⟨t, ht, rfl⟩ := initMemory_eq_some_iff.mp h
  have hlay := pageInits_sameLayout ht
  have hlast : lastKernelPage (beforeReserve b) = lastKernelPage t := by
    rw [lastKernelPage, lastKernelPage, hlay.desc]
  have hfits : lastKernelPage t + 1 < e.endPage := hfits
  rw [hlast, List.range_eq_range'] at ht
  obtain ⟨u, hu, hnext⟩ := hfree.pageInits (n := lastKernelPage t + 1) (by omega) kernelFlags
  obtain rfl := Option.some.inj (ht.symm.trans hu)
  rw [Nat.zero_add] at hnext
  exact ⟨⟨hnext.gZoneDma, hnext.gZoneNormal, hnext.start, hnext.count, hnext.inside, hnext.zone,
    hnext.phyAddr, hnext.attr, hnext.taken, hnext.clear⟩, (hlay.endPage 0).trans hend⟩

end Memory
end OSLib
