import OSLib.Foundation.Align
import OSLib.Memory.FreeMap
import OSLib.Memory.LowZone

/-!
# The layout of the three arrays

`init_memory` puts the bitmap, the page structs and the zone structs one behind the other, from
`end_brk` on, each at the next 4 KiB boundary, and takes the pages up to the end of the last array
for the kernel.

The sizes come from two numbers: `n`, the number of 2 MiB pages below the end of the last entry of
the memory map, and `k`, the number of zones.  `pagesStart`, `zonesStart` and `structEnd` are the
layout in natural numbers, where nothing wraps around; the addresses in the descriptor are these
modulo `2 ^ 64`.  So the arrays are in order exactly when the layout ends below `2 ^ 64`
(`initMemory_laidOut`), and they stay in the part of memory that is mapped exactly when it ends in
time (`inWindow_iff`).

## The window

`head.sx` maps five pages of RAM at the start of the upper half, and the frame buffer behind them.
An array that reaches the second window is not a fault: its structs are written to the screen, and
read back from there.  Behind the second window a store faults.  `inWindow_iff` is about the first
one, and its condition is a closed formula in `end_brk`, `n` and `k`, which a boot loader could
check before it starts the kernel.

The proof is about `structEnd`, a sum of three roundings, which grows in each of its arguments.  All
addresses on the way are below it, so that none of them wraps when it does not.
-/

namespace OSLib
namespace Memory

variable {table : List E820} {s t : MemState} {e : E820} {x k n : ℕ} {b : Boot}

/-! ## The layout in natural numbers -/

/-- The start of the page structs, for a bitmap of `n` bits at address `a`. -/
def pagesStart (a n : ℕ) : ℕ := roundUp 12 (a + (n + 63) / 64 * 8)

/-- The start of the zone structs. -/
def zonesStart (a n : ℕ) : ℕ := roundUp 12 (pagesStart a n + n * 40)

/-- The end of the arrays, with `k` zone structs and room for 32 more words. -/
def structEnd (a n k : ℕ) : ℕ := (zonesStart a n + 80 * k + 256) / 8 * 8

/-- What the sizes say about the end, one array after the other. -/
theorem structEnd_bounds (a n k : ℕ) :
    a + (n + 63) / 64 * 8 ≤ pagesStart a n ∧ pagesStart a n + n * 40 ≤ zonesStart a n ∧
      zonesStart a n + 80 * k + 249 ≤ structEnd a n k := by
  refine ⟨le_roundUp 12 _, le_roundUp 12 _, ?_⟩
  rw [structEnd]
  omega

/-- The arrays take little more than their sizes. -/
theorem structEnd_le (a n k : ℕ) :
    structEnd a n k ≤ a + (n + 63) / 64 * 8 + n * 40 + 80 * k + 2 * 2 ^ 12 + 256 := by
  have hpages : pagesStart a n < a + (n + 63) / 64 * 8 + 2 ^ 12 := roundUp_lt 12 _
  have hzones : zonesStart a n < pagesStart a n + n * 40 + 2 ^ 12 := roundUp_lt 12 _
  rw [structEnd]
  omega

/-! ## The descriptor -/

theorem toNat_page4kAlign (a : BitVec 64) :
    (page4kAlign a).toNat = roundUp 12 a.toNat % 2 ^ 64 := by
  have hsum : a + page4kSize - 1 = a + (page4kSize - 1) := add_sub_assoc a _ _
  have hmask : page4kMask = ~~~BitVec.ofNat 64 (2 ^ 12 - 1) := by decide
  rw [page4kAlign, hsum, hmask]
  exact toNat_alignUp (by decide) a (by decide)

/-- The start of an array behind another one. -/
theorem toNat_page4kAlign_add (a : BitVec 64) (l : ℕ) :
    (page4kAlign (a + BitVec.ofNat 64 l)).toNat = roundUp 12 (a.toNat + l) % 2 ^ 64 := by
  rw [toNat_page4kAlign, BitVec.toNat_add, BitVec.toNat_ofNat, Nat.add_mod_mod,
    roundUp_mod (by decide)]

/-- The sizes in the descriptor. -/
theorem initDesc_sizes (b : Boot) :
    (initDesc b).bitsLen = ((initDesc b).bitsSize + 63) / 64 * 8 ∧
      (initDesc b).pagesLen = (initDesc b).bitsSize * 40 := by
  constructor
  · change ((initDesc b).bitsSize + 63) / 8 / 8 * 8 = _
    rw [Nat.div_div_eq_div_mul]
  · change ((initDesc b).bitsSize * 40 + 7) / 8 * 8 = _
    omega

theorem toNat_pagesStruct (b : Boot) : (initDesc b).pagesStruct.toNat =
    pagesStart (initDesc b).bitsMap.toNat (initDesc b).bitsSize % 2 ^ 64 := by
  rw [pagesStart, ← (initDesc_sizes b).1]
  exact toNat_page4kAlign_add _ _

theorem toNat_zonesStruct (b : Boot) : (initDesc b).zonesStruct.toNat =
    zonesStart (initDesc b).bitsMap.toNat (initDesc b).bitsSize % 2 ^ 64 := by
  have h : (initDesc b).zonesStruct.toNat =
      roundUp 12 ((initDesc b).pagesStruct.toNat + (initDesc b).pagesLen) % 2 ^ 64 :=
    toNat_page4kAlign_add _ _
  rw [h, toNat_pagesStruct, (initDesc_sizes b).2, ← roundUp_mod (by decide), Nat.mod_add_mod,
    roundUp_mod (by decide), zonesStart]

/-- The zone loop counts the zones and their bytes. -/
theorem addZones_desc (s : MemState) (table : List E820) :
    (addZones s table).desc = { s.desc with
      zonesSize := s.desc.zonesSize + (zoneEntries table).length
      zonesLen := s.desc.zonesLen + 80 * (zoneEntries table).length } := by
  induction table generalizing s with
  | nil => rfl
  | cons e table ih =>
    rw [addZones, List.foldl_cons]
    refine (ih (addZone s e)).trans ?_
    rcases addZone_cases s e with ⟨hno, heq⟩ | ⟨hram, hlt, bits, heq, -⟩
    · have hpages : ¬ e.HasPages := fun h => hno.elim (fun h' => h' h.1) fun h' => by
        have := h.2
        omega
      rw [heq, zoneEntries, zoneEntries, List.filter_cons_of_neg (by simpa using hpages)]
    · have hpages : e.HasPages := ⟨hram, hlt⟩
      rw [heq, zoneEntries, zoneEntries, List.filter_cons_of_pos (by simpa using hpages),
        List.length_cons]
      simp only [withZone, GlobalMemoryDesc.mk.injEq, true_and, and_true]
      omega

theorem e820From_length (slots : ℕ → E820) (n i : ℕ) : (e820From slots n i).length ≤ n := by
  induction n generalizing i with
  | zero => exact Nat.le_refl 0
  | succ n ih =>
    rw [e820From, List.length_cons]
    refine Nat.succ_le_succ ?_
    split
    · exact Nat.zero_le n
    · exact ih (i + 1)

/-- The number of zones. -/
def Boot.zoneCount (b : Boot) : ℕ := (zoneEntries (e820Scan b.slots)).length

/-- The descriptor `init_memory` leaves. -/
theorem initMemory_desc (h : initMemory b = some s) : s.desc = { initDesc b with
    zonesSize := b.zoneCount
    zonesLen := 80 * b.zoneCount
    endOfStruct := ((initDesc b).zonesStruct + BitVec.ofNat 64 (80 * b.zoneCount) + 256) &&&
      ~~~7 } := by
  obtain ⟨t, ht, rfl⟩ := initMemory_eq_some_iff.mp h
  have hloop := addZones_desc (initArrays b) (e820Scan b.slots)
  have hzero : (initArrays b).desc.zonesSize = 0 ∧ (initArrays b).desc.zonesLen = 0 := ⟨rfl, rfl⟩
  rw [hzero.1, hzero.2, Nat.zero_add, Nat.zero_add] at hloop
  have hdesc : t.desc = (beforeReserve b).desc := (pageInits_sameLayout ht).desc
  change t.desc = _
  rw [hdesc]
  change { (addZones (initArrays b) (e820Scan b.slots)).desc with
    endOfStruct := ((addZones (initArrays b) (e820Scan b.slots)).desc.zonesStruct +
      BitVec.ofNat 64 (addZones (initArrays b) (e820Scan b.slots)).desc.zonesLen + 256) &&&
        ~~~7 } = _
  rw [hloop]
  rfl

theorem toNat_endOfStruct (h : initMemory b = some s) : s.desc.endOfStruct.toNat =
    structEnd (initDesc b).bitsMap.toNat (initDesc b).bitsSize b.zoneCount % 2 ^ 64 := by
  have hmask : (7 : BitVec 64) = BitVec.ofNat 64 (2 ^ 3 - 1) := rfl
  have hroom : (256 : BitVec 64).toNat = 256 := rfl
  rw [initMemory_desc h]
  simp only
  rw [hmask, toNat_and_not_mask, BitVec.toNat_add, BitVec.toNat_add, toNat_zonesStruct,
    BitVec.toNat_ofNat, hroom, structEnd]
  omega

/-! ## The order of the arrays -/

/-- The three arrays follow one another, behind the kernel image and before `end_of_struct`. -/
structure LaidOut (d : GlobalMemoryDesc) : Prop where
  bits : d.endBrk.toNat ≤ d.bitsMap.toNat
  pages : d.bitsMap.toNat + d.bitsLen ≤ d.pagesStruct.toNat
  zones : d.pagesStruct.toNat + d.pagesLen ≤ d.zonesStruct.toNat
  ends : d.zonesStruct.toNat + d.zonesLen ≤ d.endOfStruct.toNat

/-- The end of the layout behind the kernel image. -/
def Boot.layoutEnd (b : Boot) : ℕ :=
  structEnd (roundUp 12 b.endBrk.toNat) (initDesc b).bitsSize b.zoneCount

/-- **When the arrays are in order**: when no address wrapped around. -/
theorem laidOut_iff (h : initMemory b = some s) : LaidOut s.desc ↔ b.layoutEnd < 2 ^ 64 := by
  obtain ⟨hbits, hpages, hend⟩ :=
    structEnd_bounds (roundUp 12 b.endBrk.toNat) (initDesc b).bitsSize b.zoneCount
  have hmap : (initDesc b).bitsMap.toNat = roundUp 12 b.endBrk.toNat % 2 ^ 64 :=
    toNat_page4kAlign _
  have hstart : b.endBrk.toNat ≤ roundUp 12 b.endBrk.toNat := le_roundUp 12 _
  have heos := toNat_endOfStruct h
  have hdesc := initMemory_desc h
  obtain ⟨hbitsLen, hpagesLen⟩ := initDesc_sizes b
  have hps := toNat_pagesStruct b
  have hzs := toNat_zonesStruct b
  constructor
  · rintro ⟨h1, h2, h3, h4⟩
    rw [heos] at h4
    rw [hdesc] at h1 h2 h3 h4
    simp only at h1 h2 h3 h4
    -- one array after the other: none of the addresses wrapped around
    have hlt1 : roundUp 12 b.endBrk.toNat < 2 ^ 64 :=
      (le_roundUp_mod_iff (by decide)).mp (hmap ▸ h1)
    rw [hmap, Nat.mod_eq_of_lt hlt1] at hps hzs h2 h4
    rw [hps, hbitsLen] at h2
    have hlt2 : pagesStart (roundUp 12 b.endBrk.toNat) (initDesc b).bitsSize < 2 ^ 64 :=
      (le_roundUp_mod_iff (by decide)).mp h2
    rw [hps, hzs, hpagesLen, Nat.mod_eq_of_lt hlt2] at h3
    have hlt3 : zonesStart (roundUp 12 b.endBrk.toNat) (initDesc b).bitsSize < 2 ^ 64 :=
      (le_roundUp_mod_iff (by decide)).mp h3
    rw [hzs, Nat.mod_eq_of_lt hlt3] at h4
    rw [structEnd] at h4
    rw [Boot.layoutEnd, structEnd]
    omega
  · intro hlt
    rw [Boot.layoutEnd] at hlt
    rw [Nat.mod_eq_of_lt (by omega)] at hmap
    rw [hmap, Nat.mod_eq_of_lt (by omega)] at hps hzs heos
    refine ⟨?_, ?_, ?_, ?_⟩
    · rw [hdesc]
      simp only
      rw [hmap]
      exact hstart
    · rw [hdesc]
      simp only
      rw [hmap, hps, hbitsLen]
      exact hbits
    · rw [hdesc]
      simp only
      rw [hps, hzs, hpagesLen]
      exact hpages
    · rw [heos, hdesc]
      simp only
      rw [hzs]
      omega

/-! ## The pages of the kernel -/

/-- A free page struct in the list gets the bit of its address set. -/
theorem pageInits_bit_of_free {flags : BitVec 64} {ps : List ℕ}
    (hattr : (s.pages x).attr = 0) (hphy : pageNo (s.pages x).phyAddr = x) (hx : x ∈ ps)
    (h : pageInits flags s ps = some t) : t.bits.bit x = true := by
  induction ps generalizing s with
  | nil => exact absurd hx List.not_mem_nil
  | cons p ps ih =>
    obtain ⟨u, hu, ht⟩ := pageInits_cons.mp h
    by_cases hp : x = p
    · subst hp
      refine pageInits_bit_of_set ht ?_
      rcases pageInit_cases hu with ⟨-, -, rfl⟩ | ⟨hused, -⟩ | ⟨hused, -⟩
      · simp [hphy]
      · exact absurd hattr hused
      · exact absurd hattr hused
    · have hpages := pageInit_pages_of_ne hu hp
      exact ih (by rw [hpages, hattr]) (by rw [hpages, hphy])
        ((List.mem_cons.mp hx).resolve_left hp) ht

theorem withZone_pages (s : MemState) (a n x : ℕ) (bits : Bitmap) : (withZone s a n bits).pages x =
    if a ≤ x ∧ x < n then freshPage s.desc.zonesSize x else s.pages x := rfl

/-- The zone loop sets up the struct of every page of a RAM entry, for any memory map. -/
theorem addZones_freshPage (he : e ∈ table) (hram : e.type = ram) (h1 : e.startPage ≤ x)
    (h2 : x < e.endPage) (s : MemState) : ∃ z, (addZones s table).pages x = freshPage z x := by
  have hkeep : ∀ (table : List E820) (s : MemState), (∃ z, s.pages x = freshPage z x) →
      ∃ z, (addZones s table).pages x = freshPage z x := by
    intro table
    induction table with
    | nil => exact fun s hs => hs
    | cons e' table ih =>
      rintro s ⟨z, hz⟩
      refine ih (addZone s e') ?_
      rcases addZone_cases s e' with ⟨-, heq⟩ | ⟨-, -, bits, heq, -⟩
      · rw [heq]
        exact ⟨z, hz⟩
      · rw [heq, withZone_pages]
        by_cases hin : e'.startPage ≤ x ∧ x < e'.endPage
        · exact ⟨s.desc.zonesSize, if_pos hin⟩
        · exact ⟨z, (if_neg hin).trans hz⟩
  induction table generalizing s with
  | nil => exact absurd he List.not_mem_nil
  | cons e' table ih =>
    rcases List.mem_cons.mp he with rfl | he
    · refine hkeep table (addZone s e) ?_
      rcases addZone_cases s e with ⟨hno, -⟩ | ⟨-, -, bits, heq, -⟩
      · exact hno.elim (fun h => absurd hram h) fun h => absurd h (by omega)
      · rw [heq, withZone_pages]
        exact ⟨s.desc.zonesSize, if_pos ⟨h1, h2⟩⟩
    · exact ih he (addZone s e')

theorem initPage0_pages (s : MemState) : (initPage0 s).pages 0 = ⟨some 0, 0, 0, 0, 0⟩ := by
  simp only [initPage0, Function.update_self]

/-- Page `x` is a page of a RAM entry. -/
def InRam (table : List E820) (x : ℕ) : Prop :=
  ∃ e ∈ table, e.type = ram ∧ e.startPage ≤ x ∧ x < e.endPage

/-- **The pages of the kernel have their bits set.** -/
theorem initMemory_bit_kernel (h : initMemory b = some s)
    (hram : ∀ x, 1 ≤ x → x ≤ lastKernelPage s → InRam (e820Scan b.slots) x)
    (hx : x ≤ lastKernelPage s) : s.bits.bit x = true := by
  obtain ⟨t, ht, rfl⟩ := initMemory_eq_some_iff.mp h
  have hmem := mem_reserved ht hx
  change t.bits.bit x = true
  rcases Nat.eq_zero_or_pos x with rfl | hpos
  · have hpage : (beforeReserve b).pages 0 = ⟨some 0, 0, 0, 0, 0⟩ :=
      initPage0_pages (addZones (initArrays b) (initDesc b).e820)
    refine pageInits_bit_of_free ?_ ?_ hmem ht
    · rw [hpage]
    · rw [hpage]
      decide
  · obtain ⟨e, he, htype, h1, h2⟩ := hram x hpos hx
    obtain ⟨z, hz⟩ := addZones_freshPage he htype h1 h2 (initArrays b)
    have hpage : (beforeReserve b).pages x = freshPage z x :=
      (Function.update_of_ne (by omega) ..).trans hz
    refine pageInits_bit_of_free ?_ ?_ hmem ht
    · rw [hpage]
      rfl
    · rw [hpage]
      exact pageNo_pageAddr (lt_trans h2 (pageNo_lt _))

/-- The last entry ends last, the ends taken as the code computes them. -/
def LastHighest (table : List E820) : Prop := ∀ e ∈ table, e.addr + e.len ≤ totelMem table

instance (table : List E820) : Decidable (LastHighest table) := by
  unfold LastHighest
  infer_instance

/-- A page of RAM is a page of the bitmap when the last entry ends last. -/
theorem LastHighest.lt (h : LastHighest table) (hx : InRam table x) :
    x < pageNo (totelMem table) := by
  obtain ⟨e, he, -, -, hlt⟩ := hx
  have hle := h e he
  rw [BitVec.le_def] at hle
  rw [E820.endPage, pageNo_eq] at hlt
  rw [pageNo_eq]
  omega

/-- **The layout of `init_memory`.**  For every `end_brk` and every memory map whose pages up to the
last page of the kernel are RAM, page 0 apart: the arrays are behind the kernel image, in order and
before `end_of_struct` exactly when the layout ends below `2 ^ 64`; they are long enough; and the
pages from 0 to the one `end_of_struct` lies in have their bits set, which are bits of the bitmap
when the last entry ends last. -/
theorem initMemory_laidOut (h : initMemory b = some s)
    (hram : ∀ x, 1 ≤ x → x ≤ lastKernelPage s → InRam (e820Scan b.slots) x) :
    (LaidOut s.desc ↔ b.layoutEnd < 2 ^ 64) ∧
      s.desc.bitsSize ≤ 8 * s.desc.bitsLen ∧ s.desc.bitsSize * 40 ≤ s.desc.pagesLen ∧
      (∀ x ≤ lastKernelPage s, s.bits.bit x = true) ∧
      (LastHighest (e820Scan b.slots) →
        ∀ x, 1 ≤ x → x ≤ lastKernelPage s → x < s.desc.bitsSize) := by
  obtain ⟨hbitsLen, hpagesLen⟩ := initDesc_sizes b
  refine ⟨laidOut_iff h, ?_, ?_, fun x hx => initMemory_bit_kernel h hram hx,
    fun hlast x h1 hx => ?_⟩
  · rw [initMemory_desc h]
    simp only
    rw [hbitsLen]
    omega
  · rw [initMemory_desc h]
    simp only
    rw [hpagesLen]
  · rw [initMemory_desc h]
    exact hlast.lt (hram x h1 hx)

/-- The PC with a kernel that ends at 3 MiB. -/
def largeKernelBoot : Boot := { pcBoot with endBrk := 0xffff800000300000 }

/-- There the layout is in order, and page 1 is taken for the kernel. -/
theorem largeKernelBoot_laidOut :
    ∃ s, initMemory largeKernelBoot = some s ∧ LaidOut s.desc ∧ s.bits.bit 1 = true := by
  obtain ⟨s, h⟩ := exists_initMemory largeKernelBoot
  have hlast : lastKernelPage s = 1 := by
    rw [lastKernelPage, initMemory_desc h]
    decide +kernel
  obtain ⟨hlaid, -, -, hbits, -⟩ := initMemory_laidOut h fun x h1 hx => by
    obtain rfl : x = 1 := by omega
    exact ⟨⟨0x100000, 0x8900000, 1⟩, by decide, rfl, by decide, by decide⟩
  exact ⟨s, h, hlaid.mpr (by decide +kernel), hbits 1 (by omega)⟩

/-- A machine with 176 TiB of RAM and a reserved region up to `2 ^ 63`. -/
def hugeBoot : Boot :=
  Boot.ofMap [⟨0x100000, 0xaffffff00000, 1⟩, ⟨0xb00000000000, 0x7fff500000000000, 2⟩]

/-- **A layout that wraps around.**  The page structs for `2 ^ 42` pages do not fit between the
kernel and the end of the address space: the zone structs come to lie below them. -/
theorem hugeBoot_not_laidOut :
    ∃ s, initMemory hugeBoot = some s ∧ LastHighest (e820Scan hugeBoot.slots) ∧
      (∀ x, 1 ≤ x → x ≤ lastKernelPage s → InRam (e820Scan hugeBoot.slots) x) ∧
      ¬ LaidOut s.desc := by
  obtain ⟨s, h⟩ := exists_initMemory hugeBoot
  have hlast : lastKernelPage s < 0x5800000 := by
    rw [lastKernelPage, initMemory_desc h]
    decide +kernel
  refine ⟨s, h, by decide, fun x h1 hx => ?_, fun hlaid => ?_⟩
  · have hstart : E820.startPage ⟨0x100000, 0xaffffff00000, 1⟩ = 1 := by decide
    have hend : E820.endPage ⟨0x100000, 0xaffffff00000, 1⟩ = 0x5800000 := by decide
    exact ⟨⟨0x100000, 0xaffffff00000, 1⟩, by decide, rfl, by omega, by omega⟩
  · exact absurd ((laidOut_iff h).mp hlaid) (by decide +kernel)

/-! ## The part of memory that is mapped -/

/-- Where the page directory of `head.sx` stops mapping RAM and starts mapping the framebuffer: the
virtual address of page 5. -/
def windowEnd : ℕ := 0xffff800000a00000

/-- The addresses from `bits_map` to `end_of_struct` are below the end of the window. -/
def InWindow (d : GlobalMemoryDesc) : Prop :=
  ∀ a : BitVec 64, (a - d.bitsMap).toNat < (d.endOfStruct - d.bitsMap).toNat → a.toNat < windowEnd

/-- **When the metadata stays in the window**, for every memory map: when its layout, from `end_brk`
rounded up, ends there. -/
theorem inWindow_iff (h : initMemory b = some s) :
    InWindow s.desc ↔ structEnd (page4kAlign b.endBrk).toNat (pageNo (totelMem (e820Scan b.slots)))
      b.zoneCount ≤ windowEnd := by
  have hcount : b.zoneCount ≤ 32 := (List.length_filter_le _ _).trans (e820From_length _ 32 0)
  have hpage : pageNo (totelMem (e820Scan b.slots)) < 2 ^ 43 := pageNo_lt _
  have hmap : s.desc.bitsMap = page4kAlign b.endBrk := by rw [initMemory_desc h]; rfl
  have hend : s.desc.endOfStruct.toNat = structEnd (page4kAlign b.endBrk).toNat
      (pageNo (totelMem (e820Scan b.slots))) b.zoneCount % 2 ^ 64 := toNat_endOfStruct h
  have hle := structEnd_le (page4kAlign b.endBrk).toNat
    (pageNo (totelMem (e820Scan b.slots))) b.zoneCount
  obtain ⟨h1, h2, h3⟩ := structEnd_bounds (page4kAlign b.endBrk).toNat
    (pageNo (totelMem (e820Scan b.slots))) b.zoneCount
  generalize structEnd _ _ _ = stop at *
  have hmapLt := (page4kAlign b.endBrk).isLt
  have hsize : (s.desc.endOfStruct - s.desc.bitsMap).toNat =
      stop - (page4kAlign b.endBrk).toNat := by
    rw [hmap, BitVec.toNat_sub, hend]
    omega
  unfold InWindow
  rw [hsize, hmap]
  constructor
  · intro hin
    by_contra hgt
    -- the first address of the range that is not in the window
    by_cases hstart : (page4kAlign b.endBrk).toNat < windowEnd
    · have hbad := hin (BitVec.ofNat 64 windowEnd) (by
        rw [BitVec.toNat_sub, BitVec.toNat_ofNat]
        unfold windowEnd at *
        omega)
      exact absurd hbad (by decide)
    · exact hstart (hin _ (by rw [BitVec.sub_self, BitVec.toNat_zero]; omega))
  · intro hstop a ha
    rw [BitVec.toNat_sub] at ha
    have := a.isLt
    unfold windowEnd at *
    omega

/-- The PC stays in the window. -/
theorem pcState_inWindow : InWindow pcState.desc :=
  (inWindow_iff initMemory_pcBoot).mpr (by decide +kernel)

/-- The PC with a reserved region that ends at 1 TiB. -/
def sparseBoot : Boot :=
  Boot.ofMap [⟨0, 0x9fc00, 1⟩, ⟨0x100000, 0x8900000, 1⟩, ⟨0xfd00000000, 0x300000000, 2⟩]

/-- **Page structs in the framebuffer.**  There is a page struct for each of the `2 ^ 19` pages up
to 1 TiB, 20 MiB of them. -/
theorem sparseBoot_not_inWindow :
    ∃ s, initMemory sparseBoot = some s ∧ ¬ InWindow s.desc := by
  obtain ⟨s, h⟩ := exists_initMemory sparseBoot
  have hrange : (BitVec.ofNat 64 windowEnd - s.desc.bitsMap).toNat <
      (s.desc.endOfStruct - s.desc.bitsMap).toNat := by
    rw [initMemory_desc h]
    decide +kernel
  exact ⟨s, h, fun hin => absurd (hin _ hrange) (by decide)⟩

end Memory
end OSLib
