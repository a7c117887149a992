import OSLib.Memory.Page

/-!
# `init_memory`

`init_memory` reads the BIOS memory map at physical address `0x7e00`, lays the three arrays out
behind the kernel image, makes a zone of every RAM entry that holds a whole 2 MiB page, and takes
the pages from 0 up to the end of the arrays for the kernel.

`Boot` is what the function finds: the slots of the memory map, `end_brk`, and whatever the memory
behind the arrays held before.  The bitmap is filled with ones and the page structs with zeros
first; past their sized part the arrays keep the old contents.

The zone loop flips bits, it does not clear them, and a page struct is written once for every RAM
entry that holds the page.  `addZone_cases` says what one entry does; nothing is assumed of the map
there.

## Flat memory

The stores to the arrays go through virtual addresses of which `head.sx` maps the first 10 MiB
only.  Here every store arrives: the contents of the arrays are what the code computes wherever they
lie, and whether they lie where something is mapped is a question about addresses alone, which
`inWindow_iff` in `Layout` answers.  The two are kept apart because the answer depends on the map
and on `end_brk`, and nothing that the loops compute depends on the answer.

Left out are the messages, and the end of the function, which clears the low entries of the `PML4`:
`AddressSpace` is about that.  All that is kept of it here is the flag `lowMapped`, since it decides
what following a null pointer does.
-/

namespace OSLib
namespace Memory

/-! ## The memory map -/

/-- What `init_memory` finds. -/
structure Boot where
  slots : ℕ → E820
  endBrk : BitVec 64
  bits : Bitmap
  pages : ℕ → Page
  zones : ℕ → Zone

/-- The test `p->type > ACPI_NVS || 0 == p->len || p->type < RAM` that ends the scan. -/
def E820.Ends (p : E820) : Prop := acpiNvs < p.type ∨ p.len = 0 ∨ p.type < ram

instance (p : E820) : Decidable p.Ends := by unfold E820.Ends; infer_instance

/-- The entries from slot `i` on, at most `n` of them.  An entry is recorded before the slot behind
it is tested. -/
def e820From (slots : ℕ → E820) : ℕ → ℕ → List E820
  | 0, _ => []
  | n + 1, i => slots i :: if (slots (i + 1)).Ends then [] else e820From slots n (i + 1)

/-- The table `init_memory` records: the first 32 slots, up to the first one whose successor
ends the scan. -/
def e820Scan (slots : ℕ → E820) : List E820 := e820From slots 32 0

theorem e820From_ne_nil (slots : ℕ → E820) (n i : ℕ) : e820From slots (n + 1) i ≠ [] :=
  List.cons_ne_nil _ _

/-- `totel_mem`: the end of the last entry. -/
def totelMem (table : List E820) : BitVec 64 :=
  match table.getLast? with
  | some e => e.addr + e.len
  | none => 0

/-! ## The three arrays -/

/-- The descriptor once the arrays are laid out and before the first zone is made. -/
def initDesc (b : Boot) : GlobalMemoryDesc :=
  let table := e820Scan b.slots
  let bitsMap := page4kAlign b.endBrk
  let bitsSize := pageNo (totelMem table)
  let bitsLen := (bitsSize + 63) / 8 / 8 * 8
  let pagesStruct := page4kAlign (bitsMap + BitVec.ofNat 64 bitsLen)
  let pagesLen := (bitsSize * 40 + 7) / 8 * 8
  { e820 := table
    bitsMap := bitsMap
    bitsSize := bitsSize
    bitsLen := bitsLen
    pagesStruct := pagesStruct
    pagesSize := bitsSize
    pagesLen := pagesLen
    zonesStruct := page4kAlign (pagesStruct + BitVec.ofNat 64 pagesLen)
    zonesSize := 0
    zonesLen := 0
    endBrk := b.endBrk
    endOfStruct := 0 }

/-- The state before the zone loop: all bits of the bitmap are set and all page structs are zero. -/
def initArrays (b : Boot) : MemState where
  desc := initDesc b
  bits w := if w < (initDesc b).bitsLen / 8 then -1 else b.bits w
  pages x := if x < (initDesc b).pagesSize then Page.zero else b.pages x
  zones := b.zones
  gZoneDma := 0
  gZoneNormal := 0
  gZoneUnmapped := 0
  lowMapped := true

/-! ## The zone loop -/

/-- One turn of the page loop: set up page struct `j` of the zone and flip the bit of its page. -/
def initPage (z : ℕ) (start : BitVec 64) (s : MemState) (j : ℕ) : MemState :=
  let phy := start + page2mSize * BitVec.ofNat 64 j
  { s with
    pages := Function.update s.pages (pageNo start + j) ⟨some z, phy, 0, 0, 0⟩
    bits := s.bits.flip (pageNo phy) }

/-- The zone struct made for the pages from `start` to `stop`. -/
def initZone (start stop : BitVec 64) : Zone where
  pageGroup := pageNo start
  pageLen := (stop - start) >>> 21
  zoneStartAddr := start
  zoneEndAddr := stop
  zoneLen := stop - start
  attr := 0
  pageUsingCnt := 0
  pageFreeCnt := (stop - start) >>> 21
  totalPageLnk := 0

/-- One turn of the zone loop. -/
def addZone (s : MemState) (e : E820) : MemState :=
  let start := page2mAlign e.addr
  let stop := (e.addr + e.len) >>> 21 <<< 21
  if e.type ≠ ram then s
  else if stop ≤ start then s
  else
    let z := s.desc.zonesSize
    (List.range (initZone start stop).pageLen.toNat).foldl (initPage z start)
      { s with
        desc := { s.desc with zonesSize := z + 1, zonesLen := s.desc.zonesLen + 80 }
        zones := Function.update s.zones z (initZone start stop) }

/-- The zone loop. -/
def addZones (s : MemState) (table : List E820) : MemState := table.foldl addZone s

/-! ## The rest -/

/-- Page struct 0 is set up for address 0, whatever zone page 0 is in, if any. -/
def initPage0 (s : MemState) : MemState :=
  { s with pages := Function.update s.pages 0 ⟨some 0, 0, 0, 0, 0⟩ }

/-- `g_zone_unmapped` is the last zone that starts at 4 GiB, and stays 0 without one. -/
def findUnmapped (s : MemState) : MemState :=
  { s with
    gZoneUnmapped := (List.range s.desc.zonesSize).foldl
      (fun g i => if (s.zones i).zoneStartAddr = 0x100000000 then i else g) s.gZoneUnmapped
    desc := { s.desc with
      endOfStruct := (s.desc.zonesStruct + BitVec.ofNat 64 s.desc.zonesLen + 256) &&& ~~~7 } }

/-- The flags of the pages that hold the kernel. -/
def kernelFlags : BitVec 64 := pgPTableMaped ||| pgKernelInit ||| pgActive ||| pgKernel

/-- The last page of the kernel: the one that `end_of_struct` lies in. -/
def lastKernelPage (s : MemState) : ℕ := pageNo (virtToPhy s.desc.endOfStruct)

/-- The state before the pages of the kernel are taken. -/
def beforeReserve (b : Boot) : MemState :=
  findUnmapped (initPage0 (addZones (initArrays b) (initDesc b).e820))

/-- `init_memory`.  Once the pages `0, …, i` are taken, the first entries of the `PML4` are
zeroed. -/
def initMemory (b : Boot) : Option MemState :=
  let s := beforeReserve b
  (pageInits kernelFlags s (List.range (lastKernelPage s + 1))).map
    fun s => { s with lowMapped := false }

/-! ## What one entry does -/

namespace E820

variable (e : E820)

/-- The first 2 MiB page that starts in the entry. -/
def startPage : ℕ := pageNo (page2mAlign e.addr)

/-- The page the end of the entry lies in. -/
def endPage : ℕ := pageNo (e.addr + e.len)

end E820

variable {s t : MemState} {e : E820} {a b z x : ℕ}

theorem page2mAlign_eq (addr : BitVec 64) :
    page2mAlign addr = pageAddr (pageNo (page2mAlign addr)) := by
  have h : page2mAlign addr &&& page2mMask = page2mAlign addr := by
    rw [page2mAlign, BitVec.and_assoc, BitVec.and_self]
  rw [← and_page2mMask, h]

theorem pageAddr_le_iff (ha : a < 2 ^ 43) (hb : b < 2 ^ 43) : pageAddr a ≤ pageAddr b ↔ a ≤ b := by
  rw [BitVec.le_def, toNat_pageAddr ha, toNat_pageAddr hb]
  omega

theorem pageNo_sub (hb : b < 2 ^ 43) (hab : a ≤ b) :
    ((pageAddr b - pageAddr a) >>> 21).toNat = b - a := by
  rw [BitVec.toNat_ushiftRight, Nat.shiftRight_eq_div_pow, BitVec.toNat_sub,
    toNat_pageAddr hb, toNat_pageAddr (lt_of_le_of_lt hab hb)]
  omega

theorem pageAddr_add (a j : ℕ) :
    pageAddr a + page2mSize * BitVec.ofNat 64 j = pageAddr (a + j) := by
  rw [pageAddr, pageAddr, show page2mSize = BitVec.ofNat 64 (2 ^ 21) by decide, ← BitVec.ofNat_mul,
    ← BitVec.ofNat_add]
  rw [Nat.add_mul, Nat.mul_comm j]

/-- The page struct of page `x` in a fresh zone. -/
def freshPage (z x : ℕ) : Page := ⟨some z, pageAddr x, 0, 0, 0⟩

/-- **The page loop.**  It writes the page structs of the zone and flips their bits. -/
theorem foldl_initPage (z : ℕ) {a n : ℕ} (h : a + n ≤ 2 ^ 43) (s : MemState) :
    ∃ bits : Bitmap, (List.range n).foldl (initPage z (pageAddr a)) s =
        { s with
          bits := bits
          pages := fun x => if a ≤ x ∧ x < a + n then freshPage z x else s.pages x } ∧
      ∀ x, bits.bit x = (decide (a ≤ x ∧ x < a + n) ^^ s.bits.bit x) := by
  induction n with
  | zero =>
    have hno : ∀ x, ¬ (a ≤ x ∧ x < a + 0) := by omega
    refine ⟨s.bits, ?_, fun x => ?_⟩
    · simp only [List.range_zero, List.foldl_nil, hno, if_false]
    · rw [decide_eq_false (hno x), Bool.false_xor]
  | succ n ih =>
    obtain ⟨bits, hfold, hbits⟩ := ih (by omega)
    have ha : pageNo (pageAddr a) = a := pageNo_pageAddr (by omega)
    have han : pageNo (pageAddr (a + n)) = a + n := pageNo_pageAddr (by omega)
    refine ⟨bits.flip (a + n), ?_, fun x => ?_⟩
    · rw [List.range_succ, List.foldl_append, hfold, List.foldl_cons, List.foldl_nil, initPage]
      simp only [pageAddr_add, ha, han]
      congr 1
      funext x
      by_cases hx : x = a + n
      · subst hx
        rw [Function.update_self, if_pos (by omega), freshPage]
      · rw [Function.update_of_ne hx]
        exact if_congr (by omega) rfl rfl
    · rw [Bitmap.bit_flip, hbits]
      by_cases hx : x = a + n
      · subst hx
        simp
      · rw [decide_eq_false hx, Bool.false_xor,
          decide_eq_decide.mpr (show (a ≤ x ∧ x < a + n) ↔ (a ≤ x ∧ x < a + (n + 1)) by omega)]

/-- The state after a zone was made of the pages `a, …, b - 1`. -/
def withZone (s : MemState) (a b : ℕ) (bits : Bitmap) : MemState :=
  { s with
    desc := { s.desc with zonesSize := s.desc.zonesSize + 1, zonesLen := s.desc.zonesLen + 80 }
    zones := Function.update s.zones s.desc.zonesSize (initZone (pageAddr a) (pageAddr b))
    bits := bits
    pages := fun x => if a ≤ x ∧ x < b then freshPage s.desc.zonesSize x else s.pages x }

/-- The turn of the zone loop, in page numbers. -/
theorem addZone_eq (s : MemState) (e : E820) :
    addZone s e =
      if e.type ≠ ram then s
      else if pageAddr e.endPage ≤ pageAddr e.startPage then s
      else
        (List.range (initZone (pageAddr e.startPage) (pageAddr e.endPage)).pageLen.toNat).foldl
          (initPage s.desc.zonesSize (pageAddr e.startPage))
          { s with
            desc := { s.desc with
              zonesSize := s.desc.zonesSize + 1, zonesLen := s.desc.zonesLen + 80 }
            zones := Function.update s.zones s.desc.zonesSize
              (initZone (pageAddr e.startPage) (pageAddr e.endPage)) } := by
  unfold addZone E820.startPage E820.endPage
  rw [shiftRight_shiftLeft, ← page2mAlign_eq e.addr]

/-- **One turn of the zone loop.**  An entry that is not RAM or holds no whole page is skipped;
another one makes a zone of the pages from its first to its end. -/
theorem addZone_cases (s : MemState) (e : E820) :
    ((e.type ≠ ram ∨ e.endPage ≤ e.startPage) ∧ addZone s e = s) ∨
    (e.type = ram ∧ e.startPage < e.endPage ∧
      ∃ bits : Bitmap, addZone s e = withZone s e.startPage e.endPage bits ∧
        ∀ x, bits.bit x = (decide (e.startPage ≤ x ∧ x < e.endPage) ^^ s.bits.bit x)) := by
  have ha : e.startPage < 2 ^ 43 := pageNo_lt _
  have hb : e.endPage < 2 ^ 43 := pageNo_lt _
  rw [addZone_eq]
  by_cases hram : e.type = ram
  · rw [if_neg (not_not.mpr hram)]
    by_cases hle : e.endPage ≤ e.startPage
    · rw [if_pos ((pageAddr_le_iff hb ha).mpr hle)]
      exact Or.inl ⟨Or.inr hle, rfl⟩
    · rw [if_neg (fun h => hle ((pageAddr_le_iff hb ha).mp h))]
      have hlt : e.startPage < e.endPage := Nat.lt_of_not_le hle
      have hlen : (initZone (pageAddr e.startPage) (pageAddr e.endPage)).pageLen.toNat =
          e.endPage - e.startPage := pageNo_sub hb hlt.le
      have hsum : e.startPage + (e.endPage - e.startPage) = e.endPage := by omega
      obtain ⟨bits, hfold, hbits⟩ := foldl_initPage s.desc.zonesSize
        (a := e.startPage) (n := e.endPage - e.startPage) (by omega)
        { s with
          desc := { s.desc with
            zonesSize := s.desc.zonesSize + 1, zonesLen := s.desc.zonesLen + 80 }
          zones := Function.update s.zones s.desc.zonesSize
            (initZone (pageAddr e.startPage) (pageAddr e.endPage)) }
      rw [hsum] at hfold hbits
      refine Or.inr ⟨hram, hlt, bits, ?_, hbits⟩
      rw [← hlen] at hfold
      exact hfold
  · rw [if_pos hram]
    exact Or.inl ⟨Or.inl hram, rfl⟩

/-! ## What `init_memory` does -/

variable {b : Boot}

/-- The words of the bitmap are filled with ones. -/
theorem initArrays_bit_of_word (hx : x / 64 < (initDesc b).bitsLen / 8) :
    (initArrays b).bits.bit x = true := by
  have hbit := Nat.mod_lt x (show 0 < 64 by decide)
  simp only [Bitmap.bit, initArrays, if_pos hx]
  rw [show (-1 : BitVec 64) = BitVec.allOnes 64 by decide, BitVec.getLsbD_allOnes]
  exact decide_eq_true hbit

/-- They cover the bits of all pages. -/
theorem initArrays_bit (hx : x < (initDesc b).bitsSize) : (initArrays b).bits.bit x = true := by
  refine initArrays_bit_of_word ?_
  change x / 64 < ((initDesc b).bitsSize + 63) / 8 / 8 * 8 / 8
  omega

/-- `init_memory` takes the pages `0, …, i` of the state before, and unmaps low memory. -/
theorem initMemory_eq_some_iff :
    initMemory b = some s ↔ ∃ t, pageInits kernelFlags (beforeReserve b)
      (List.range (lastKernelPage (beforeReserve b) + 1)) = some t ∧
        { t with lowMapped := false } = s := by
  simp only [initMemory, Option.map_eq_some_iff]

/-- The pages up to the last one of the kernel are among them. -/
theorem mem_reserved {t : MemState} {ps : List ℕ}
    (ht : pageInits kernelFlags (beforeReserve b) ps = some t) {x : ℕ} (hx : x ≤ lastKernelPage t) :
    x ∈ List.range (lastKernelPage (beforeReserve b) + 1) := by
  rw [List.mem_range, lastKernelPage, ← (pageInits_sameLayout ht).desc]
  exact Nat.lt_succ_of_le hx

/-- `init_memory` always returns: while it runs, low memory is mapped. -/
theorem exists_initMemory (b : Boot) : ∃ s, initMemory b = some s := by
  have hlow : ∀ (table : List E820) (s : MemState), s.lowMapped = true →
      (addZones s table).lowMapped = true := by
    intro table
    induction table with
    | nil => exact fun s hs => hs
    | cons e table ih =>
      intro s hs
      refine ih _ ?_
      rcases addZone_cases s e with ⟨-, heq⟩ | ⟨-, -, bits, heq, -⟩ <;> rw [heq] <;> exact hs
  obtain ⟨t, ht⟩ := exists_pageInits (s := beforeReserve b) kernelFlags
    (List.range (lastKernelPage (beforeReserve b) + 1)) fun _ _ _ => hlow _ _ rfl
  exact ⟨_, initMemory_eq_some_iff.mpr ⟨t, ht, rfl⟩⟩

/-! ## Two machines -/

/-- A machine with the given memory map, a kernel that ends 64 KiB behind 1 MiB, and zero bytes
behind it. -/
def Boot.ofMap (map : List E820) : Boot where
  slots i := map.getD i ⟨0, 0, 0⟩
  endBrk := 0xffff800000110000
  bits _ := 0
  pages _ := Page.zero
  zones _ := ⟨0, 0, 0, 0, 0, 0, 0, 0, 0⟩

/-- A PC with 138 MiB of memory: the low memory holds no whole page, and zone 0 starts at page 1. -/
def pcBoot : Boot := Boot.ofMap
  [⟨0, 0x9fc00, 1⟩, ⟨0x9fc00, 0x400, 2⟩, ⟨0xf0000, 0x10000, 2⟩, ⟨0x100000, 0x8900000, 1⟩]

/-- The PC after `init_memory`. -/
def pcState : MemState := (initMemory pcBoot).get (by decide +kernel)

theorem initMemory_pcBoot : initMemory pcBoot = some pcState := (Option.some_get _).symm

/-- A machine with 16 MiB of memory from address 0 on. -/
def flatBoot : Boot := Boot.ofMap [⟨0, 0x1000000, 1⟩]

/-- That machine after `init_memory`. -/
def flatState : MemState := (initMemory flatBoot).get (by decide +kernel)

theorem initMemory_flatBoot : initMemory flatBoot = some flatState := (Option.some_get _).symm

end Memory
end OSLib
