import Mathlib.Logic.Function.Basic
import Mathlib.Tactic.Common
import OSLib.Foundation.Align
import OSLib.Foundation.Bitmap

/-!
# `memory.h`: pages, zones and the global memory descriptor

The data of the page allocator.  Physical memory is cut into 2 MiB pages, numbered from address 0;
three arrays describe them:

* `bits`, the words from `bits_map` on, one bit for each page;
* `pages`, the page structs from `pages_struct` on;
* `zones`, the zone structs from `zones_struct` on.

The arrays are total functions of the index, so that a read past the end of an array has a value: it
is whatever the memory behind the array held.  A pointer to a page or a zone is its index in its
array, and the null zone pointer of a cleared page struct is `none`.

## Why three functions and not one memory

The code reaches every struct from the start of its array, so that the index says which struct it
is, and two structs are the same only if they are so in every layout.  What is lost is a write past
the end of one array into the next.  `LoopBounds` and `Metadata` say by indices when there is none,
and `Layout` when the arrays lie apart.

## Machine words

Machine words are `BitVec 64`, and so are the fields of the structs.  Counts that the code computes
from an address shifted right by 21 stay below `2 ^ 43` and are natural numbers.  Of the descriptor
the bounds of code and data are left out, which the allocator never reads.
-/

namespace OSLib
namespace Memory

/-! ## Addresses and page numbers -/

/-- `PAGE_2M_SIZE`. -/
def page2mSize : BitVec 64 := 1#64 <<< 21

/-- `PAGE_2M_MASK`. -/
def page2mMask : BitVec 64 := ~~~(page2mSize - 1)

/-- `PAGE_4K_SIZE`. -/
def page4kSize : BitVec 64 := 1#64 <<< 12

/-- `PAGE_4K_MASK`. -/
def page4kMask : BitVec 64 := ~~~(page4kSize - 1)

/-- `PAGE_OFFSET`. -/
def pageOffset : BitVec 64 := 0xffff800000000000#64

/-- `PAGE_2M_ALIGN(addr)`. -/
def page2mAlign (addr : BitVec 64) : BitVec 64 := (addr + page2mSize - 1) &&& page2mMask

/-- `PAGE_4K_ALIGN(addr)`. -/
def page4kAlign (addr : BitVec 64) : BitVec 64 := (addr + page4kSize - 1) &&& page4kMask

/-- `Virt_To_Phy(addr)`. -/
def virtToPhy (addr : BitVec 64) : BitVec 64 := addr - pageOffset

/-- `Phy_To_Virt(addr)`. -/
def phyToVirt (addr : BitVec 64) : BitVec 64 := addr + pageOffset

/-- The number of the page an address lies in: `addr >> PAGE_2M_SHIFT`. -/
def pageNo (addr : BitVec 64) : ℕ := (addr >>> 21).toNat

/-- The address of a page. -/
def pageAddr (x : ℕ) : BitVec 64 := BitVec.ofNat 64 (x * 2 ^ 21)

theorem pageNo_eq (addr : BitVec 64) : pageNo addr = addr.toNat / 2 ^ 21 := by
  rw [pageNo, BitVec.toNat_ushiftRight, Nat.shiftRight_eq_div_pow]

theorem pageNo_lt (addr : BitVec 64) : pageNo addr < 2 ^ 43 := by
  rw [pageNo_eq]
  have := addr.isLt
  omega

theorem toNat_pageAddr {x : ℕ} (hx : x < 2 ^ 43) : (pageAddr x).toNat = x * 2 ^ 21 := by
  rw [pageAddr, BitVec.toNat_ofNat, Nat.mod_eq_of_lt]
  omega

@[simp] theorem pageNo_pageAddr {x : ℕ} (hx : x < 2 ^ 43) : pageNo (pageAddr x) = x := by
  rw [pageNo_eq, toNat_pageAddr hx]
  omega

/-- Masking with `PAGE_2M_MASK` rounds down to a page boundary. -/
theorem and_page2mMask (addr : BitVec 64) : addr &&& page2mMask = pageAddr (pageNo addr) := by
  have hmask : page2mMask = ~~~BitVec.ofNat 64 (2 ^ 21 - 1) := rfl
  refine BitVec.eq_of_toNat_eq ?_
  rw [hmask, toNat_and_not_mask, toNat_pageAddr (pageNo_lt addr), pageNo_eq]

theorem shiftRight_shiftLeft (addr : BitVec 64) :
    addr >>> 21 <<< 21 = pageAddr (pageNo addr) := by
  refine BitVec.eq_of_toNat_eq ?_
  rw [toNat_pageAddr (pageNo_lt addr), BitVec.toNat_shiftLeft, Nat.shiftLeft_eq, pageNo,
    Nat.mod_eq_of_lt]
  have := pageNo_lt addr
  unfold pageNo at this
  omega

/-! ## The structs -/

/-- `struct _E820`: one entry of the BIOS memory map. -/
structure E820 where
  addr : BitVec 64
  len : BitVec 64
  type : BitVec 32
  deriving DecidableEq, Repr

/-- `RAM`. -/
def ram : BitVec 32 := 1

/-- `ACPI_NVS`. -/
def acpiNvs : BitVec 32 := 4

/-- `struct _Page`.  `zoneStruct` is the index of the zone the page belongs to, and `attr` is the
field `attribute`, a keyword here. -/
structure Page where
  zoneStruct : Option ℕ
  phyAddr : BitVec 64
  attr : BitVec 64
  refCnt : BitVec 64
  age : BitVec 64
  deriving DecidableEq, Repr

/-- A page struct of zero bytes. -/
def Page.zero : Page := ⟨none, 0, 0, 0, 0⟩

/-- `struct _Zone`.  `pageGroup` is the index of the zone's first page struct. -/
structure Zone where
  pageGroup : ℕ
  pageLen : BitVec 64
  zoneStartAddr : BitVec 64
  zoneEndAddr : BitVec 64
  zoneLen : BitVec 64
  attr : BitVec 64
  pageUsingCnt : BitVec 64
  pageFreeCnt : BitVec 64
  totalPageLnk : BitVec 64
  deriving DecidableEq, Repr

namespace Zone

variable (z : Zone)

/-- The number of the zone's first page. -/
def startPage : ℕ := pageNo z.zoneStartAddr

/-- The number of the page after the zone's last one. -/
def endPage : ℕ := pageNo z.zoneEndAddr

/-- Page `x` lies in the zone: from the start address up to, but not including, the end address. -/
def Owns (x : ℕ) : Prop := z.startPage ≤ x ∧ x < z.endPage

instance (x : ℕ) : Decidable (z.Owns x) := by unfold Owns; infer_instance

end Zone

/-- `struct _Global_Memory_Desc`, without the code and data bounds that the allocator never reads.
The first `e820_len` entries of the table are a list. -/
structure GlobalMemoryDesc where
  e820 : List E820
  bitsMap : BitVec 64
  bitsSize : ℕ
  bitsLen : ℕ
  pagesStruct : BitVec 64
  pagesSize : ℕ
  pagesLen : ℕ
  zonesStruct : BitVec 64
  zonesSize : ℕ
  zonesLen : ℕ
  endBrk : BitVec 64
  endOfStruct : BitVec 64

/-- The state of the allocator: `memory_management_struct`, the three arrays it points to, the zone
indices `g_zone_dma`, `g_zone_normal` and `g_zone_unmapped`, and whether the first entry of the
`PML4` still maps the low addresses, where a null pointer points. -/
structure MemState where
  desc : GlobalMemoryDesc
  bits : Bitmap
  pages : ℕ → Page
  zones : ℕ → Zone
  gZoneDma : ℕ
  gZoneNormal : ℕ
  gZoneUnmapped : ℕ
  lowMapped : Bool

end Memory
end OSLib
