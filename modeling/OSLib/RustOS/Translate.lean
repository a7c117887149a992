import OSLib.Foundation.Paging
import OSLib.RustOS.FrameAllocator
import Mathlib.Data.BitVec

/-!
# `translate_addr_inner`

The function walks the four levels in one loop, reading each table through the mapping of all of
physical memory at `physical_memory_offset`.  `PageTableEntry::frame()` takes bit 7 of every entry
for the mark of a huge page, and the loop panics on it.  Bit 7 is that in the entries of level 3 and
2; in an entry of level 1 it selects the memory type, and there the walk of the CPU goes on.
`translateAddrInner_eq_walk_iff` says when the two agree.

## The crate

What comes from the crate `x86_64` is a parameter, with its documented behaviour as hypotheses.  The
sum of a `VirtAddr` and a number panics where it is not a canonical address, so that adding is one
of the parameters; all that is asked of it is the sum where that is canonical.

## The memory

The function has no table of its own to read but the ones in physical memory, through the mapping
that its caller has to guarantee.  Only the tables on the path of the address are asked for
(`MapsPath`): what lies at the offset of other frames, of device memory or of none does not matter.
-/

namespace OSLib
namespace RustOS

open Paging

/-! ## The crate -/

/-- `VirtAddr`. -/
structure VirtAddr where
  addr : BitVec 64
  canonical : Canonical addr

/-- A `PhysFrame` of the page tables: it is aligned, and within the limit of `PhysAddr`. -/
structure TableFrame extends PhysFrame where
  aligned : startAddress % 4096 = 0
  lt : startAddress < 2 ^ 52

/-- `FrameError`. -/
inductive FrameError where
  | frameNotPresent | hugeFrame
  deriving DecidableEq

/-- The functions of `x86_64` that `translate_addr_inner` calls. -/
structure X8664 where
  p4Index : VirtAddr → ℕ
  p3Index : VirtAddr → ℕ
  p2Index : VirtAddr → ℕ
  p1Index : VirtAddr → ℕ
  pageOffset : VirtAddr → ℕ
  frame : BitVec 64 → Except FrameError TableFrame
  /-- `VirtAddr + u64`; `none` is a panic. -/
  add : VirtAddr → ℕ → Option VirtAddr

/-- What they are documented to do. -/
structure X8664.Documented (x : X8664) : Prop where
  p4Index : ∀ va, x.p4Index va = index 4 va.addr
  p3Index : ∀ va, x.p3Index va = index 3 va.addr
  p2Index : ∀ va, x.p2Index va = index 2 va.addr
  p1Index : ∀ va, x.p1Index va = index 1 va.addr
  pageOffset : ∀ va, x.pageOffset va = va.addr.toNat % 2 ^ 12
  frame_notPresent : ∀ e, ¬ Present e → x.frame e = .error .frameNotPresent
  frame_huge : ∀ e, Present e → PageSize e → x.frame e = .error .hugeFrame
  frame_ok : ∀ e, Present e → ¬ PageSize e → ∃ f, x.frame e = .ok f ∧
    f.startAddress = Paging.frame 12 e
  add_of_canonical : ∀ va n, va.addr.toNat + n < 2 ^ 64 →
    Canonical (va.addr + BitVec.ofNat 64 n) → ∃ v, x.add va n = some v ∧
      v.addr = va.addr + BitVec.ofNat 64 n

/-- Quadword `i` of the table at a virtual address. -/
abbrev TableRead := BitVec 64 → ℕ → BitVec 64

/-- The table at a physical address is mapped at the offset. -/
def MapsTable (read : TableRead) (physicalMemoryOffset : VirtAddr) (mem : PhysMem) (table : ℕ) :
    Prop :=
  physicalMemoryOffset.addr.toNat + table < 2 ^ 64 ∧
    Canonical (physicalMemoryOffset.addr + BitVec.ofNat 64 table) ∧
    ∀ i < 512, read (physicalMemoryOffset.addr + BitVec.ofNat 64 table) i = mem (table + 8 * i)

/-! ## The function -/

namespace X8664

variable (x : X8664)

/-- The loop, with the indices left. -/
def translateLoop (read : TableRead) (physicalMemoryOffset : VirtAddr) :
    List ℕ → TableFrame → Except String (Option TableFrame)
  | [], frame => .ok (some frame)
  | index :: tableIndex, frame =>
    match x.add physicalMemoryOffset frame.startAddress with
    | none => .error "not a canonical address"
    | some virt =>
      let entry := read virt.addr index
      match x.frame entry with
      | .ok frame => translateLoop read physicalMemoryOffset tableIndex frame
      | .error .frameNotPresent => .ok none
      | .error .hugeFrame => .error "huge pages not supported"

/-- `translate_addr_inner`, with the frame in `CR3`; an error is a panic. -/
def translateAddrInner (read : TableRead) (l4TableFrame : TableFrame) (addr : VirtAddr)
    (physicalMemoryOffset : VirtAddr) : Except String (Option ℕ) := do
  let tableIndex := [x.p4Index addr, x.p3Index addr, x.p2Index addr, x.p1Index addr]
  let frame ← x.translateLoop read physicalMemoryOffset tableIndex l4TableFrame
  return frame.map fun frame => frame.startAddress + x.pageOffset addr

end X8664

/-! ## One level -/

variable {x : X8664} {read : TableRead} {physicalMemoryOffset : VirtAddr} {mem : PhysMem}
  {f : TableFrame} {va : BitVec 64} {n : ℕ} {tableIndex : List ℕ}

theorem index_lt (n : ℕ) (va : BitVec 64) : index n va < 512 := Nat.mod_lt _ (by decide)

/-- The loop reads the entry of a mapped table. -/
theorem translateLoop_cons (tableIndex : List ℕ) (hx : x.Documented)
    (hm : MapsTable read physicalMemoryOffset mem f.startAddress) :
    x.translateLoop read physicalMemoryOffset (index n va :: tableIndex) f =
      match x.frame (entry mem f.startAddress n va) with
      | .ok frame => x.translateLoop read physicalMemoryOffset tableIndex frame
      | .error .frameNotPresent => .ok none
      | .error .hugeFrame => .error "huge pages not supported" := by
  obtain ⟨hlt, hcan, hread⟩ := hm
  obtain ⟨v, hv, haddr⟩ := hx.add_of_canonical _ _ hlt hcan
  simp only [X8664.translateLoop, hv, haddr, hread _ (index_lt n va)]
  rfl

theorem translateLoop_of_not_present (hx : x.Documented)
    (hm : MapsTable read physicalMemoryOffset mem f.startAddress)
    (h : ¬ Present (entry mem f.startAddress n va)) :
    x.translateLoop read physicalMemoryOffset (index n va :: tableIndex) f = .ok none := by
  rw [translateLoop_cons tableIndex hx hm, hx.frame_notPresent _ h]

theorem translateLoop_of_huge (hx : x.Documented)
    (hm : MapsTable read physicalMemoryOffset mem f.startAddress)
    (hp : Present (entry mem f.startAddress n va)) (hs : PageSize (entry mem f.startAddress n va)) :
    x.translateLoop read physicalMemoryOffset (index n va :: tableIndex) f =
      .error "huge pages not supported" := by
  rw [translateLoop_cons tableIndex hx hm, hx.frame_huge _ hp hs]

theorem translateLoop_of_table (tableIndex : List ℕ) (hx : x.Documented)
    (hm : MapsTable read physicalMemoryOffset mem f.startAddress)
    (hp : Present (entry mem f.startAddress n va))
    (hs : ¬ PageSize (entry mem f.startAddress n va)) :
    ∃ f' : TableFrame, f'.startAddress = Paging.frame 12 (entry mem f.startAddress n va) ∧
      x.translateLoop read physicalMemoryOffset (index n va :: tableIndex) f =
        x.translateLoop read physicalMemoryOffset tableIndex f' := by
  obtain ⟨f', hf, hstart⟩ := hx.frame_ok _ hp hs
  exact ⟨f', hstart, by rw [translateLoop_cons tableIndex hx hm, hf]⟩

/-! ## The path -/

/-- The entries of the levels 4 to 1 on the path of an address. -/
def entry4 (mem : PhysMem) (cr3 : ℕ) (va : BitVec 64) : BitVec 64 := entry mem cr3 4 va

def entry3 (mem : PhysMem) (cr3 : ℕ) (va : BitVec 64) : BitVec 64 :=
  entry mem (Paging.frame 12 (entry4 mem cr3 va)) 3 va

def entry2 (mem : PhysMem) (cr3 : ℕ) (va : BitVec 64) : BitVec 64 :=
  entry mem (Paging.frame 12 (entry3 mem cr3 va)) 2 va

def entry1 (mem : PhysMem) (cr3 : ℕ) (va : BitVec 64) : BitVec 64 :=
  entry mem (Paging.frame 12 (entry2 mem cr3 va)) 1 va

/-- No huge page is on the path. -/
structure NoHugePage (mem : PhysMem) (cr3 : ℕ) (va : BitVec 64) : Prop where
  level3 : Present (entry4 mem cr3 va) → Present (entry3 mem cr3 va) →
    ¬ PageSize (entry3 mem cr3 va)
  level2 : Present (entry4 mem cr3 va) → Present (entry3 mem cr3 va) →
    Present (entry2 mem cr3 va) → ¬ PageSize (entry2 mem cr3 va)

/-- Bit 7 is clear in the entries of level 4 and 1 that are reached and present. -/
structure Bit7Clear (mem : PhysMem) (cr3 : ℕ) (va : BitVec 64) : Prop where
  level4 : Present (entry4 mem cr3 va) → ¬ PageSize (entry4 mem cr3 va)
  level1 : Present (entry4 mem cr3 va) → Present (entry3 mem cr3 va) →
    Present (entry2 mem cr3 va) → Present (entry1 mem cr3 va) → ¬ PageSize (entry1 mem cr3 va)

/-- The tables on the path of an address are mapped at the offset, as the caller has to guarantee
for all of physical memory. -/
structure MapsPath (read : TableRead) (physicalMemoryOffset : VirtAddr) (mem : PhysMem) (cr3 : ℕ)
    (va : BitVec 64) : Prop where
  level4 : MapsTable read physicalMemoryOffset mem cr3
  level3 : Present (entry4 mem cr3 va) →
    MapsTable read physicalMemoryOffset mem (Paging.frame 12 (entry4 mem cr3 va))
  level2 : Present (entry4 mem cr3 va) → Present (entry3 mem cr3 va) →
    MapsTable read physicalMemoryOffset mem (Paging.frame 12 (entry3 mem cr3 va))
  level1 : Present (entry4 mem cr3 va) → Present (entry3 mem cr3 va) →
    Present (entry2 mem cr3 va) →
    MapsTable read physicalMemoryOffset mem (Paging.frame 12 (entry2 mem cr3 va))

/-- **The architectural walk without huge pages** ends at the first entry that is not present, and
otherwise goes to the frame in the entry of level 1. -/
theorem walk_of_noHugePage {cr3 : ℕ} {va : VirtAddr} (h : NoHugePage mem cr3 va.addr) :
    walk mem cr3 va.addr =
      if Present (entry4 mem cr3 va.addr) ∧ Present (entry3 mem cr3 va.addr) ∧
        Present (entry2 mem cr3 va.addr) ∧ Present (entry1 mem cr3 va.addr) then
        some (Paging.frame 12 (entry1 mem cr3 va.addr) + va.addr.toNat % 2 ^ 12)
      else none := by
  rw [walk_of_canonical va.canonical]
  by_cases p4 : Present (entry4 mem cr3 va.addr)
  · rw [walkFrom_of_present p4 (by omega)]
    by_cases p3 : Present (entry3 mem cr3 va.addr)
    · rw [← entry4, walkFrom_of_present p3 fun _ => h.level3 p4 p3]
      by_cases p2 : Present (entry2 mem cr3 va.addr)
      · rw [← entry3, walkFrom_of_present p2 fun _ => h.level2 p4 p3 p2]
        by_cases p1 : Present (entry1 mem cr3 va.addr)
        · rw [← entry2, walkFrom_of_present p1 (by omega), if_pos ⟨p4, p3, p2, p1⟩]
          rfl
        · rw [if_neg fun hall => p1 hall.2.2.2]
          exact walkFrom_of_not_present p1
      · rw [if_neg fun hall => p2 hall.2.2.1]
        exact walkFrom_of_not_present p2
    · rw [if_neg fun hall => p3 hall.2.1]
      exact walkFrom_of_not_present p3
  · rw [if_neg fun hall => p4 hall.1]
    exact walkFrom_of_not_present p4

/-- **What the function returns**: the walk, or the panic that takes bit 7 for a huge page. -/
theorem translateAddrInner_eq (va : VirtAddr) (hx : x.Documented)
    (hm : MapsPath read physicalMemoryOffset mem f.startAddress va.addr)
    (h : NoHugePage mem f.startAddress va.addr) :
    (Bit7Clear mem f.startAddress va.addr →
      x.translateAddrInner read f va physicalMemoryOffset = .ok (walk mem f.startAddress va.addr)) ∧
    (¬ Bit7Clear mem f.startAddress va.addr →
      x.translateAddrInner read f va physicalMemoryOffset = .error "huge pages not supported") := by
  rw [walk_of_noHugePage h, X8664.translateAddrInner, hx.p4Index, hx.p3Index, hx.p2Index,
    hx.p1Index]
  by_cases p4 : Present (entry4 mem f.startAddress va.addr)
  · by_cases s4 : PageSize (entry4 mem f.startAddress va.addr)
    · refine ⟨fun hclear => absurd s4 (hclear.level4 p4), fun _ => ?_⟩
      rw [translateLoop_of_huge hx hm.level4 p4 s4]
      rfl
    obtain ⟨f4, h4, loop4⟩ := translateLoop_of_table
      [index 3 va.addr, index 2 va.addr, index 1 va.addr] hx hm.level4 p4 s4
    rw [loop4]
    have m4 : MapsTable read physicalMemoryOffset mem f4.startAddress := h4 ▸ hm.level3 p4
    have e3 : entry mem f4.startAddress 3 va.addr = entry3 mem f.startAddress va.addr := by
      rw [h4]
      rfl
    by_cases p3 : Present (entry3 mem f.startAddress va.addr)
    · obtain ⟨f3, h3, loop3⟩ := translateLoop_of_table [index 2 va.addr, index 1 va.addr] hx m4
        (e3 ▸ p3) (e3 ▸ h.level3 p4 p3)
      rw [loop3]
      have m3 : MapsTable read physicalMemoryOffset mem f3.startAddress := by
        rw [h3, e3]
        exact hm.level2 p4 p3
      have e2 : entry mem f3.startAddress 2 va.addr = entry2 mem f.startAddress va.addr := by
        rw [h3, e3]
        rfl
      by_cases p2 : Present (entry2 mem f.startAddress va.addr)
      · obtain ⟨f2, h2, loop2⟩ := translateLoop_of_table [index 1 va.addr] hx m3 (e2 ▸ p2)
          (e2 ▸ h.level2 p4 p3 p2)
        rw [loop2]
        have m2 : MapsTable read physicalMemoryOffset mem f2.startAddress := by
          rw [h2, e2]
          exact hm.level1 p4 p3 p2
        have e1 : entry mem f2.startAddress 1 va.addr = entry1 mem f.startAddress va.addr := by
          rw [h2, e2]
          rfl
        by_cases p1 : Present (entry1 mem f.startAddress va.addr)
        · by_cases s1 : PageSize (entry1 mem f.startAddress va.addr)
          · refine ⟨fun hclear => absurd s1 (hclear.level1 p4 p3 p2 p1), fun _ => ?_⟩
            rw [translateLoop_of_huge hx m2 (e1 ▸ p1) (e1 ▸ s1)]
            rfl
          obtain ⟨f1, h1, loop1⟩ := translateLoop_of_table [] hx m2 (e1 ▸ p1) (e1 ▸ s1)
          refine ⟨fun _ => ?_, fun hnot => absurd ⟨fun _ => s4, fun _ _ _ _ => s1⟩ hnot⟩
          rw [loop1, if_pos ⟨p4, p3, p2, p1⟩, ← e1, ← h1, ← hx.pageOffset]
          rfl
        · refine ⟨fun _ => ?_, fun hnot => absurd ⟨fun _ => s4, fun _ _ _ hp => absurd hp p1⟩ hnot⟩
          rw [translateLoop_of_not_present hx m2 (e1 ▸ p1), if_neg fun hall => p1 hall.2.2.2]
          rfl
      · refine ⟨fun _ => ?_, fun hnot => absurd ⟨fun _ => s4, fun _ _ hp => absurd hp p2⟩ hnot⟩
        rw [translateLoop_of_not_present hx m3 (e2 ▸ p2), if_neg fun hall => p2 hall.2.2.1]
        rfl
    · refine ⟨fun _ => ?_, fun hnot => absurd ⟨fun _ => s4, fun _ hp => absurd hp p3⟩ hnot⟩
      rw [translateLoop_of_not_present hx m4 (e3 ▸ p3), if_neg fun hall => p3 hall.2.1]
      rfl
  · have hclear : Bit7Clear mem f.startAddress va.addr :=
      ⟨fun hp => absurd hp p4, fun hp => absurd hp p4⟩
    refine ⟨fun _ => ?_, fun hnot => absurd hclear hnot⟩
    rw [translateLoop_of_not_present hx hm.level4 p4, if_neg fun hall => p4 hall.1]
    rfl

/-- **`translate_addr_inner` is the walk exactly when bit 7 is clear** in the entries of level 4 and
1, if no huge page is on the path. -/
theorem translateAddrInner_eq_walk_iff {va : VirtAddr} (hx : x.Documented)
    (hm : MapsPath read physicalMemoryOffset mem f.startAddress va.addr)
    (h : NoHugePage mem f.startAddress va.addr) :
    x.translateAddrInner read f va physicalMemoryOffset = .ok (walk mem f.startAddress va.addr) ↔
      Bit7Clear mem f.startAddress va.addr := by
  obtain ⟨hclear, hpanic⟩ := translateAddrInner_eq va hx hm h
  refine ⟨fun heq => ?_, hclear⟩
  by_contra hnot
  rw [hpanic hnot] at heq
  cases heq

/-! ## A page with another memory type -/

theorem frame_aligned (e : BitVec 64) : Paging.frame 12 e % 4096 = 0 := by
  unfold Paging.frame
  omega

theorem frame_lt (e : BitVec 64) : Paging.frame 12 e < 2 ^ 52 := by
  unfold Paging.frame
  omega

/-- The functions of the crate. -/
def x8664 : X8664 where
  p4Index va := index 4 va.addr
  p3Index va := index 3 va.addr
  p2Index va := index 2 va.addr
  p1Index va := index 1 va.addr
  pageOffset va := va.addr.toNat % 2 ^ 12
  frame e :=
    if ¬ Present e then .error .frameNotPresent
    else if PageSize e then .error .hugeFrame
    else .ok ⟨⟨Paging.frame 12 e⟩, frame_aligned e, frame_lt e⟩
  add va n :=
    if h : va.addr.toNat + n < 2 ^ 64 ∧ Canonical (va.addr + BitVec.ofNat 64 n) then
      some ⟨va.addr + BitVec.ofNat 64 n, h.2⟩
    else none

theorem x8664_documented : x8664.Documented where
  p4Index _ := rfl
  p3Index _ := rfl
  p2Index _ := rfl
  p1Index _ := rfl
  pageOffset _ := rfl
  frame_notPresent _ h := if_pos h
  frame_huge _ hp hs := (if_neg (not_not.mpr hp)).trans (if_pos hs)
  frame_ok e hp hs := ⟨⟨⟨Paging.frame 12 e⟩, frame_aligned e, frame_lt e⟩,
    (if_neg (not_not.mpr hp)).trans (if_neg hs), rfl⟩
  add_of_canonical _ _ hlt hcan := ⟨_, dif_pos ⟨hlt, hcan⟩, rfl⟩

/-- Four tables from `0x1000` on, with the entry `e` for the page 0. -/
def onePage (e : BitVec 64) : PhysMem := fun a =>
  if a = 0x1000 then 0x2003
  else if a = 0x2000 then 0x3003
  else if a = 0x3000 then 0x4003
  else if a = 0x4000 then e
  else 0

/-- Physical memory mapped at 0. -/
def readAtZero (mem : PhysMem) : TableRead := fun virt i => mem (virt.toNat + 8 * i)

/-- The address 0. -/
def zeroAddr : VirtAddr := ⟨0, by decide⟩

theorem mapsTable_readAtZero (mem : PhysMem) {table : ℕ} (h : table < 2 ^ 47) :
    MapsTable (readAtZero mem) zeroAddr mem table := by
  have hsum : zeroAddr.addr + BitVec.ofNat 64 table = BitVec.ofNat 64 table := BitVec.zero_add _
  have hnat : (BitVec.ofNat 64 table).toNat = table := by
    rw [BitVec.toNat_ofNat, Nat.mod_eq_of_lt (by omega)]
  refine ⟨?_, ?_, fun i _ => ?_⟩
  · rw [show zeroAddr.addr.toNat = 0 from rfl]
    omega
  · rw [hsum]
    exact .inl (hnat.symm ▸ h)
  · rw [hsum, readAtZero, hnat]

/-- Four tables in low memory are mapped. -/
theorem mapsPath_readAtZero {mem : PhysMem} {cr3 : ℕ} {va : BitVec 64} (h4 : cr3 < 2 ^ 47)
    (h3 : Paging.frame 12 (entry4 mem cr3 va) < 2 ^ 47)
    (h2 : Paging.frame 12 (entry3 mem cr3 va) < 2 ^ 47)
    (h1 : Paging.frame 12 (entry2 mem cr3 va) < 2 ^ 47) :
    MapsPath (readAtZero mem) zeroAddr mem cr3 va :=
  ⟨mapsTable_readAtZero mem h4, fun _ => mapsTable_readAtZero mem h3,
    fun _ _ => mapsTable_readAtZero mem h2, fun _ _ _ => mapsTable_readAtZero mem h1⟩

/-- A page of the usual memory type. -/
theorem onePage_translated :
    x8664.translateAddrInner (readAtZero (onePage 0x5003)) ⟨⟨0x1000⟩, rfl, by decide⟩
        ⟨0x123, by decide⟩ zeroAddr =
      .ok (walk (onePage 0x5003) 0x1000 0x123) :=
  (translateAddrInner_eq_walk_iff x8664_documented
    (mapsPath_readAtZero (by decide) (by decide) (by decide) (by decide))
    ⟨fun _ _ => by decide, fun _ _ _ => by decide⟩).mpr
    ⟨fun _ => by decide, fun _ _ _ _ => by decide⟩

/-- **The bit for the memory type set**: the CPU translates the address, and the function panics. -/
theorem patPage_not_translated :
    NoHugePage (onePage 0x5083) 0x1000 0x123 ∧
      walk (onePage 0x5083) 0x1000 0x123 = some 0x5123 ∧
      x8664.translateAddrInner (readAtZero (onePage 0x5083)) ⟨⟨0x1000⟩, rfl, by decide⟩
        ⟨0x123, by decide⟩ zeroAddr = .error "huge pages not supported" := by
  have hno : NoHugePage (onePage 0x5083) 0x1000 0x123 :=
    ⟨fun _ _ => by decide, fun _ _ _ => by decide⟩
  refine ⟨hno, by decide, ?_⟩
  refine (translateAddrInner_eq (f := ⟨⟨0x1000⟩, rfl, by decide⟩) ⟨0x123, by decide⟩
    x8664_documented (mapsPath_readAtZero (by decide) (by decide) (by decide) (by decide)) hno).2
    fun hclear => ?_
  exact hclear.level1 (by decide) (by decide) (by decide) (by decide) (by decide)

end RustOS
end OSLib
