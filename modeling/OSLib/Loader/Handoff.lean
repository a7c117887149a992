import OSLib.Foundation.Emits
import OSLib.Foundation.ProtectedMode
import OSLib.Memory.AddressSpace

/-!
# The way to the kernel

`loader.asm` is in protected mode when the files and the memory map are in memory.  It asks the
processor for long mode, stores temporary page tables at `0x90000` and jumps to `_start`, the first
address of the kernel.  `head.sx` loads its own tables and goes on at the address it is linked at,
in the upper half of the address space.

The kernel is linked at `0xffff800000100000` and loaded at 1 MiB, so both sets of tables map low
memory twice: at 0, where the code still runs when it changes the tables, and at the start of the
upper half, where the new descriptor table is.  `handoff` says that the run comes through, and where
it comes to.

## What the loader leaves to chance

An entry of a page table has eight bytes, and the loader stores four.  The upper halves of the nine
entries are whatever memory held at `0x90000`, and nothing has cleared it: with a bit set there the
entry leads somewhere above 4 GiB, or is reserved.  That they are zero is a field of the state the
run starts from, `Entered.upper`.  The other entries of the temporary tables may hold anything,
since the code does not come to an address that they translate.

## What the processor writes

A load of a segment register marks the descriptor as accessed, and a walk marks the entries it uses.
A marked descriptor is as good as an unmarked one, so that the data segment the loader has already
used for `fs` may come either way (`HoldsDescriptor`).  The model does not make the marks, and the
result says nothing of the bytes they would be in (`Protect.Marks`, `Head.Marks`).  Segment limits
are those of flat segments and are not looked at, and the translations that the processor keeps are
gone whenever `cr3` is loaded.
-/

namespace OSLib
namespace Loader

open Paging LongMode Memory

/-! ## `loader.asm`, from `Go_To_Tmp_Protect` on -/

/-- The places control comes to: the labels, what follows the call, the stores of the tables, and
what follows the moment when paging is on. -/
inductive ProtectLabel where
  | goToTmpProtect | longModeTested | supportLongMode
  | noLongModeSupport
  | initTables | loadGdtr | pagingOn
  | kernel
  deriving DecidableEq

/-- `init temporary page table 0x90000`: where, and what. -/
def temporaryTables : List (ℕ × BitVec 32) :=
  [(0x90000, 0x91007), (0x90800, 0x91007), (0x91000, 0x92007), (0x92000, 0x000083),
    (0x92008, 0x200083), (0x92010, 0x400083), (0x92018, 0x600083), (0x92020, 0x800083),
    (0x92028, 0xa00083)]

/-- Where the assembler put the labels, the two descriptor tables and the pointer to the second. -/
structure Protect where
  addr : ProtectLabel → BitVec 32
  gdt : ℕ
  gdt64 : ℕ
  gdtPtr64 : ℕ

namespace Protect

variable (p : Processor) (x : Protect) (s : Cpu32)

/-- The code, with its one call. -/
def text : Text ProtectLabel := ⟨x.addr, [.longModeTested]⟩

/-- `support_long_mode`, up to its `ret`. -/
def longModeTest : Cpu32 :=
  let s := { s with eax := 0x80000000 }
  let s := s.cpuid p
  let below := s.eax < 0x80000001
  let s := s.setAl (if below then 0 else 1)
  let s :=
    if below then s
    else
      let s := { s with eax := 0x80000001 }
      let s := s.cpuid p
      s.setAl (if s.edx.getLsbD 29 then 1 else 0)
  -- `support_long_mode_done`
  { s with eax := (s.eax.setWidth 8).setWidth 32 }

/-- The stores of a list. -/
def storeAll (ws : List (ℕ × BitVec 32)) : Option Cpu32 :=
  ws.foldlM (fun s w => s.storeAt (BitVec.ofNat 64 w.1) w.2) s

/-- From `open PAE` until `mov cr0, eax` takes effect. -/
def openPaging : Option (ProtectLabel × Cpu32) := do
  let s := { s with eax := s.ctl.cr4 }
  let s := { s with eax := s.eax ||| 1#32 <<< 5 }
  let s := { s with ctl := { s.ctl with cr4 := s.eax } }
  let s := { s with eax := 0x90000 }
  let s := { s with ctl := { s.ctl with cr3 := s.eax.setWidth 64 } }
  let s := { s with ecx := 0xC0000080 }
  let s ← s.rdmsr
  let s := { s with eax := s.eax ||| 1#32 <<< 8 }
  let s ← s.wrmsr
  let s := { s with eax := s.ctl.cr0 }
  let s := { s with eax := s.eax ||| 1#32 <<< 0 }
  let s := { s with eax := s.eax ||| 1#32 <<< 31 }
  let s := { s with ctl := { s.ctl with cr0 := s.eax } }
  return (.pagingOn, s)

/-- From `load gdtr` on. -/
def loadGdtr : Option (ProtectLabel × Cpu32) := do
  let s ← s.lgdt16 (BitVec.ofNat 32 x.gdtPtr64)
  let s ← s.loadData 0x10
  openPaging { s with esp := 0x7e00 }

/-- The code at a label. -/
def block : ProtectLabel → Cpu32 → Option (ProtectLabel × Cpu32)
  | .goToTmpProtect, s => do
    let s ← s.loadData 0x10
    x.text.call { s with esp := 0x7e00 } .supportLongMode .longModeTested
  | .supportLongMode, s => x.text.ret (longModeTest p s)
  | .longModeTested, s => some (if s.eax = 0 then .noLongModeSupport else .initTables, s)
  | .noLongModeSupport, s => some (.noLongModeSupport, s)
  | .initTables, s => (storeAll s temporaryTables).map fun s => (.loadGdtr, s)
  | .loadGdtr, s => x.loadGdtr s
  | .pagingOn, s =>
    -- the jump to `SelectorCode64:OffsetOfKernelFile`
    (s.ctl.codeDescriptor s.mem s.gdtr 8).map fun d => (.kernel, { s with cs := d })
  | .kernel, _ => none

/-- The code goes on where the translation leaves it in its place. -/
def step : ProtectLabel × Cpu32 → Option (ProtectLabel × Cpu32)
  | (l, s) =>
    if s.ctl.translate s.mem ((x.addr l).setWidth 64) = some (x.addr l).toNat then x.block p l s
    else none

end Protect

/-! ## `head.sx`, up to `setup_IDT` -/

/-- The registers of the 64-bit code, and memory. -/
structure Cpu64 where
  rax : BitVec 64
  rsp : BitVec 64
  ctl : Controls
  gdtr : Gdtr
  idtr : Gdtr
  cs : BitVec 64
  mem : Bytes

namespace Cpu64

variable (s : Cpu64)

/-- `pushq`. -/
def pushq (v : BitVec 64) : Option Cpu64 :=
  (s.ctl.store s.mem (s.rsp - 8) v).map fun mem => { s with rsp := s.rsp - 8, mem := mem }

/-- `lretq`, and the address it goes to. -/
def lretq : Option (BitVec 64 × Cpu64) := do
  let rip ← s.ctl.load s.mem s.rsp 64
  let selector ← s.ctl.load s.mem (s.rsp + 8) 64
  let d ← s.ctl.codeDescriptor s.mem s.gdtr selector.toNat
  return (rip, { s with rsp := s.rsp + 16, cs := d })

/-- A pointer to a descriptor table, as `lgdt` and `lidt` read it. -/
def tablePointer (a : BitVec 64) : Option Gdtr := do
  let limit ← s.ctl.load s.mem a 16
  let base ← s.ctl.load s.mem (a + 2) 64
  return ⟨limit, base⟩

/-- Loads of data segment registers with one selector. -/
def loadData (selector : ℕ) : Option Cpu64 :=
  (s.ctl.dataDescriptor s.mem s.gdtr selector).map fun _ => s

end Cpu64

/-- The places control comes to: the labels, and what follows the change of the tables. -/
inductive HeadLabel where
  | start | cr3Loaded | entry64 | setupIdt
  deriving DecidableEq

/-- Where the kernel is linked, and the offset from where it is loaded. -/
def linkOffset : BitVec 64 := 0xffff800000000000

/-- Where the linker put what `head.sx` names, as physical addresses. -/
structure Head where
  code : HeadLabel → ℕ
  gdtPointer : ℕ
  idtPointer : ℕ
  switchSeg : ℕ
  stackStart : ℕ
  gdtTable : ℕ
  idtTable : ℕ
  stackTop : BitVec 64

namespace Head

variable (h : Head) (s : Cpu64)

/-- The address at which something is linked. -/
def linked (a : ℕ) : BitVec 64 := linkOffset + BitVec.ofNat 64 a

/-- The address at which the code of a label runs: low before the far return, and linked after. -/
def rip : HeadLabel → BitVec 64
  | .start => BitVec.ofNat 64 (h.code .start)
  | .cr3Loaded => BitVec.ofNat 64 (h.code .cr3Loaded)
  | .entry64 => linked (h.code .entry64)
  | .setupIdt => linked (h.code .setupIdt)

/-- `_start`, up to the load of `cr3`. -/
def start : Option (HeadLabel × Cpu64) := do
  let s ← s.loadData 0x10
  let s := { s with rsp := 0x7e00 }
  let gdtr ← s.tablePointer (BitVec.ofNat 64 h.gdtPointer)
  let s := { s with gdtr := gdtr }
  let idtr ← s.tablePointer (BitVec.ofNat 64 h.idtPointer)
  let s := { s with idtr := idtr }
  let s ← s.loadData 0x10
  let s := { s with rsp := 0x7e00 }
  let s := { s with rax := 0x101000 }
  let s := { s with ctl := { s.ctl with cr3 := s.rax } }
  return (.cr3Loaded, s)

/-- The far return to `entry64`. -/
def switchSegment : Option (HeadLabel × Cpu64) := do
  let rax ← s.ctl.load s.mem (BitVec.ofNat 64 h.switchSeg) 64
  let s := { s with rax := rax }
  let s ← s.pushq 0x08
  let s ← s.pushq s.rax
  let (rip, s) ← s.lretq
  if rip = h.rip .entry64 then return (.entry64, s) else none

/-- `entry64`. -/
def entry64 : Option (HeadLabel × Cpu64) := do
  let s := { s with rax := 0x10 }
  let s ← s.loadData 0x10
  let rsp ← s.ctl.load s.mem (linked h.stackStart) 64
  return (.setupIdt, { s with rsp := rsp })

/-- The code at a label, which is 64-bit code. -/
def block : HeadLabel → Cpu64 → Option (HeadLabel × Cpu64)
  | .start, s => h.start s
  | .cr3Loaded, s => h.switchSegment s
  | .entry64, s => h.entry64 s
  | .setupIdt, _ => none

/-- The code goes on where the translation finds it. -/
def step : HeadLabel × Cpu64 → Option (HeadLabel × Cpu64)
  | (l, s) =>
    if s.ctl.Runs64 s.cs ∧ s.ctl.translate s.mem (h.rip l) = some (h.code l) then h.block l s
    else none

end Head

/-- What the jump to the kernel hands over. -/
def toKernel (s : Cpu32) (idtr : Gdtr) : Cpu64 where
  rax := s.eax.setWidth 64
  rsp := s.esp.setWidth 64
  ctl := s.ctl
  gdtr := s.gdtr
  idtr := idtr
  cs := s.cs
  mem := s.mem

/-! ## What `loader.asm` relies on -/

variable {p : Processor} {s t : Cpu32} {m m' : Bytes} {a : ℕ} {d : BitVec 64}

/-- The bit of a descriptor that the processor sets when it loads the descriptor. -/
def accessedBit : BitVec 64 := 1#64 <<< 40

/-- A descriptor is in memory, whether or not it has been loaded before. -/
def HoldsDescriptor (m : Bytes) (a : ℕ) (d : BitVec 64) : Prop :=
  m.word a 64 = d ∨ m.word a 64 = d ||| accessedBit

instance : Decidable (HoldsDescriptor m a d) := by
  unfold HoldsDescriptor
  infer_instance

theorem HoldsDescriptor.congr (h : HoldsDescriptor m a d) (hword : m'.word a 64 = m.word a 64) :
    HoldsDescriptor m' a d := by
  unfold HoldsDescriptor
  rwa [hword]

/-- What holds of the descriptor either way. -/
theorem HoldsDescriptor.of {P : BitVec 64 → Prop} (h : HoldsDescriptor m a d) (hclear : P d)
    (hset : P (d ||| accessedBit)) : P (m.word a 64) := by
  rcases h with h | h
  · rwa [h]
  · rwa [h]

namespace Protect

variable {x : Protect}

/-- The loader is in the segment from `0x10000` on, and the kernel at 1 MiB. -/
structure Linked (x : Protect) : Prop where
  text : x.text.Linked (2 ^ 21 * 6)
  gdt : 0x10000 ≤ x.gdt ∧ x.gdt + 24 ≤ 0x20000
  gdt64 : 0x10000 ≤ x.gdt64 ∧ x.gdt64 + 24 ≤ 0x20000
  gdtPtr64 : 0x10000 ≤ x.gdtPtr64 ∧ x.gdtPtr64 + 6 ≤ 0x20000

/-- `LABEL_DESC_DATA32`, `LABEL_DESC_CODE64`, `LABEL_DESC_DATA64` and `GdtPtr64`. -/
structure Image (x : Protect) (m : Bytes) : Prop where
  data32 : HoldsDescriptor m (x.gdt + 0x10) 0x00cf92000000ffff
  code64 : HoldsDescriptor m (x.gdt64 + 0x08) 0x0020980000000000
  data64 : HoldsDescriptor m (x.gdt64 + 0x10) 0x0000920000000000
  limit : m.word x.gdtPtr64 16 = 23
  base : m.word (x.gdtPtr64 + 2) 32 = BitVec.ofNat 32 x.gdt64

/-- The state at `Go_To_Tmp_Protect`.  The tables are stored by their lower halves, so the upper
ones must be zero. -/
structure Entered (x : Protect) (s : Cpu32) : Prop where
  protected_mode : s.ctl.cr0.getLsbD 0 = true
  not_paging : ¬ s.ctl.PagingOn
  gdtr : s.gdtr = ⟨23, BitVec.ofNat 64 x.gdt⟩
  image : x.Image s.mem
  upper : ∀ w ∈ temporaryTables, s.mem.word (w.1 + 4) 32 = 0

/-- The bytes the loader stores from here on: a return address and the tables. -/
def Stores (a : ℕ) : Prop :=
  0x7dfc ≤ a ∧ a < 0x7e00 ∨ ∃ w ∈ temporaryTables, w.1 ≤ a ∧ a < w.1 + 4

theorem Stores.bounds (h : Stores a) :
    0x7dfc ≤ a ∧ a < 0x7e00 ∨ 0x90000 ≤ a ∧ a < 0x9202c := by
  rcases h with h | ⟨w, hw, hlow, hhigh⟩
  · exact .inl h
  · have hall : ∀ w ∈ temporaryTables, 0x90000 ≤ w.1 ∧ w.1 + 4 ≤ 0x9202c := by decide
    have hb := hall w hw
    exact .inr ⟨by omega, by omega⟩

theorem Image.congr (h : x.Image m) (hx : x.Linked)
    (hmem : ∀ a, 0x10000 ≤ a → a < 0x20000 → m' a = m a) : x.Image m' := by
  have hgdt := hx.gdt
  have hgdt64 := hx.gdt64
  have hptr := hx.gdtPtr64
  have hword : ∀ a w, 0x10000 ≤ a → a + w / 8 ≤ 0x20000 → m'.word a w = m.word a w :=
    fun a w hlow hhigh => Bytes.word_congr fun b hb hlt => hmem b (by omega) (by omega)
  exact ⟨h.data32.congr (hword _ 64 (by omega) (by omega)),
    h.code64.congr (hword _ 64 (by omega) (by omega)),
    h.data64.congr (hword _ 64 (by omega) (by omega)),
    (hword _ 16 (by omega) (by omega)).trans h.limit,
    (hword _ 32 (by omega) (by omega)).trans h.base⟩

/-! ## The test for long mode -/

theorem loadData_eq {d : BitVec 64} {selector : ℕ}
    (h : s.ctl.descriptor s.mem s.gdtr selector = some d) (hd : WritableData d) :
    s.loadData selector = some s := by
  rw [Cpu32.loadData, Controls.dataDescriptor_eq h hd, Option.map_some]

/-- A descriptor of a table below 1 MiB. -/
theorem descriptor_eq {g selector n : ℕ} {d : BitVec 64} (hflat : s.ctl.Flat s.mem n)
    (hn : n ≤ 2 ^ 64) (hgdtr : s.gdtr = ⟨23, BitVec.ofNat 64 g⟩) (hsel : selector + 7 ≤ 23)
    (hg : g + selector + 8 ≤ n) (hd : s.mem.word (g + selector) 64 = d) :
    s.ctl.descriptor s.mem s.gdtr selector = some d := by
  have h : s.ctl.descriptor s.mem ⟨23, 0#64 + BitVec.ofNat 64 g⟩ selector = some d :=
    (hflat.shifts hn).descriptor hsel hg hd
  rw [BitVec.zero_add] at h
  rw [hgdtr, h]

/-- `support_long_mode` returns whether the processor has long mode, and changes registers only. -/
theorem longModeTest_eq (p : Processor) (s : Cpu32) :
    ((longModeTest p s).eax = 0 ↔ ¬ p.HasLongMode) ∧ (longModeTest p s).ctl = s.ctl ∧
      (longModeTest p s).gdtr = s.gdtr ∧ (longModeTest p s).esp = s.esp ∧
      (longModeTest p s).mem = s.mem := by
  unfold longModeTest
  simp only []
  by_cases hbelow : (({ s with eax := 0x80000000 } : Cpu32).cpuid p).eax < 0x80000001
  · have hno : ¬ p.HasLongMode := fun h => absurd (BitVec.not_le.mpr hbelow) (not_not.mpr h.1)
    simp only [if_pos hbelow, Cpu32.setAl_al]
    exact ⟨iff_of_true rfl hno, rfl, rfl, rfl, rfl⟩
  · have hle : 0x80000001 ≤ (p.cpuid 0x80000000).eax := BitVec.not_lt.mp hbelow
    simp only [if_neg hbelow, Cpu32.setAl_al]
    refine ⟨?_, rfl, rfl, rfl, rfl⟩
    show ((if (p.cpuid 0x80000001).edx.getLsbD 29 = true then (1 : BitVec 8)
      else 0).setWidth 32 = 0)
      ↔ _
    by_cases hbit : (p.cpuid 0x80000001).edx.getLsbD 29 = true
    · rw [if_pos hbit]
      exact iff_of_false (by decide) (not_not.mpr ⟨hle, hbit⟩)
    · rw [if_neg hbit]
      exact iff_of_true rfl fun h => hbit h.2

/-! ## The temporary tables -/

/-- Memory after the stores of a list. -/
def putAll (m : Bytes) (ws : List (ℕ × BitVec 32)) : Bytes :=
  ws.foldl (fun m w => m.putWord w.1 w.2) m

theorem storeAll_eq (hp : ¬ s.ctl.PagingOn) {ws : List (ℕ × BitVec 32)}
    (hws : ∀ w ∈ ws, w.1 + 4 ≤ 2 ^ 30) :
    storeAll s ws = some { s with mem := putAll s.mem ws } := by
  induction ws generalizing s with
  | nil => rfl
  | cons w ws ih =>
    obtain ⟨hw, hrest⟩ := List.forall_mem_cons.mp hws
    have hnat : (BitVec.ofNat 64 w.1).toNat = w.1 := by
      rw [BitVec.toNat_ofNat]
      omega
    have hstore : s.storeAt (BitVec.ofNat 64 w.1) w.2 =
        some { s with mem := s.mem.putWord (BitVec.ofNat 64 w.1).toNat w.2 } :=
      Cpu32.storeAt_eq (Controls.flat_of_not_pagingOn hp) (by rw [hnat]; exact hw) (by decide)
    rw [hnat] at hstore
    rw [storeAll, List.foldlM_cons, hstore]
    exact ih (s := { s with mem := s.mem.putWord w.1 w.2 }) hp hrest

theorem putAll_of_apart {ws : List (ℕ × BitVec 32)} (h : ∀ w ∈ ws, a < w.1 ∨ w.1 + 4 ≤ a) :
    putAll m ws a = m a := by
  induction ws generalizing m with
  | nil => rfl
  | cons w ws ih =>
    obtain ⟨hw, hrest⟩ := List.forall_mem_cons.mp h
    exact (ih hrest).trans (Bytes.putWord_of_apart hw)

/-- **The stored entries**, whose upper halves are zero. -/
theorem word_putAll {ws : List (ℕ × BitVec 32)}
    (hapart : ws.Pairwise fun w w' => w.1 + 8 ≤ w'.1 ∨ w'.1 + 8 ≤ w.1)
    (hupper : ∀ w ∈ ws, m.word (w.1 + 4) 32 = 0) :
    ∀ w ∈ ws, (putAll m ws).word w.1 64 = w.2.setWidth 64 := by
  induction ws generalizing m with
  | nil => exact fun w hw => absurd hw List.not_mem_nil
  | cons w ws ih =>
    obtain ⟨hw, hrest⟩ := List.pairwise_cons.mp hapart
    obtain ⟨hzero, hzeros⟩ := List.forall_mem_cons.mp hupper
    refine List.forall_mem_cons.mpr ⟨?_, ?_⟩
    · have hkept :
          (putAll (m.putWord w.1 w.2) ws).word w.1 64 = (m.putWord w.1 w.2).word w.1 64 := by
        refine Bytes.word_congr fun b hlow hhigh => putAll_of_apart fun w' hw' => ?_
        have hsep := hw w' hw'
        omega
      exact hkept.trans (Bytes.word_64_putWord hzero)
    · refine ih hrest fun w' hw' => ?_
      have hsep := hw w' hw'
      refine Eq.trans ?_ (hzeros w' hw')
      exact Bytes.word_congr fun b hlow hhigh => Bytes.putWord_of_apart (by omega)

/-- The entry for a page of the temporary tables. -/
def temporaryPage (i : ℕ) : BitVec 64 := (BitVec.ofNat 32 (0x200000 * i + 0x83)).setWidth 64

theorem temporaryPage_spec {i : ℕ} (hi : i < 6) :
    Present (temporaryPage i) ∧ PageSize (temporaryPage i) ∧
      frame 21 (temporaryPage i) = 2 ^ 21 * i := by
  have h : ∀ i < 6, Present (temporaryPage i) ∧ PageSize (temporaryPage i) ∧
      frame 21 (temporaryPage i) = 2 ^ 21 * i := by decide
  exact h i hi

theorem temporaryPage_mem {i : ℕ} (hi : i < 6) :
    (0x92000 + 8 * i, BitVec.ofNat 32 (0x200000 * i + 0x83)) ∈ temporaryTables := by
  have h : ∀ i < 6, (0x92000 + 8 * i, BitVec.ofNat 32 (0x200000 * i + 0x83)) ∈
    temporaryTables := by decide
  exact h i hi

/-- The entries are those of two windows on the first 12 MiB. -/
theorem windows_of_words (h : ∀ w ∈ temporaryTables, m.word w.1 64 = w.2.setWidth 64) :
    Windows (fun a => m.word a 64) 0x90000 0x91000 0x92000 6 := by
  have h0 := h (0x90000, 0x91007) (by simp [temporaryTables])
  have h256 := h (0x90800, 0x91007) (by simp [temporaryTables])
  have h3 := h (0x91000, 0x92007) (by simp [temporaryTables])
  have h2 : ∀ i < 6, m.word (0x92000 + 8 * i) 64 = temporaryPage i := by
    intro i hi
    have hw := h _ (temporaryPage_mem hi)
    rw [temporaryPage]
    exact hw
  dsimp only at h0 h256 h3
  constructor
  · show Present (m.word 0x90000 64) ∧ frame 12 (m.word 0x90000 64) = 0x91000
    rw [h0]
    decide
  · show Present (m.word 0x90800 64) ∧ frame 12 (m.word 0x90800 64) = 0x91000
    rw [h256]
    decide
  · show Present (m.word 0x91000 64) ∧ ¬ PageSize (m.word 0x91000 64) ∧
      frame 12 (m.word 0x91000 64) = 0x92000
    rw [h3]
    decide
  · intro i hi
    rw [h2 i hi]
    exact temporaryPage_spec hi

/-! ## Long mode -/

theorem openPaging_eq (s : Cpu32) :
    ∃ t : Cpu32, openPaging s = some (.pagingOn, t) ∧ t.ctl.Active ∧
      frame 12 t.ctl.cr3 = 0x90000 ∧ t.gdtr = s.gdtr ∧ t.mem = s.mem := by
  refine ⟨_, rfl, ⟨?_, ?_, ?_, ?_⟩, ?_, rfl, rfl⟩
  · show (s.ctl.cr0 ||| 1#32 <<< 0 ||| 1#32 <<< 31).getLsbD 0 = true
    rw [BitVec.getLsbD_or, getLsbD_or_bit _ 0 (by decide), Bool.true_or]
  · exact getLsbD_or_bit _ 31 (by decide)
  · exact getLsbD_or_bit _ 5 (by decide)
  · show (s.ctl.efer.extractLsb' 32 32 ++ (s.ctl.efer.setWidth 32 ||| 1#32 <<< 8)).getLsbD 8 = true
    rw [BitVec.getLsbD_append]
    exact getLsbD_or_bit _ 8 (by decide)
  · show frame 12 ((0x90000#32).setWidth 64) = 0x90000
    decide

/-- **From `load gdtr` on**, long mode becomes active with the temporary tables. -/
theorem loadGdtr_eq (hx : x.Linked) (hp : ¬ s.ctl.PagingOn) (himage : x.Image s.mem) :
    ∃ t : Cpu32, x.loadGdtr s = some (.pagingOn, t) ∧ t.ctl.Active ∧
      frame 12 t.ctl.cr3 = 0x90000 ∧ t.gdtr = ⟨23, BitVec.ofNat 64 x.gdt64⟩ ∧ t.mem = s.mem := by
  have hgdt64 := hx.gdt64
  have hptr := hx.gdtPtr64
  have hflat : s.ctl.Flat s.mem (2 ^ 30) := Controls.flat_of_not_pagingOn hp
  have hshift := hflat.shifts (by decide)
  have hset : ∀ k, k < 2 ^ 32 → (BitVec.ofNat 32 k).setWidth 64 = 0#64 + BitVec.ofNat 64 k := by
    intro k hk
    refine BitVec.eq_of_toNat_eq ?_
    rw [BitVec.zero_add, BitVec.toNat_setWidth, BitVec.toNat_ofNat, BitVec.toNat_ofNat]
    omega
  have hlimit : s.ctl.load s.mem ((BitVec.ofNat 32 x.gdtPtr64).setWidth 64) 16 = some 23 := by
    rw [hset _ (by omega), hshift.load (by omega) (by decide), himage.limit]
  have hbase : s.ctl.load s.mem ((BitVec.ofNat 32 x.gdtPtr64 + 2).setWidth 64) 32 =
      some (BitVec.ofNat 32 x.gdt64) := by
    have hadd : BitVec.ofNat 32 x.gdtPtr64 + 2 = BitVec.ofNat 32 (x.gdtPtr64 + 2) :=
      (BitVec.ofNat_add x.gdtPtr64 2).symm
    rw [hadd, hset _ (by omega), hshift.load (by omega) (by decide), himage.base]
  have hmask : (BitVec.ofNat 32 x.gdt64 &&& 0x00ffffff).setWidth 64 = BitVec.ofNat 64 x.gdt64 := by
    refine BitVec.eq_of_toNat_eq ?_
    have hc : (0x00ffffff : BitVec 32).toNat = 2 ^ 24 - 1 := rfl
    rw [BitVec.toNat_setWidth, BitVec.toNat_and, BitVec.toNat_ofNat, hc,
      Nat.and_two_pow_sub_one_eq_mod, BitVec.toNat_ofNat]
    omega
  have hlgdt : s.lgdt16 (BitVec.ofNat 32 x.gdtPtr64) =
      some { s with gdtr := ⟨23, BitVec.ofNat 64 x.gdt64⟩ } := by
    simp only [Cpu32.lgdt16, hlimit, hbase, Option.bind_eq_bind, Option.bind_some, hmask,
      Option.pure_def]
  have hdata : ({ s with gdtr := ⟨23, BitVec.ofNat 64 x.gdt64⟩ } : Cpu32).loadData 0x10 =
      some { s with gdtr := ⟨23, BitVec.ofNat 64 x.gdt64⟩ } :=
    loadData_eq (descriptor_eq hflat (by decide) rfl (by decide) (by omega) rfl)
      (himage.data64.of (by decide) (by decide))
  obtain ⟨t, hrun, hactive, hcr3, hgdtr, hmem⟩ := openPaging_eq
    { s with gdtr := ⟨23, BitVec.ofNat 64 x.gdt64⟩, esp := 0x7e00 }
  refine ⟨t, ?_, hactive, hcr3, hgdtr, hmem⟩
  rw [loadGdtr, hlgdt, Option.bind_eq_bind, Option.bind_some, hdata, Option.bind_some, hrun]

/-! ## The run of `loader.asm` -/

theorem Linked.step_of_flat {l : ProtectLabel} (hx : x.Linked) (h : s.ctl.Flat s.mem (2 ^ 21 * 6)) :
    x.step p (l, s) = x.block p l s := if_pos (hx.text.translate_addr h)

theorem Linked.step_of_not_pagingOn {l : ProtectLabel} (hx : x.Linked) (h : ¬ s.ctl.PagingOn) :
    x.step p (l, s) = x.block p l s := hx.step_of_flat (Controls.flat_of_not_pagingOn h)

/-- `support_long_mode` is called with the stack at `0x7e00`. -/
theorem goToTmpProtect_eq (hx : x.Linked) (hs : x.Entered s) :
    x.block p .goToTmpProtect s = some (.supportLongMode,
      x.text.entered { s with esp := 0x7e00 } 0x7e00 .longModeTested) := by
  have hgdt := hx.gdt
  have hp := hs.not_paging
  have htop : (0x7e00 : BitVec 32).toNat = 0x7e00 := rfl
  have hdata := loadData_eq (descriptor_eq (Controls.flat_of_not_pagingOn (n := 2 ^ 30) hp)
    (by decide) hs.gdtr (by decide) (by omega) rfl) (hs.image.data32.of (by decide) (by decide))
  rw [block, hdata, Option.bind_eq_bind, Option.bind_some]
  exact Text.call_eq (Controls.flat_of_not_pagingOn hp) rfl (by rw [htop]; decide)
    (by rw [htop]; decide)

/-- It returns whether the processor has long mode. -/
theorem supportLongMode_eq (hx : x.Linked) (hp : ¬ s.ctl.PagingOn)
    (h : x.text.Called 0x7e00 .longModeTested s) :
    ∃ t : Cpu32, x.block p .supportLongMode s = some (.longModeTested, t) ∧
      (t.eax = 0 ↔ ¬ p.HasLongMode) ∧ t.ctl = s.ctl ∧ t.mem = s.mem := by
  have htop : (0x7e00 : BitVec 32).toNat = 0x7e00 := rfl
  have hblock : x.block p .supportLongMode s = x.text.ret (longModeTest p s) := rfl
  have htest := longModeTest_eq p s
  rw [hblock]
  generalize longModeTest p s = t at htest
  obtain ⟨heax, hctl, -, hesp, hmem⟩ := htest
  have hcalled : x.text.Called 0x7e00 .longModeTested t := by
    refine ⟨hesp.trans h.esp, ?_⟩
    rw [hmem]
    exact h.word
  exact ⟨_, Text.ret_eq hx.text (Controls.flat_of_not_pagingOn (by rwa [hctl])) hcalled
    (by rw [htop]; decide) (by rw [htop]; decide) (List.mem_singleton.mpr rfl), heax, hctl, hmem⟩

/-- **The call of `support_long_mode`**, and its return. -/
theorem tested_arrives (hx : x.Linked) (hs : x.Entered s) :
    ∃ t : Cpu32, Arrives (x.step p) (.goToTmpProtect, s) (.longModeTested, t) ∧
      (t.eax = 0 ↔ ¬ p.HasLongMode) ∧ t.ctl = s.ctl ∧
      ∀ a, a < 0x7dfc ∨ 0x7e00 ≤ a → t.mem a = s.mem a := by
  have hctlu : (x.text.entered { s with esp := 0x7e00 } 0x7e00 .longModeTested).ctl = s.ctl :=
    Text.ctl_entered
  have hp : ¬ (x.text.entered { s with esp := 0x7e00 } 0x7e00 .longModeTested).ctl.PagingOn := by
    rw [hctlu]
    exact hs.not_paging
  obtain ⟨t, hret, heax, hctl, hmem⟩ :=
    supportLongMode_eq (p := p) hx hp (Text.called_entered (s := { s with esp := 0x7e00 }))
  exact ⟨t, Arrives.head ((hx.step_of_not_pagingOn hs.not_paging).trans (goToTmpProtect_eq hx hs))
    (Arrives.single ((hx.step_of_not_pagingOn hp).trans hret)), heax, hctl.trans hctlu,
    fun a ha => (congrFun hmem a).trans (Text.mem_entered ha (by decide))⟩

/-- What the temporary tables leave in its place. -/
theorem putAll_temporaryTables (h : a < 0x90000 ∨ 0x9202c ≤ a) :
    putAll m temporaryTables a = m a := by
  refine putAll_of_apart fun w hw => ?_
  have hb := (show ∀ w ∈ temporaryTables, 0x90000 ≤ w.1 ∧ w.1 + 4 ≤ 0x9202c by decide) w hw
  omega

/-- The stores of the tables. -/
theorem initTables_eq (hp : ¬ s.ctl.PagingOn)
    (hupper : ∀ w ∈ temporaryTables, s.mem.word (w.1 + 4) 32 = 0) :
    ∃ m : Bytes, x.block p .initTables s = some (.loadGdtr, { s with mem := m }) ∧
      Windows (fun a => m.word a 64) 0x90000 0x91000 0x92000 6 ∧
      m = putAll s.mem temporaryTables := by
  have hstored : storeAll s temporaryTables =
      some { s with mem := putAll s.mem temporaryTables } := storeAll_eq hp (by decide)
  refine ⟨_, ?_, windows_of_words (word_putAll (by decide) hupper), rfl⟩
  rw [block, hstored, Option.map_some]

/-- **From `init temporary page table` on**: the kernel is entered in 64-bit code, with two windows
on the first 12 MiB. -/
theorem kernel_arrives (hx : x.Linked) (hp : ¬ s.ctl.PagingOn) (himage : x.Image s.mem)
    (hupper : ∀ w ∈ temporaryTables, s.mem.word (w.1 + 4) 32 = 0) :
    ∃ t : Cpu32, Arrives (x.step p) (.initTables, s) (.kernel, t) ∧ t.ctl.Runs64 t.cs ∧
      frame 12 t.ctl.cr3 = 0x90000 ∧ t.gdtr = ⟨23, BitVec.ofNat 64 x.gdt64⟩ ∧
      Windows (fun a => t.mem.word a 64) 0x90000 0x91000 0x92000 6 ∧
      t.mem = putAll s.mem temporaryTables := by
  have hgdt64 := hx.gdt64
  obtain ⟨m, hstored, hwindows, hm⟩ := initTables_eq (p := p) (x := x) hp hupper
  have himage' : x.Image m := himage.congr hx fun a hlow hhigh => by
    rw [hm]
    exact putAll_temporaryTables (.inl (by omega))
  have hpm : ¬ ({ s with mem := m } : Cpu32).ctl.PagingOn := hp
  obtain ⟨t, hload, hactive, hcr3, hgdtr, hmem⟩ := loadGdtr_eq hx hpm himage'
  have hwindows' : Windows (fun a => t.mem.word a 64) 0x90000 0x91000 0x92000 6 := by
    rw [hmem]
    exact hwindows
  have hflat := hwindows'.flat (by decide) hactive hcr3
  have hholds : HoldsDescriptor t.mem (x.gdt64 + 8) 0x0020980000000000 := by
    rw [hmem]
    exact himage'.code64
  have hdesc : t.ctl.descriptor t.mem t.gdtr 8 = some (t.mem.word (x.gdt64 + 8) 64) :=
    descriptor_eq hflat (by decide) hgdtr (by decide) (by omega) rfl
  have hcode : t.ctl.codeDescriptor t.mem t.gdtr 8 = some (t.mem.word (x.gdt64 + 8) 64) :=
    Controls.codeDescriptor_eq hdesc (hholds.of (by decide) (by decide))
  have hjump : x.block p .pagingOn t =
      some (.kernel, { t with cs := t.mem.word (x.gdt64 + 8) 64 }) := by
    rw [block, hcode, Option.map_some]
  refine ⟨{ t with cs := t.mem.word (x.gdt64 + 8) 64 },
    Arrives.head ((hx.step_of_not_pagingOn hp).trans hstored)
      (Arrives.head ((hx.step_of_not_pagingOn hpm).trans hload)
        (Arrives.single ((hx.step_of_flat hflat).trans hjump))),
    ⟨hactive, hholds.of (by decide) (by decide)⟩, hcr3, hgdtr, hwindows', hmem.trans hm⟩

end Protect

/-! ## What `head.sx` relies on -/

theorem toNat_sub_8 {v : BitVec 64} (h : 8 ≤ v.toNat) : (v - 8).toNat = v.toNat - 8 := by
  have hlt := v.isLt
  have h8 : (8 : BitVec 64).toNat = 8 := rfl
  rw [BitVec.toNat_sub, h8]
  omega

namespace Cpu64

variable {s : Cpu64} {base : BitVec 64} {n a : ℕ}

theorem tablePointer_eq (h : s.ctl.Shifts s.mem base n) (ha : a + 10 ≤ n) :
    s.tablePointer (base + BitVec.ofNat 64 a) = some ⟨s.mem.word a 16, s.mem.word (a + 2) 64⟩ := by
  have hlimit := h.load (a := a) (w := 16) (by omega) (by decide)
  have hbase := h.load (a := a + 2) (w := 64) (by omega) (by decide)
  have hadd : base + BitVec.ofNat 64 a + 2 = base + BitVec.ofNat 64 (a + 2) := by
    rw [BitVec.add_assoc, ← show BitVec.ofNat 64 2 = 2 from rfl, ← BitVec.ofNat_add]
  rw [tablePointer, hlimit, Option.bind_eq_bind, Option.bind_some, hadd, hbase]
  rfl

theorem loadData_eq {d : BitVec 64} {selector : ℕ}
    (h : s.ctl.descriptor s.mem s.gdtr selector = some d) (hd : WritableData d) :
    s.loadData selector = some s := by
  rw [loadData, Controls.dataDescriptor_eq h hd, Option.map_some]

theorem pushq_eq {v : BitVec 64} (h : s.ctl.Flat s.mem n) (hn : n ≤ 2 ^ 64)
    (h8 : 8 ≤ s.rsp.toNat) (htop : s.rsp.toNat ≤ n) :
    s.pushq v = some { s with rsp := s.rsp - 8, mem := s.mem.putWord (s.rsp.toNat - 8) v } := by
  have ha := toNat_sub_8 h8
  rw [pushq, h.store hn (by rw [ha]; omega) (by decide), ha, Option.map_some]

end Cpu64

namespace Head

variable {h : Head} {s t : Cpu64}

/-- The kernel is loaded at 1 MiB, within the 10 MiB that its own tables map, and so is what
`head.sx` names. -/
structure Linked (h : Head) : Prop where
  code : ∀ l, h.code l < 2 ^ 21 * 5
  gdtPointer : 0x100000 ≤ h.gdtPointer ∧ h.gdtPointer + 10 ≤ 2 ^ 21 * 5
  idtPointer : 0x100000 ≤ h.idtPointer ∧ h.idtPointer + 10 ≤ 2 ^ 21 * 5
  switchSeg : 0x100000 ≤ h.switchSeg ∧ h.switchSeg + 8 ≤ 2 ^ 21 * 5
  stackStart : 0x100000 ≤ h.stackStart ∧ h.stackStart + 8 ≤ 2 ^ 21 * 5
  gdtTable : 0x100000 ≤ h.gdtTable ∧ h.gdtTable + 136 ≤ 2 ^ 21 * 5

/-- The kernel is in memory: its tables, the two pointers and the two addresses, and the two
descriptors of `GDT_Table` in use. -/
structure Image (h : Head) (m : Bytes) : Prop where
  tables : HasTables headPml4e fun a => m.word a 64
  gdtLimit : m.word h.gdtPointer 16 = 135
  gdtBase : m.word (h.gdtPointer + 2) 64 = linked h.gdtTable
  idtLimit : m.word h.idtPointer 16 = 4095
  idtBase : m.word (h.idtPointer + 2) 64 = linked h.idtTable
  switchSeg : m.word h.switchSeg 64 = linked (h.code .entry64)
  stackStart : m.word h.stackStart 64 = h.stackTop
  code64 : HoldsDescriptor m (h.gdtTable + 0x08) 0x0020980000000000
  data64 : HoldsDescriptor m (h.gdtTable + 0x10) 0x0000920000000000

theorem Image.congr (himage : h.Image m) (hh : h.Linked)
    (hmem : ∀ a, 0x100000 ≤ a → m' a = m a) : h.Image m' := by
  have hword : ∀ a w, 0x100000 ≤ a → m'.word a w = m.word a w :=
    fun a w ha => Bytes.word_congr fun b hb _ => hmem b (by omega)
  have hgdt := hh.gdtPointer
  have hidt := hh.idtPointer
  have htable := hh.gdtTable
  have hcr3 : bootCr3 = 0x101000 := rfl
  exact ⟨⟨fun i hi => (hword _ 64 (by omega)).trans (himage.tables.pml4 i hi),
      fun i hi => (hword _ 64 (by omega)).trans (himage.tables.pdpt i hi),
      fun i hi => (hword _ 64 (by omega)).trans (himage.tables.pd i hi)⟩,
    (hword _ 16 hgdt.1).trans himage.gdtLimit, (hword _ 64 (by omega)).trans himage.gdtBase,
    (hword _ 16 hidt.1).trans himage.idtLimit, (hword _ 64 (by omega)).trans himage.idtBase,
    (hword _ 64 hh.switchSeg.1).trans himage.switchSeg,
    (hword _ 64 hh.stackStart.1).trans himage.stackStart,
    himage.code64.congr (hword _ 64 (by omega)), himage.data64.congr (hword _ 64 (by omega))⟩

/-- The tables of `head.sx` are two windows on the first 10 MiB. -/
theorem windows_of_tables {mem : PhysMem} (htables : HasTables headPml4e mem) :
    Windows mem 0x101000 0x102000 0x103000 5 := by
  have h0 : mem 0x101000 = 0x102007 := htables.pml4 0 (by decide)
  have h256 : mem (0x101000 + 8 * 256) = 0x102007 := htables.pml4 256 (by decide)
  have h3 : mem 0x102000 = 0x103003 := htables.pdpt 0 (by decide)
  constructor
  · rw [h0]
    decide
  · rw [h256]
    decide
  · rw [h3]
    decide
  · intro i hi
    have hentries : ∀ i < 5, Present (bootPde i) ∧ PageSize (bootPde i) ∧
      frame 21 (bootPde i) = 2 ^ 21 * i := by decide
    rw [htables.pd i (by omega)]
    exact hentries i hi

/-! ## The run of `head.sx` -/

theorem step_eq {l : HeadLabel} (hruns : s.ctl.Runs64 s.cs)
    (hfetch : s.ctl.translate s.mem (h.rip l) = some (h.code l)) : h.step (l, s) = h.block l s :=
  if_pos ⟨hruns, hfetch⟩

/-- `_start` ends with the registers for the tables of the kernel. -/
def kernelTables (h : Head) (s : Cpu64) : Cpu64 :=
  { s with rax := 0x101000, rsp := 0x7e00, ctl := { s.ctl with cr3 := 0x101000 },
           gdtr := ⟨135, linked h.gdtTable⟩, idtr := ⟨4095, linked h.idtTable⟩ }

/-- **`_start`**, with the tables of the loader. -/
theorem start_eq {g : ℕ} (hh : h.Linked) (himage : h.Image s.mem) (hactive : s.ctl.Active)
    (hcr3 : frame 12 s.ctl.cr3 = 0x90000)
    (hwindows : Windows (fun a => s.mem.word a 64) 0x90000 0x91000 0x92000 6)
    (hg : g + 24 ≤ 0x20000) (hgdtr : s.gdtr = ⟨23, BitVec.ofNat 64 g⟩)
    (hdata : HoldsDescriptor s.mem (g + 0x10) 0x0000920000000000) :
    h.start s = some (.cr3Loaded, h.kernelTables s) := by
  have hgdt := hh.gdtPointer
  have hidt := hh.idtPointer
  have htable := hh.gdtTable
  have hlow := (hwindows.flat (by decide) hactive hcr3).shifts (by decide)
  have hhigh := hwindows.shifts (by decide) hactive hcr3
  have hdesc : s.ctl.descriptor s.mem ⟨23, 0#64 + BitVec.ofNat 64 g⟩ 0x10 =
      some (s.mem.word (g + 0x10) 64) := hlow.descriptor (by decide) (by omega) rfl
  have hload : s.loadData 0x10 = some s := by
    refine Cpu64.loadData_eq ?_ (hdata.of (by decide) (by decide))
    rw [hgdtr, ← hdesc, BitVec.zero_add]
  have hpointer : ∀ (t : Cpu64) (a : ℕ), t.ctl = s.ctl → t.mem = s.mem → a + 10 ≤ 2 ^ 21 * 6 →
      t.tablePointer (BitVec.ofNat 64 a) = some ⟨s.mem.word a 16, s.mem.word (a + 2) 64⟩ := by
    intro t a hctl hmem ha
    have hlow' : t.ctl.Shifts t.mem 0#64 (2 ^ 21 * 6) := by rwa [hctl, hmem]
    rw [← BitVec.zero_add (BitVec.ofNat 64 a), Cpu64.tablePointer_eq hlow' ha, hmem]
  have hdesc' : s.ctl.descriptor s.mem ⟨135, linked h.gdtTable⟩ 0x10 =
      some (s.mem.word (h.gdtTable + 0x10) 64) := hhigh.descriptor (by decide) (by omega) rfl
  have hload' : ∀ t : Cpu64, t.ctl = s.ctl → t.mem = s.mem →
      t.gdtr = ⟨135, linked h.gdtTable⟩ → t.loadData 0x10 = some t := by
    intro t hctl hmem hgdtr
    refine Cpu64.loadData_eq ?_ (himage.data64.of (by decide) (by decide))
    rw [hctl, hmem, hgdtr, hdesc']
  rw [start, hload, Option.bind_eq_bind, Option.bind_some]
  dsimp only
  rw [hpointer { s with rsp := 0x7e00 } h.gdtPointer rfl rfl (by omega), Option.bind_eq_bind,
    Option.bind_some, himage.gdtLimit, himage.gdtBase,
    hpointer { s with rsp := 0x7e00, gdtr := ⟨135, linked h.gdtTable⟩ } h.idtPointer rfl rfl
      (by omega),
    Option.bind_some, himage.idtLimit, himage.idtBase,
    hload' { s with rsp := 0x7e00, gdtr := ⟨135, linked h.gdtTable⟩,
                    idtr := ⟨4095, linked h.idtTable⟩ } rfl rfl rfl, Option.bind_some, kernelTables]
  rfl

/-- The windows of the kernel, when its tables are in use. -/
theorem Image.windows (himage : h.Image s.mem) (hactive : s.ctl.Active)
    (hcr3 : s.ctl.cr3 = 0x101000) :
    s.ctl.Flat s.mem (2 ^ 21 * 5) ∧ s.ctl.Shifts s.mem linkOffset (2 ^ 21 * 5) := by
  have hwindows := windows_of_tables himage.tables
  have hframe : frame 12 s.ctl.cr3 = 0x101000 := by
    rw [hcr3]
    decide
  exact ⟨hwindows.flat (by decide) hactive hframe, hwindows.shifts (by decide) hactive hframe⟩

/-- The two words of a far return. -/
theorem lretq_eq {rip : BitVec 64} {d : BitVec 64} {n : ℕ} (hflat : s.ctl.Flat s.mem n)
    (hn : n ≤ 2 ^ 64) (hrsp : s.rsp.toNat + 16 ≤ n) (hrip : s.mem.word s.rsp.toNat 64 = rip)
    (hselector : s.mem.word (s.rsp.toNat + 8) 64 = 8)
    (hd : s.ctl.codeDescriptor s.mem s.gdtr 8 = some d) :
    s.lretq = some (rip, { s with rsp := s.rsp + 16, cs := d }) := by
  have h8 : (s.rsp + 8).toNat = s.rsp.toNat + 8 := by
    have h : (8 : BitVec 64).toNat = 8 := rfl
    rw [BitVec.toNat_add, h]
    omega
  rw [Cpu64.lretq, hflat.load hn (by omega) (by decide), Option.bind_eq_bind, Option.bind_some,
    hrip,
    hflat.load hn (by omega) (by decide), Option.bind_some, h8, hselector]
  show (s.ctl.codeDescriptor s.mem s.gdtr 8 >>= _) = _
  rw [hd]
  rfl

/-- A word is pushed. -/
theorem pushq_spec {v : BitVec 64} {n : ℕ} (hflat : s.ctl.Flat s.mem n) (hn : n ≤ 2 ^ 64)
    (h8 : 8 ≤ s.rsp.toNat) (htop : s.rsp.toNat ≤ n) :
    ∃ t : Cpu64, s.pushq v = some t ∧ t.rax = s.rax ∧ t.rsp = s.rsp - 8 ∧ t.ctl = s.ctl ∧
      t.gdtr = s.gdtr ∧ t.idtr = s.idtr ∧ t.mem = s.mem.putWord (s.rsp.toNat - 8) v :=
  ⟨_, Cpu64.pushq_eq hflat hn h8 htop, rfl, rfl, rfl, rfl, rfl, rfl⟩

/-- **A far return** to an address that has just been pushed, with selector 8: whatever is on the
stack, the translation and the descriptor must be there. -/
theorem farReturn_spec {d : BitVec 64} {n : ℕ} (hn : n ≤ 2 ^ 64) (h16 : 16 ≤ s.rsp.toNat)
    (htop : s.rsp.toNat ≤ n)
    (hm : ∀ m : Bytes, (∀ a, a < s.rsp.toNat - 16 ∨ s.rsp.toNat ≤ a → m a = s.mem a) →
      s.ctl.Flat m n ∧ s.ctl.codeDescriptor m s.gdtr 8 = some d) :
    ∃ t : Cpu64, (s.pushq 0x08 >>= fun s => s.pushq s.rax >>= fun s => s.lretq) = some (s.rax, t) ∧
      t.ctl = s.ctl ∧ t.gdtr = s.gdtr ∧ t.idtr = s.idtr ∧ t.cs = d ∧
      ∀ a, a < s.rsp.toNat - 16 ∨ s.rsp.toNat ≤ a → t.mem a = s.mem a := by
  obtain ⟨u, hpush, hurax, hursp, huctl, hugdtr, huidtr, humem⟩ :=
    pushq_spec (v := 0x08) (hm s.mem fun _ _ => rfl).1 hn (by omega) htop
  have hutop : u.rsp.toNat = s.rsp.toNat - 8 := by rw [hursp, toNat_sub_8 (by omega)]
  have hukept : ∀ a, a < s.rsp.toNat - 8 ∨ s.rsp.toNat ≤ a → u.mem a = s.mem a := by
    intro a ha
    rw [humem]
    exact Bytes.putWord_of_apart (by omega)
  have huflat : u.ctl.Flat u.mem n := by
    rw [huctl]
    exact (hm u.mem fun a ha => hukept a (by omega)).1
  obtain ⟨v, hpush', -, hvrsp, hvctl, hvgdtr, hvidtr, hvmem⟩ :=
    pushq_spec (v := u.rax) huflat hn (by omega) (by omega)
  have hvtop : v.rsp.toNat = s.rsp.toNat - 16 := by
    rw [hvrsp, toNat_sub_8 (by omega)]
    omega
  have hvkept : ∀ a, a < s.rsp.toNat - 16 ∨ s.rsp.toNat - 8 ≤ a → v.mem a = u.mem a := by
    intro a ha
    rw [hvmem]
    exact Bytes.putWord_of_apart (by omega)
  have hkept : ∀ a, a < s.rsp.toNat - 16 ∨ s.rsp.toNat ≤ a → v.mem a = s.mem a :=
    fun a ha => (hvkept a (by omega)).trans (hukept a (by omega))
  obtain ⟨hvflat, hd⟩ := hm v.mem hkept
  rw [← huctl, ← hvctl] at hvflat
  rw [← huctl, ← hvctl, ← hugdtr, ← hvgdtr] at hd
  have hrip : v.mem.word v.rsp.toNat 64 = s.rax := by
    rw [hvtop, hvmem, hurax, show s.rsp.toNat - 16 = u.rsp.toNat - 8 by omega]
    exact Bytes.word_putWord (n := 8)
  have hselector : v.mem.word (v.rsp.toNat + 8) 64 = 8 := by
    have hu : u.mem.word (s.rsp.toNat - 8) 64 = 8 := by
      rw [humem]
      exact Bytes.word_putWord (n := 8)
    rw [hvtop, show s.rsp.toNat - 16 + 8 = s.rsp.toNat - 8 by omega, ← hu]
    exact Bytes.word_congr fun a ha _ => hvkept a (.inr ha)
  have hret := lretq_eq hvflat hn (by omega) hrip hselector hd
  refine ⟨{ v with rsp := v.rsp + 16, cs := d }, ?_, hvctl.trans huctl, hvgdtr.trans hugdtr,
    hvidtr.trans huidtr, rfl, hkept⟩
  rw [hpush, Option.bind_eq_bind, Option.bind_some, hpush', Option.bind_some, hret]

/-- **The far return** to `entry64`. -/
theorem switchSegment_eq (hh : h.Linked) (himage : h.Image s.mem)
    (hactive : s.ctl.Active) (hcr3 : s.ctl.cr3 = 0x101000)
    (hgdtr : s.gdtr = ⟨135, linked h.gdtTable⟩) (h16 : 16 ≤ s.rsp.toNat)
    (htop : s.rsp.toNat ≤ 0x100000) :
    ∃ t : Cpu64, h.switchSegment s = some (.entry64, t) ∧ t.ctl = s.ctl ∧ t.gdtr = s.gdtr ∧
      t.idtr = s.idtr ∧ LongCode t.cs ∧
      ∀ a, a < s.rsp.toNat - 16 ∨ s.rsp.toNat ≤ a → t.mem a = s.mem a := by
  have hseg := hh.switchSeg
  have htable := hh.gdtTable
  obtain ⟨hflat, -⟩ := himage.windows hactive hcr3
  have hload : s.ctl.load s.mem (BitVec.ofNat 64 h.switchSeg) 64 =
      some (linked (h.code .entry64)) := by
    rw [← BitVec.zero_add (BitVec.ofNat 64 h.switchSeg),
      (hflat.shifts (by decide)).load (by omega) (by decide), himage.switchSeg]
  have hm : ∀ m : Bytes, (∀ a, a < s.rsp.toNat - 16 ∨ s.rsp.toNat ≤ a → m a = s.mem a) →
      s.ctl.Flat m (2 ^ 21 * 5) ∧
        s.ctl.codeDescriptor m s.gdtr 8 = some (s.mem.word (h.gdtTable + 8) 64) := by
    intro m hkept
    have himage' : h.Image m := himage.congr hh fun a ha => hkept a (.inr (by omega))
    obtain ⟨hflat', hshifts⟩ := himage'.windows (s := { s with mem := m }) hactive hcr3
    refine ⟨hflat', Controls.codeDescriptor_eq ?_ (himage.code64.of (by decide) (by decide))⟩
    rw [hgdtr]
    exact hshifts.descriptor (by decide) (by omega)
      (Bytes.word_congr fun a ha _ => hkept a (.inr (by omega)))
  obtain ⟨t, hreturn, hctl, hgdtr', hidtr, hcs, hmem⟩ := farReturn_spec
    (s := { s with rax := linked (h.code .entry64) }) (by decide) h16 (by dsimp only; omega) hm
  simp only [Option.bind_eq_bind, Option.bind_eq_some_iff] at hreturn
  obtain ⟨u, hpush, v, hpush', hret⟩ := hreturn
  refine ⟨t, ?_, hctl, hgdtr', hidtr, ?_, hmem⟩
  · simp only [switchSegment, hload, hpush, hpush', hret, Option.bind_eq_bind, Option.bind_some]
    exact if_pos rfl
  · rw [hcs]
    exact himage.code64.of (by decide) (by decide)

/-- **`entry64`**, at the address it is linked at. -/
theorem entry64_eq (hh : h.Linked) (himage : h.Image s.mem) (hactive : s.ctl.Active)
    (hcr3 : s.ctl.cr3 = 0x101000) (hgdtr : s.gdtr = ⟨135, linked h.gdtTable⟩) :
    h.entry64 s = some (.setupIdt, { s with rax := 0x10, rsp := h.stackTop }) := by
  have hstack := hh.stackStart
  have htable := hh.gdtTable
  obtain ⟨-, hshifts⟩ := himage.windows hactive hcr3
  have hdata : ({ s with rax := 0x10 } : Cpu64).loadData 0x10 = some { s with rax := 0x10 } := by
    refine Cpu64.loadData_eq ?_ (himage.data64.of (by decide) (by decide))
    rw [hgdtr]
    exact hshifts.descriptor (by decide) (by omega) rfl
  have hload : s.ctl.load s.mem (linked h.stackStart) 64 = some h.stackTop := by
    rw [linked, hshifts.load (by omega) (by decide), himage.stackStart]
  simp only [entry64, hdata, hload, Option.bind_eq_bind, Option.bind_some, Option.pure_def]

/-- **From `_start` to `setup_IDT`.** -/
theorem setupIdt_arrives {g : ℕ} (hh : h.Linked) (himage : h.Image s.mem)
    (hruns : s.ctl.Runs64 s.cs) (hcr3 : frame 12 s.ctl.cr3 = 0x90000)
    (hwindows : Windows (fun a => s.mem.word a 64) 0x90000 0x91000 0x92000 6)
    (hg : g + 24 ≤ 0x20000) (hgdtr : s.gdtr = ⟨23, BitVec.ofNat 64 g⟩)
    (hdata : HoldsDescriptor s.mem (g + 0x10) 0x0000920000000000) :
    ∃ t : Cpu64, Arrives h.step (.start, s) (.setupIdt, t) ∧ t.ctl.Runs64 t.cs ∧
      t.ctl.cr3 = 0x101000 ∧ t.gdtr = ⟨135, linked h.gdtTable⟩ ∧
      t.idtr = ⟨4095, linked h.idtTable⟩ ∧ t.rsp = h.stackTop ∧
      ∀ a, a < 0x7df0 ∨ 0x7e00 ≤ a → t.mem a = s.mem a := by
  have hnat : ∀ l, (BitVec.ofNat 64 (h.code l)).toNat = h.code l := fun l => by
    have hcode := hh.code l
    rw [BitVec.toNat_ofNat]
    omega
  -- the tables of the loader
  have hflat := hwindows.flat (by decide) hruns.1 hcr3
  have hfetch : s.ctl.translate s.mem (h.rip .start) = some (h.code .start) := by
    have hcode := hh.code .start
    rw [rip, hflat _ (by rw [hnat]; omega), hnat]
  have hstart := (step_eq hruns hfetch).trans
    (start_eq hh himage hruns.1 hcr3 hwindows hg hgdtr hdata)
  -- its own tables, in the lower half
  have hrunsu : (h.kernelTables s).ctl.Runs64 (h.kernelTables s).cs := hruns
  obtain ⟨hflatu, -⟩ := himage.windows (s := h.kernelTables s) hruns.1 rfl
  have hfetchu : (h.kernelTables s).ctl.translate (h.kernelTables s).mem (h.rip .cr3Loaded) =
      some (h.code .cr3Loaded) := by
    have hcode := hh.code .cr3Loaded
    rw [rip, hflatu _ (by rw [hnat]; omega), hnat]
  have hrsp : (h.kernelTables s).rsp.toNat = 0x7e00 := rfl
  obtain ⟨v, hswitch, hctlv, hgdtrv, hidtrv, hcsv, hmemv⟩ :=
    switchSegment_eq (s := h.kernelTables s) hh himage hruns.1 rfl rfl (by rw [hrsp]; decide)
      (by rw [hrsp]; decide)
  rw [hrsp] at hmemv
  have hcr3loaded := (step_eq hrunsu hfetchu).trans hswitch
  -- and in the upper half
  have himagev : h.Image v.mem := himage.congr hh fun a ha =>
    hmemv a (.inr ((show 0x7e00 ≤ 0x100000 by decide).trans ha))
  have hrunsv : v.ctl.Runs64 v.cs := by
    rw [hctlv]
    exact ⟨hruns.1, hcsv⟩
  have hcr3v : v.ctl.cr3 = 0x101000 := by rw [hctlv, kernelTables]
  have hgdtrv' : v.gdtr = ⟨135, linked h.gdtTable⟩ := by rw [hgdtrv, kernelTables]
  obtain ⟨-, hshifts⟩ := himagev.windows hrunsv.1 hcr3v
  have hfetchv : v.ctl.translate v.mem (h.rip .entry64) = some (h.code .entry64) :=
    hshifts _ (hh.code .entry64)
  have hentry := (step_eq hrunsv hfetchv).trans (entry64_eq hh himagev hrunsv.1 hcr3v hgdtrv')
  refine ⟨_, Arrives.head hstart (Arrives.head hcr3loaded (Arrives.single hentry)), hrunsv, hcr3v,
    hgdtrv', ?_, rfl, hmemv⟩
  show v.idtr = _
  rw [hidtrv, kernelTables]

end Head

/-! ## Both -/

/-- Where the run is: in the loader, or in the kernel. -/
abbrev Place := ProtectLabel × Cpu32 ⊕ HeadLabel × Cpu64

variable {x : Protect} {h : Head}

/-- The loader and the kernel.  The jump goes to the code that is at the address. -/
def handoffStep (p : Processor) (x : Protect) (h : Head) (idtr : Gdtr) : Place → Option Place
  | .inl (.kernel, s) =>
    if (x.addr .kernel).toNat = h.code .start then some (.inr (.start, toKernel s idtr)) else none
  | .inl c => (x.step p c).map .inl
  | .inr c => (h.step c).map .inr

/-- The bytes with the accessed bits of the descriptors that the loader loads.  Those of its page
tables are in the words that it stores. -/
def Protect.Marks (x : Protect) (a : ℕ) : Prop :=
  a = x.gdt + 0x15 ∨ a = x.gdt64 + 0x0d ∨ a = x.gdt64 + 0x15

/-- The bytes with those of the descriptors that the kernel loads, and its page tables. -/
def Head.Marks (h : Head) (a : ℕ) : Prop :=
  a = h.gdtTable + 0x0d ∨ a = h.gdtTable + 0x15 ∨ 0x101000 ≤ a ∧ a < 0x104000

/-- What the kernel finds at `setup_IDT`. -/
structure Arrived (x : Protect) (h : Head) (m : Bytes) (t : Cpu64) : Prop where
  runs64 : t.ctl.Runs64 t.cs
  mapped : ∀ va pa, t.ctl.translate t.mem va = some pa ↔ ∃ off < windowSize,
    pa = windowTarget off ∧ (va.toNat = off ∨ va.toNat = 2 ^ 64 - 2 ^ 47 + off)
  rip : t.ctl.translate t.mem (h.rip .setupIdt) = some (h.code .setupIdt)
  gdtr : t.gdtr = ⟨135, Head.linked h.gdtTable⟩
  idtr : t.idtr = ⟨4095, Head.linked h.idtTable⟩
  rsp : t.rsp = h.stackTop
  mem : ∀ a, a < 0x7df0 ∨ 0x7e00 ≤ a → ¬ Protect.Stores a → ¬ x.Marks a → ¬ h.Marks a →
    t.mem a = m a

/-- A run that has ended: on a processor without long mode in an endless loop of the loader. -/
def Ends (p : Processor) (x : Protect) (h : Head) (s : Cpu32) : Place → Prop
  | .inl (l, t) => ¬ p.HasLongMode ∧ l = .noLongModeSupport ∧
      ∀ a, a < 0x7dfc ∨ 0x7e00 ≤ a → ¬ x.Marks a → t.mem a = s.mem a
  | .inr (l, t) => p.HasLongMode ∧ l = .setupIdt ∧ Arrived x h s.mem t

theorem handoffStep_protect {idtr : Gdtr} {c c' : ProtectLabel × Cpu32}
    (h' : x.step p c = some c') :
    handoffStep p x h idtr (.inl c) = some (.inl c') := by
  obtain ⟨l, s⟩ := c
  cases l
  case kernel =>
    rw [Protect.step, Protect.block, ite_self] at h'
    exact absurd h' (Option.some_ne_none _).symm
  all_goals exact congrArg (Option.map Sum.inl) h'

/-- **The way to the kernel.**  On every processor, whatever is in memory where the loader, the
kernel and their tables are not, as long as the upper halves of the temporary entries are zero, the
run from `Go_To_Tmp_Protect` on ends as `Ends` says.  Where the processor has long mode it comes to
`setup_IDT`: in 64-bit code, at the address at which the kernel is linked, with exactly the address
space that the tables of `head.sx` describe, on the stack of the first task, and with memory as the
loader left it but for the temporary tables, the stack, and the bytes that the processor marks. -/
theorem handoff (p : Processor) (idtr : Gdtr) (hx : x.Linked) (hh : h.Linked)
    (hat : (x.addr .kernel).toNat = h.code .start) (hs : x.Entered s) (himage : h.Image s.mem) :
    ∃ r, Arrives (handoffStep p x h idtr) (.inl (.goToTmpProtect, s)) r ∧ Ends p x h s r ∧
      handoffStep p x h idtr r = if p.HasLongMode then none else some r := by
  have hgdt64 := hx.gdt64
  have hmap : ∀ {c c'}, Arrives (x.step p) c c' →
      Arrives (handoffStep p x h idtr) (.inl c) (.inl c') :=
    fun h' => Emits.map Sum.inl (fun _ _ => handoffStep_protect) h'
  obtain ⟨t, hrun, heax, hctl, hkept⟩ := Protect.tested_arrives (p := p) hx hs
  have hpt : ¬ t.ctl.PagingOn := by
    rw [hctl]
    exact hs.not_paging
  have htest : x.step p (.longModeTested, t) =
      some (if t.eax = 0 then .noLongModeSupport else .initTables, t) :=
    hx.step_of_not_pagingOn hpt
  by_cases hlong : p.HasLongMode
  · rw [if_neg fun h' => heax.mp h' hlong] at htest
    have himaget : x.Image t.mem := hs.image.congr hx fun a hlow _ => hkept a (.inr (by omega))
    have huppert : ∀ w ∈ temporaryTables, t.mem.word (w.1 + 4) 32 = 0 := by
      intro w hw
      have hb := (show ∀ w ∈ temporaryTables, 0x90000 ≤ w.1 by decide) w hw
      exact (Bytes.word_congr fun a ha _ => hkept a (.inr (by omega))).trans (hs.upper w hw)
    obtain ⟨u, hrunu, hruns, hcr3, hgdtr, hwindows, hmem⟩ :=
      Protect.kernel_arrives (p := p) hx hpt himaget huppert
    have hukept : ∀ a, ¬ Protect.Stores a → u.mem a = s.mem a := by
      intro a ha
      rw [hmem, Protect.putAll_of_apart fun w hw => ?_]
      · refine hkept a (not_and_or.mp (not_or.mp ha).1 |>.imp (by omega) (by omega))
      · by_contra hcov
        exact ha (.inr ⟨w, hw, by omega, by omega⟩)
    have hout : ∀ {a}, 0x10000 ≤ a → a < 0x20000 ∨ 0x100000 ≤ a → ¬ Protect.Stores a :=
      fun hlow hhigh hstores => by
        have hb := hstores.bounds
        omega
    have himageu : h.Image u.mem := himage.congr hh fun a ha =>
      hukept a (hout (by omega) (.inr ha))
    have hdata := (hs.image.congr hx fun a hlow hhigh => hukept a (hout hlow (.inl hhigh))).data64
    obtain ⟨v, hrunv, hrunsv, hcr3v, hgdtrv, hidtrv, hrspv, hmemv⟩ :=
      Head.setupIdt_arrives (s := toKernel u idtr) (g := x.gdt64) hh himageu hruns hcr3 hwindows
        (by omega) hgdtr hdata
    have htables : HasTables headPml4e fun a => v.mem.word a 64 :=
      (himageu.congr hh fun a ha => hmemv a (.inr (by omega))).tables
    have hframe : frame 12 v.ctl.cr3 = bootCr3 := by
      rw [hcr3v]
      decide
    have hjump : handoffStep p x h idtr (.inl (.kernel, u)) =
        some (.inr (.start, toKernel u idtr)) := if_pos hat
    have hmapped : ∀ va pa, v.ctl.translate v.mem va = some pa ↔ ∃ off < windowSize,
        pa = windowTarget off ∧ (va.toNat = off ∨ va.toNat = 2 ^ 64 - 2 ^ 47 + off) := by
      intro va pa
      rw [Controls.translate_of_active hrunsv.1, hframe]
      exact htables.walk_head
    have hwindow := ((Head.windows_of_tables htables).shifts (by decide) hrunsv.1 hframe)
    refine ⟨.inr (.setupIdt, v), (hmap ((hrun.trans (Arrives.single htest)).trans hrunu)).trans
        (Arrives.head hjump
          (Emits.map Sum.inr (fun _ _ h' => congrArg (Option.map Sum.inr) h') hrunv)),
      ⟨hlong, rfl, hrunsv, hmapped, hwindow _ (hh.code .setupIdt), hgdtrv, hidtrv, hrspv,
        fun a ha hstores _ _ => (hmemv a ha).trans (hukept a hstores)⟩, ?_⟩
    rw [if_pos hlong, handoffStep, Head.step, Head.block, ite_self, Option.map_none]
  · rw [if_pos (heax.mpr hlong)] at htest
    refine ⟨.inl (.noLongModeSupport, t), hmap (hrun.trans (Arrives.single htest)),
      ⟨hlong, rfl, fun a ha _ => hkept a ha⟩, ?_⟩
    have hloop : x.step p (.noLongModeSupport, t) = some (.noLongModeSupport, t) :=
      hx.step_of_not_pagingOn hpt
    rw [if_neg hlong]
    exact handoffStep_protect hloop

/-! ## A loader and a kernel -/

/-- The loader at `0x10000`, with its data from `0x11000` on. -/
def loaderAt : Protect where
  addr
    | .goToTmpProtect => 0x10000
    | .longModeTested => 0x10014
    | .supportLongMode => 0x10100
    | .noLongModeSupport => 0x10120
    | .initTables => 0x1001c
    | .loadGdtr => 0x10078
    | .pagingOn => 0x100b8
    | .kernel => 0x100000
  gdt := 0x11000
  gdt64 := 0x11020
  gdtPtr64 := 0x11040

/-- A kernel with its pointers behind its tables. -/
def kernelAt : Head where
  code
    | .start => 0x100000
    | .cr3Loaded => 0x100040
    | .entry64 => 0x100058
    | .setupIdt => 0x100074
  gdtPointer := 0x104100
  idtPointer := 0x104200
  switchSeg := 0x100050
  stackStart := 0x100200
  gdtTable := 0x104000
  idtTable := 0x105000
  stackTop := 0xffff800000118000

/-- What is in memory besides the page tables. -/
def imageWrites : List Bytes.Write :=
  [⟨0x11010, 8, Bytes.byteOf 0x00cf93000000ffff#64⟩,
    ⟨0x11028, 8, Bytes.byteOf 0x0020980000000000#64⟩,
    ⟨0x11030, 8, Bytes.byteOf 0x0000920000000000#64⟩,
    ⟨0x11040, 2, Bytes.byteOf 23#16⟩, ⟨0x11042, 4, Bytes.byteOf 0x11020#32⟩,
    ⟨0x104100, 2, Bytes.byteOf 135#16⟩, ⟨0x104102, 8, Bytes.byteOf (Head.linked 0x104000)⟩,
    ⟨0x104200, 2, Bytes.byteOf 4095#16⟩, ⟨0x104202, 8, Bytes.byteOf (Head.linked 0x105000)⟩,
    ⟨0x100050, 8, Bytes.byteOf (Head.linked 0x100058)⟩,
    ⟨0x100200, 8, Bytes.byteOf 0xffff800000118000#64⟩,
    ⟨0x104008, 8, Bytes.byteOf 0x0020980000000000#64⟩,
    ⟨0x104010, 8, Bytes.byteOf 0x0000920000000000#64⟩]

/-- With the page tables. -/
def imageMem : Bytes := fun a =>
  if 0x101000 ≤ a ∧ a < 0x104000 then Bytes.byteOf (headMem (a / 8 * 8)) (a % 8)
  else Bytes.applyAll (fun _ => 0) imageWrites a

/-- The loader has just entered protected mode. -/
def entered : Cpu32 where
  eax := 0
  ebx := 0
  ecx := 0
  edx := 0
  esp := 0
  eflags := 0x2
  ctl := ⟨0x11, 0, 0, 0⟩
  gdtr := ⟨23, 0x11000⟩
  cs := 0x00cf9a000000ffff
  mem := imageMem

theorem word_imageMem {a : ℕ} (h8 : a % 8 = 0) (hlow : 0x101000 ≤ a) (hhigh : a < 0x104000) :
    imageMem.word a 64 = headMem a := by
  refine (Bytes.word_eq_iff (n := 8)).mpr fun o ho => ?_
  rw [imageMem, if_pos (by omega), show (a + o) / 8 * 8 = a by omega, show (a + o) % 8 = o by omega]

theorem loaderAt_linked : loaderAt.Linked where
  text := ⟨fun l => by cases l <;> decide, by decide⟩
  gdt := by decide
  gdt64 := by decide
  gdtPtr64 := by decide

theorem kernelAt_linked : kernelAt.Linked where
  code l := by cases l <;> decide
  gdtPointer := by decide
  idtPointer := by decide
  switchSeg := by decide
  stackStart := by decide
  gdtTable := by decide

theorem loaderAt_entered : loaderAt.Entered entered where
  protected_mode := by decide
  not_paging := by decide
  gdtr := rfl
  image := ⟨by decide +kernel, by decide +kernel, by decide +kernel, by decide +kernel,
    by decide +kernel⟩
  upper := by decide +kernel

theorem kernelAt_image : kernelAt.Image entered.mem where
  tables := by
    have htables := hasTables_headMem
    have hcr3 : bootCr3 = 0x101000 := rfl
    refine ⟨fun i hi => ?_, fun i hi => ?_, fun i hi => ?_⟩
    · exact (word_imageMem (by omega) (by omega) (by omega)).trans (htables.pml4 i hi)
    · exact (word_imageMem (by omega) (by omega) (by omega)).trans (htables.pdpt i hi)
    · exact (word_imageMem (by omega) (by omega) (by omega)).trans (htables.pd i hi)
  gdtLimit := by decide +kernel
  gdtBase := by decide +kernel
  idtLimit := by decide +kernel
  idtBase := by decide +kernel
  switchSeg := by decide +kernel
  stackStart := by decide +kernel
  code64 := by decide +kernel
  data64 := by decide +kernel

/-- A processor with long mode. -/
def processor64 : Processor := ⟨fun _ => ⟨0x80000008, 0, 0, 0x20000000⟩, 0x00200000⟩

/-- They come through. -/
theorem handoff_entered :
    processor64.HasLongMode ∧
      ∃ r, Arrives (handoffStep processor64 loaderAt kernelAt ⟨0, 0⟩)
          (.inl (.goToTmpProtect, entered)) r ∧
        Ends processor64 loaderAt kernelAt entered r ∧
        handoffStep processor64 loaderAt kernelAt ⟨0, 0⟩ r =
          if processor64.HasLongMode then none else some r :=
  ⟨by decide, handoff processor64 ⟨0, 0⟩ loaderAt_linked kernelAt_linked (by decide)
    loaderAt_entered kernelAt_image⟩

end Loader
end OSLib
