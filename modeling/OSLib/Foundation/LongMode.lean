import OSLib.Foundation.Bytes
import OSLib.Foundation.Paging
import Mathlib.Data.BitVec

/-!
# From protected mode to long mode

What the processor has to do with the change of mode: the features `cpuid` reports, the flags that
`popfd` can change, the control registers and `EFER`, the translation of addresses that they switch
on, and the descriptors a segment register is loaded from.  Every access of code goes through
`physical`, which says where the bytes of it lie, if the translation has a place for them.

`Flat` says that the translation leaves an address where it is.  Before paging is on it holds of
everything; afterwards it is what the page tables have been made for, and code that turns paging on
goes on only where it holds.

## Two translations

Before paging is on an address is physical; afterwards it goes through the tables that `cr3` points
to.  A program that turns paging on is translated by both, one instruction apart, so `physical` is a
function of the control registers and of memory and not of a mode.  In the middle the processor is
in compatibility mode: paging is on and the code is still of 32 bits.

## Left out

Segment limits and bases are not part of an access: the descriptors that are loaded are checked for
what the load itself needs, and boot code uses flat ones.  The processor keeps translations and sets
accessed and dirty bits; what is here depends on neither, as the tables are written before they are
used.  Privilege levels, page protection and the features behind other bits of `cpuid` are not
modelled, since boot code does not use them.
-/

namespace OSLib

/-! ## Words in memory -/

namespace Bytes

variable {m m' : Bytes} {a b w : ℕ}

/-- Memory after a word is stored. -/
def putWord {w : ℕ} (m : Bytes) (a : ℕ) (v : BitVec w) : Bytes := m.apply ⟨a, w / 8, byteOf v⟩

theorem putWord_of_apart {v : BitVec w} (h : b < a ∨ a + w / 8 ≤ b) : m.putWord a v b = m b :=
  apply_of_not_covers fun hcov => by
    have hlow : a ≤ b := hcov.1
    have hhigh : b < a + w / 8 := hcov.2
    omega

/-- **What has been stored is read.** -/
theorem word_putWord {n : ℕ} {v : BitVec (8 * n)} : (m.putWord a v).word a (8 * n) = v :=
  word_eq_iff.mpr fun o ho => by
    have hdiv : 8 * n / 8 = n := Nat.mul_div_cancel_left n (by decide)
    rw [putWord, apply_of_covers ⟨Nat.le_add_right a o, by
      show a + o < a + 8 * n / 8
      omega⟩, Nat.add_sub_cancel_left]

/-- A word whose bytes are as before. -/
theorem word_congr (h : ∀ b, a ≤ b → b < a + w / 8 → m' b = m b) : m'.word a w = m.word a w :=
  congrArg (BitVec.ofNat w) (leValue_congr fun o ho => h _ (by omega) (by omega))

/-- A word by its halves. -/
theorem toNat_word_64 (m : Bytes) (a : ℕ) :
    (m.word a 64).toNat = (m.word a 32).toNat + 2 ^ 32 * (m.word (a + 4) 32).toNat := by
  have h64 : (m.word a 64).toNat = leValue m a 8 % 2 ^ 64 := BitVec.toNat_ofNat _ _
  have hlow : (m.word a 32).toNat = leValue m a 4 % 2 ^ 32 := BitVec.toNat_ofNat _ _
  have hhigh : (m.word (a + 4) 32).toNat = leValue m (a + 4) 4 % 2 ^ 32 := BitVec.toNat_ofNat _ _
  have hl := leValue_lt m a 4
  have hh := leValue_lt m (a + 4) 4
  have hsplit : leValue m a 8 = leValue m a 4 + 2 ^ 32 * leValue m (a + 4) 4 := by
    simp only [leValue, Nat.add_assoc, Nat.reduceAdd]
    omega
  rw [h64, hlow, hhigh, hsplit]
  omega

/-- A store of 32 bits below a half that is zero. -/
theorem word_64_putWord {v : BitVec 32} (h : m.word (a + 4) 32 = 0) :
    (m.putWord a v).word a 64 = v.setWidth 64 := by
  have hlow : (m.putWord a v).word a 32 = v := word_putWord (n := 4)
  have hhigh : (m.putWord a v).word (a + 4) 32 = 0 :=
    (word_congr fun b hb _ => putWord_of_apart (.inr hb)).trans h
  refine BitVec.eq_of_toNat_eq ?_
  rw [toNat_word_64, hlow, hhigh, BitVec.toNat_setWidth]
  have hv := v.isLt
  have h0 : (0 : BitVec 32).toNat = 0 := rfl
  omega

/-- The lower half of a word. -/
theorem word_setWidth (m : Bytes) (a : ℕ) : (m.word a 64).setWidth 32 = m.word a 32 := by
  refine BitVec.eq_of_toNat_eq ?_
  have hlt := (m.word a 32).isLt
  rw [BitVec.toNat_setWidth, toNat_word_64]
  omega

end Bytes

namespace LongMode

open Paging

/-! ## The processor -/

/-- What `cpuid` leaves in the registers. -/
structure Leaf where
  eax : BitVec 32
  ebx : BitVec 32
  ecx : BitVec 32
  edx : BitVec 32

/-- A model of processor: its answers to `cpuid`, and the flags that can be changed by a `popfd`. -/
structure Processor where
  cpuid : BitVec 32 → Leaf
  changeable : BitVec 32

namespace Processor

variable (p : Processor)

/-- What `pushfd` stores: `VM` and `RF` read as zero. -/
def flagsImage (eflags : BitVec 32) : BitVec 32 := eflags &&& 0x00fcffff#32

/-- The flags after a `popfd`. -/
def popfd (eflags v : BitVec 32) : BitVec 32 :=
  let mask := p.changeable &&& 0x00fcffff#32
  (v &&& mask) ||| (eflags &&& ~~~mask)

/-- The ID flag can be changed, which is how a processor shows that it has `cpuid`. -/
def HasCpuid : Prop := p.changeable.getLsbD 21 = true

/-- `cpuid` has the leaf of the extended features, and the LM bit of it is set. -/
def HasLongMode : Prop :=
  0x80000001 ≤ (p.cpuid 0x80000000).eax ∧ (p.cpuid 0x80000001).edx.getLsbD 29 = true

instance : Decidable p.HasCpuid := by unfold HasCpuid; infer_instance

instance : Decidable p.HasLongMode := by unfold HasLongMode; infer_instance

end Processor

/-! ## Control registers -/

/-- The control registers and `EFER`. -/
structure Controls where
  cr0 : BitVec 32
  cr3 : BitVec 64
  cr4 : BitVec 32
  efer : BitVec 64

namespace Controls

variable (c : Controls)

/-- `CR0.PG`. -/
def PagingOn : Prop := c.cr0.getLsbD 31 = true

/-- Long mode is active: `CR0.PE`, `CR0.PG`, `CR4.PAE` and `EFER.LME`. -/
def Active : Prop :=
  c.cr0.getLsbD 0 = true ∧ c.cr0.getLsbD 31 = true ∧ c.cr4.getLsbD 5 = true ∧
    c.efer.getLsbD 8 = true

instance : Decidable c.PagingOn := by unfold PagingOn; infer_instance

instance : Decidable c.Active := by unfold Active; infer_instance

/-- Where an address goes.  Paging without long mode has no translation here. -/
def translate (m : Bytes) (va : BitVec 64) : Option ℕ :=
  if ¬ c.PagingOn then some va.toNat
  else if c.Active then walk (fun a => m.word a 64) (frame 12 c.cr3) va
  else none

/-- Where the `n` bytes of an access lie, side by side. -/
def physical (m : Bytes) (va : BitVec 64) (n : ℕ) : Option ℕ :=
  (c.translate m va).filter fun pa =>
    ∀ o < n, c.translate m (va + BitVec.ofNat 64 o) = some (pa + o)

/-- The word of `w` bits at an address. -/
def load (m : Bytes) (va : BitVec 64) (w : ℕ) : Option (BitVec w) :=
  (c.physical m va (w / 8)).map fun pa => m.word pa w

/-- Memory after a word is stored at an address. -/
def store {w : ℕ} (m : Bytes) (va : BitVec 64) (v : BitVec w) : Option Bytes :=
  (c.physical m va (w / 8)).map fun pa => m.putWord pa v

/-- The addresses below `n` stay where they are. -/
def Flat (m : Bytes) (n : ℕ) : Prop :=
  ∀ va : BitVec 64, va.toNat < n → c.translate m va = some va.toNat

variable {c} {m : Bytes} {va : BitVec 64} {n k w pa : ℕ}

theorem flat_of_not_pagingOn (h : ¬ c.PagingOn) : c.Flat m n := fun _ _ => if_pos h

theorem translate_of_active (h : c.Active) :
    c.translate m va = walk (fun a => m.word a 64) (frame 12 c.cr3) va := by
  rw [translate, if_neg (not_not.mpr (show c.PagingOn from h.2.1)), if_pos h]

/-- An access whose bytes are all translated side by side. -/
theorem physical_of_forall (h0 : c.translate m va = some pa)
    (h : ∀ o < n, c.translate m (va + BitVec.ofNat 64 o) = some (pa + o)) :
    c.physical m va n = some pa := by
  rw [physical, h0, Option.filter_some, if_pos (decide_eq_true h)]

/-- An access below the limit. -/
theorem Flat.physical (h : c.Flat m n) (hn : n ≤ 2 ^ 64) (hk : va.toNat + k ≤ n) (h0 : 0 < k) :
    c.physical m va k = some va.toNat := by
  refine physical_of_forall (h va (by omega)) fun o ho => ?_
  have hsum : (va + BitVec.ofNat 64 o).toNat = va.toNat + o := by
    rw [BitVec.toNat_add, BitVec.toNat_ofNat, Nat.mod_eq_of_lt (by omega : o < 2 ^ 64),
      Nat.mod_eq_of_lt (by omega)]
  rw [h _ (by omega), hsum]

theorem Flat.load (h : c.Flat m n) (hn : n ≤ 2 ^ 64) (hw : va.toNat + w / 8 ≤ n) (h0 : 0 < w / 8) :
    c.load m va w = some (m.word va.toNat w) := by
  rw [Controls.load, h.physical hn hw h0, Option.map_some]

theorem Flat.store {v : BitVec w} (h : c.Flat m n) (hn : n ≤ 2 ^ 64) (hw : va.toNat + w / 8 ≤ n)
    (h0 : 0 < w / 8) :
    c.store m va v = some (m.putWord va.toNat v) := by
  rw [Controls.store, h.physical hn hw h0, Option.map_some]

end Controls

/-! ## Addresses that are shifted -/

namespace Controls

variable {c : Controls} {m : Bytes} {base : BitVec 64} {n a k w : ℕ}

/-- The addresses from `base` on are translated to the first `n` ones. -/
def Shifts (c : Controls) (m : Bytes) (base : BitVec 64) (n : ℕ) : Prop :=
  ∀ a < n, c.translate m (base + BitVec.ofNat 64 a) = some a

theorem Shifts.physical (h : c.Shifts m base n) (hk : a + k ≤ n) (h0 : 0 < k) :
    c.physical m (base + BitVec.ofNat 64 a) k = some a := by
  refine physical_of_forall (h a (by omega)) fun o ho => ?_
  rw [BitVec.add_assoc, ← BitVec.ofNat_add]
  exact h _ (by omega)

theorem Shifts.load (h : c.Shifts m base n) (hw : a + w / 8 ≤ n) (h0 : 0 < w / 8) :
    c.load m (base + BitVec.ofNat 64 a) w = some (m.word a w) := by
  rw [Controls.load, h.physical hw h0, Option.map_some]

theorem Flat.shifts (h : c.Flat m n) (hn : n ≤ 2 ^ 64) : c.Shifts m 0#64 n := fun a ha => by
  have hnat : (0#64 + BitVec.ofNat 64 a).toNat = a := by
    rw [BitVec.zero_add, BitVec.toNat_ofNat, Nat.mod_eq_of_lt (by omega)]
  rw [h _ (by omega), hnat]

end Controls

/-! ## Two windows -/

/-- Tables whose entries 0 and 256 both lead to the first `n` pages of 2 MiB. -/
structure Windows (mem : PhysMem) (cr3 pdpt pd n : ℕ) : Prop where
  low : Present (mem cr3) ∧ frame 12 (mem cr3) = pdpt
  high : Present (mem (cr3 + 8 * 256)) ∧ frame 12 (mem (cr3 + 8 * 256)) = pdpt
  table : Present (mem pdpt) ∧ ¬ PageSize (mem pdpt) ∧ frame 12 (mem pdpt) = pd
  page : ∀ i < n, Present (mem (pd + 8 * i)) ∧ PageSize (mem (pd + 8 * i)) ∧
    frame 21 (mem (pd + 8 * i)) = 2 ^ 21 * i

namespace Windows

variable {mem : PhysMem} {cr3 pdpt pd n off : ℕ} {va : BitVec 64}

/-- The walk from the page-directory-pointer table on. -/
theorem walkFrom_pdpt (h : Windows mem cr3 pdpt pd n) (h3 : index 3 va = 0)
    (h2 : index 2 va < n) :
    walkFrom mem va 3 pdpt = some (2 ^ 21 * index 2 va + va.toNat % 2 ^ 21) := by
  obtain ⟨hp, hs, hf⟩ := h.page _ h2
  rw [walkFrom_of_directory h3 h.table hp hs, hf]

/-- **The low window.** -/
theorem walk_low (h : Windows mem cr3 pdpt pd n) (hn : n ≤ 512) (hva : va.toNat < 2 ^ 21 * n) :
    walk mem cr3 va = some va.toNat := by
  obtain ⟨hp, hf⟩ := h.low
  have h4 : index 4 va = 0 := by simp only [index]; omega
  have h3 : index 3 va = 0 := by simp only [index]; omega
  have h2 : index 2 va = va.toNat / 2 ^ 21 := by simp only [index]; omega
  have e4 : entry mem cr3 4 va = mem cr3 := by rw [entry, h4]; rfl
  rw [walk_of_canonical (.inl (by omega)), walkFrom_of_present (e4 ▸ hp) (by omega), e4, hf,
    h.walkFrom_pdpt h3 (by omega), h2]
  exact congrArg some (by omega)

/-- **The high window**, at the start of the upper half. -/
theorem walk_high (h : Windows mem cr3 pdpt pd n) (hn : n ≤ 512)
    (hva : va.toNat = 2 ^ 64 - 2 ^ 47 + off) (hoff : off < 2 ^ 21 * n) :
    walk mem cr3 va = some off := by
  obtain ⟨hp, hf⟩ := h.high
  have h4 : index 4 va = 256 := by simp only [index]; omega
  have h3 : index 3 va = 0 := by simp only [index]; omega
  have h2 : index 2 va = off / 2 ^ 21 := by simp only [index]; omega
  have e4 : entry mem cr3 4 va = mem (cr3 + 8 * 256) := by rw [entry, h4]
  rw [walk_of_canonical (.inr (by omega)), walkFrom_of_present (e4 ▸ hp) (by omega), e4, hf,
    h.walkFrom_pdpt h3 (by omega), h2]
  exact congrArg some (by omega)

variable {c : Controls} {m : Bytes}

/-- With the tables in `cr3` the first `n` pages stay where they are. -/
theorem flat (h : Windows (fun a => m.word a 64) cr3 pdpt pd n) (hn : n ≤ 512) (hc : c.Active)
    (hcr3 : frame 12 c.cr3 = cr3) : c.Flat m (2 ^ 21 * n) := fun va hva => by
  rw [Controls.translate_of_active hc, hcr3, h.walk_low hn hva]

/-- They are also at the start of the upper half. -/
theorem shifts (h : Windows (fun a => m.word a 64) cr3 pdpt pd n) (hn : n ≤ 512) (hc : c.Active)
    (hcr3 : frame 12 c.cr3 = cr3) : c.Shifts m 0xffff800000000000 (2 ^ 21 * n) := fun a ha => by
  have hva : ((0xffff800000000000 : BitVec 64) + BitVec.ofNat 64 a).toNat =
      2 ^ 64 - 2 ^ 47 + a := by
    have hbase : (0xffff800000000000 : BitVec 64).toNat = 2 ^ 64 - 2 ^ 47 := rfl
    rw [BitVec.toNat_add, hbase, BitVec.toNat_ofNat]
    omega
  rw [Controls.translate_of_active hc, hcr3, h.walk_high hn hva ha]

end Windows

/-! ## Segments -/

/-- The register for the descriptor table. -/
structure Gdtr where
  limit : BitVec 16
  base : BitVec 64

/-- A descriptor of code that is present. -/
def CodeSegment (d : BitVec 64) : Prop :=
  d.getLsbD 43 = true ∧ d.getLsbD 44 = true ∧ d.getLsbD 47 = true

/-- A descriptor of writable data that is present. -/
def WritableData (d : BitVec 64) : Prop :=
  d.getLsbD 41 = true ∧ d.getLsbD 43 = false ∧ d.getLsbD 44 = true ∧ d.getLsbD 47 = true

/-- The L bit without the D bit. -/
def LongCode (d : BitVec 64) : Prop := d.getLsbD 53 = true ∧ d.getLsbD 54 = false

instance (d : BitVec 64) : Decidable (CodeSegment d) := by unfold CodeSegment; infer_instance

instance (d : BitVec 64) : Decidable (WritableData d) := by unfold WritableData; infer_instance

instance (d : BitVec 64) : Decidable (LongCode d) := by unfold LongCode; infer_instance

namespace Controls

variable (c : Controls) (m : Bytes) (g : Gdtr)

/-- The descriptor a selector of the GDT stands for, if the table goes that far. -/
def descriptor (selector : ℕ) : Option (BitVec 64) :=
  if selector + 7 ≤ g.limit.toNat then c.load m (g.base + BitVec.ofNat 64 selector) 64 else none

/-- The descriptor a far transfer loads into `cs`. -/
def codeDescriptor (selector : ℕ) : Option (BitVec 64) :=
  (c.descriptor m g selector).filter fun d => CodeSegment d

/-- The descriptor a load of a data segment register reads. -/
def dataDescriptor (selector : ℕ) : Option (BitVec 64) :=
  (c.descriptor m g selector).filter fun d => WritableData d

/-- With the descriptor in `cs` the processor runs 64-bit code. -/
def Runs64 (cs : BitVec 64) : Prop := c.Active ∧ LongCode cs

instance (cs : BitVec 64) : Decidable (c.Runs64 cs) := by unfold Runs64; infer_instance

variable {c m g} {selector : ℕ} {d : BitVec 64}

/-- A descriptor of a table that lies in a window. -/
theorem Shifts.descriptor {base : BitVec 64} {n a : ℕ} {limit : BitVec 16}
    (h : c.Shifts m base n) (hlimit : selector + 7 ≤ limit.toNat) (ha : a + selector + 8 ≤ n)
    (hd : m.word (a + selector) 64 = d) :
    c.descriptor m ⟨limit, base + BitVec.ofNat 64 a⟩ selector = some d := by
  have hload := h.load (a := a + selector) (w := 64) (by omega) (by decide)
  rw [Controls.descriptor, if_pos hlimit, BitVec.add_assoc, ← BitVec.ofNat_add, hload, hd]

theorem codeDescriptor_eq (hd : c.descriptor m g selector = some d) (h : CodeSegment d) :
    c.codeDescriptor m g selector = some d := by
  rw [codeDescriptor, hd, Option.filter_some, if_pos (decide_eq_true h)]

theorem dataDescriptor_eq (hd : c.descriptor m g selector = some d) (h : WritableData d) :
    c.dataDescriptor m g selector = some d := by
  rw [dataDescriptor, hd, Option.filter_some, if_pos (decide_eq_true h)]

end Controls

/-! ## Single bits -/

theorem and_bit_eq_zero_iff (v : BitVec 32) (i : ℕ) (hi : i < 32) :
    v &&& 1#32 <<< i = 0 ↔ v.getLsbD i = false := by
  rw [show 1#32 <<< i = BitVec.twoPow 32 i from rfl, BitVec.and_twoPow]
  have hne : BitVec.twoPow 32 i ≠ 0#32 := by
    intro h
    have hbit := congrArg (fun v => v.getLsbD i) h
    simp [hi] at hbit
  cases v.getLsbD i <;> simp [hne]

theorem getLsbD_or_bit (v : BitVec 32) (i : ℕ) (hi : i < 32) :
    (v ||| 1#32 <<< i).getLsbD i = true := by
  rw [show 1#32 <<< i = BitVec.twoPow 32 i from rfl, BitVec.getLsbD_or, BitVec.getLsbD_twoPow]
  simp [hi]

/-! ## The ID flag -/

variable {p : Processor} {f v : BitVec 32} {i : ℕ}

theorem getLsbD_flagsImage :
    (Processor.flagsImage f).getLsbD i = (f.getLsbD i && (0x00fcffff#32).getLsbD i) :=
  BitVec.getLsbD_and

theorem getLsbD_popfd (hi : i < 32) :
    (p.popfd f v).getLsbD i =
      if (p.changeable.getLsbD i && (0x00fcffff#32).getLsbD i) = true then v.getLsbD i
      else f.getLsbD i := by
  rw [Processor.popfd, BitVec.getLsbD_or, BitVec.getLsbD_and, BitVec.getLsbD_and,
    BitVec.getLsbD_and, BitVec.getLsbD_not, BitVec.getLsbD_and, decide_eq_true hi, Bool.true_and]
  cases p.changeable.getLsbD i && (0x00fcffff#32).getLsbD i <;> simp

theorem getLsbD_idFlag (i : ℕ) : (1#32 <<< 21).getLsbD i = decide (i = 21) := by
  rw [BitVec.getLsbD_shiftLeft, BitVec.getLsbD_one]
  by_cases hi : i = 21
  · subst hi
    rfl
  · rw [decide_eq_false hi]
    by_cases hlt : i < 21
    · simp [hlt]
    · have hne : ¬ i - 21 = 0 := by omega
      simp [hne]

/-- Flags that are popped with the ID flag turned over differ from the old ones in that flag if it
can be changed, and not at all otherwise. -/
theorem flagsImage_popfd_flip (p : Processor) (f : BitVec 32) :
    Processor.flagsImage (p.popfd f (Processor.flagsImage f ^^^ 1#32 <<< 21)) =
      if p.HasCpuid then Processor.flagsImage f ^^^ 1#32 <<< 21 else Processor.flagsImage f := by
  refine BitVec.eq_of_getLsbD_eq fun i hi => ?_
  rw [getLsbD_flagsImage, getLsbD_popfd hi, BitVec.getLsbD_xor, getLsbD_flagsImage, getLsbD_idFlag]
  by_cases h21 : i = 21
  · subst h21
    have hmask : (0x00fcffff#32).getLsbD 21 = true := by decide
    rw [hmask, decide_eq_true rfl, Bool.and_true, Bool.and_true, Bool.and_true]
    by_cases hid : p.HasCpuid
    · rw [if_pos (show p.changeable.getLsbD 21 = true from hid), if_pos hid, BitVec.getLsbD_xor,
        getLsbD_flagsImage, getLsbD_idFlag, hmask, Bool.and_true, decide_eq_true rfl]
    · rw [if_neg (show ¬ p.changeable.getLsbD 21 = true from hid), if_neg hid,
        getLsbD_flagsImage, hmask, Bool.and_true]
  · have hsame : (if p.HasCpuid then Processor.flagsImage f ^^^ 1#32 <<< 21
        else Processor.flagsImage f).getLsbD i = (Processor.flagsImage f).getLsbD i := by
      split
      · rw [BitVec.getLsbD_xor, getLsbD_idFlag, decide_eq_false h21, Bool.xor_false]
      · rfl
    rw [hsame, getLsbD_flagsImage, decide_eq_false h21, Bool.xor_false]
    cases (0x00fcffff#32).getLsbD i <;> simp

/-- Popping the flags that were there before. -/
theorem popfd_flagsImage (p : Processor) (f v : BitVec 32) :
    p.popfd (p.popfd f v) (Processor.flagsImage f) = f := by
  refine BitVec.eq_of_getLsbD_eq fun i hi => ?_
  rw [getLsbD_popfd hi, getLsbD_popfd hi, getLsbD_flagsImage]
  split
  · next h => rw [(Bool.and_eq_true_iff.mp h).2, Bool.and_true]
  · rfl

end LongMode
end OSLib
