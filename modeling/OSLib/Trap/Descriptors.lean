import OSLib.Foundation.SubRegisters
import OSLib.Foundation.Words
import OSLib.Trap.Gates

/-!
# The bytes of the descriptors

`_set_gate` of `gate.h` and `setup_IDT` of `head.sx` put a gate together in two registers, one with
fields that are added above each other and one with the upper half of the address; `setup_TSS64`
does the same for the descriptor of the task state segment.  The definitions follow the code
instruction by instruction, and the result is decoded by the layouts of the CPU, which are given
independently of it.

The rest of this part of the development takes the interrupt descriptor table for a function from
vectors to gates.  `idtAt_kernelIdt` says that it is what the CPU finds in memory: after
`setup_IDT`, `init_sys_vector` and `init_interrupt` the bytes of `IDT_Table` are the gates of
`kernelIdt`, wherever the table and the entry points are linked.  `idt_installed` spells these out,
vector by vector.

`IDT_Table` is bytes in memory here, and `gateAt` decodes an entry by the layout of the CPU, sharing
no code with the encoder.  That is why an exchange of two fields in `_set_gate` would show.  Since
the stores go to one entry each, the frame of every call is part of its lemma, and the 256 entries
are a loop over such calls.

## The order of the results

`setGateWords` and the words of `setup_IDT` are numbers put together by additions, and
`decodeGate_setGateWords` reads the fields off them.  `gateAt_setGate` is the same in memory, with
the frame.  `IdtAt` says that the bytes are a given table of gates, and each setter keeps it while
it changes that table in one place; so the three functions, one after the other, lead from the table
that `setup_IDT` leaves to `kernelIdt`.
-/

namespace OSLib
namespace Trap
namespace Descriptors

open SubRegisters

/-! ## The layouts -/

/-- A gate of 16 bytes. -/
structure GateDescriptor where
  offset : BitVec 64
  selector : BitVec 16
  ist : BitVec 3
  attr : BitVec 8
  reserved : BitVec 37
  deriving DecidableEq

/-- The fields of a gate in its two words. -/
def decodeGate (lo hi : BitVec 64) : GateDescriptor where
  offset := hi.extractLsb' 0 32 ++ lo.extractLsb' 48 16 ++ lo.extractLsb' 0 16
  selector := lo.extractLsb' 16 16
  ist := lo.extractLsb' 32 3
  attr := lo.extractLsb' 40 8
  reserved := hi.extractLsb' 32 32 ++ lo.extractLsb' 35 5

/-- A descriptor of a system segment, of 16 bytes. -/
structure SystemDescriptor where
  base : BitVec 64
  limit : BitVec 20
  type : BitVec 8
  flags : BitVec 4
  reserved : BitVec 32
  deriving DecidableEq

/-- The fields of a system descriptor in its two words. -/
def decodeSystem (lo hi : BitVec 64) : SystemDescriptor where
  base := hi.extractLsb' 0 32 ++ lo.extractLsb' 56 8 ++ lo.extractLsb' 16 24
  limit := lo.extractLsb' 48 4 ++ lo.extractLsb' 0 16
  type := lo.extractLsb' 40 8
  flags := lo.extractLsb' 52 4
  reserved := hi.extractLsb' 32 32

/-- The gate at an address. -/
def gateAt (m : Mem) (a : BitVec 64) : GateDescriptor := decodeGate (m.read a) (m.read (a + 8))

/-- The system descriptor at an address. -/
def systemAt (m : Mem) (a : BitVec 64) : SystemDescriptor :=
  decodeSystem (m.read a) (m.read (a + 8))

/-! ## The code -/

/-- `_set_gate`: the two words it stores.  `ist` is the register the argument comes in. -/
def setGateWords (attr : BitVec 8) (ist codeAddr : BitVec 64) : BitVec 64 × BitVec 64 :=
  let rax := 0x8#64 <<< 16
  let rdx := codeAddr
  let rcx := ist
  let rax := movw rdx rax
  let rcx := rcx &&& 0x7#64
  let rcx := rcx + attr.setWidth 64 <<< 8
  let rcx := rcx <<< 32
  let rax := rax + rcx
  let rcx := movl rdx
  let rcx := rcx >>> 16
  let rcx := rcx <<< 48
  let rax := rax + rcx
  (rax, rdx >>> 32)

/-- `_set_gate(gate_selector_addr, attr, ist, code_addr)`. -/
def setGate (m : Mem) (gateSelectorAddr : BitVec 64) (attr : BitVec 8) (ist codeAddr : BitVec 64) :
    Mem :=
  (m.write gateSelectorAddr (setGateWords attr ist codeAddr).1).write (gateSelectorAddr + 8)
    (setGateWords attr ist codeAddr).2

/-- `setup_IDT`: the two words of an entry. -/
def setupIdtWords (ignoreInt : BitVec 64) : BitVec 64 × BitVec 64 :=
  let rdx := ignoreInt
  let rax := 0x8#64 <<< 16
  let rax := movw rdx rax
  let rcx := 0x8e00#64 <<< 32
  let rax := rax + rcx
  let rcx := movl rdx
  let rcx := shrl 16 rcx
  let rcx := rcx <<< 48
  let rax := rax + rcx
  (rax, rdx >>> 32)

/-- `rp_sidt`: the rounds left, the entry and memory. -/
def rpSidt (words : BitVec 64 × BitVec 64) : ℕ → BitVec 64 → Mem → Mem
  | 0, _, m => m
  | rcx + 1, rdi, m =>
    rpSidt words rcx (rdi + 0x10) ((m.write rdi words.1).write (rdi + 8) words.2)

/-- `setup_IDT`. -/
def setupIdt (m : Mem) (idtTable ignoreInt : BitVec 64) : Mem :=
  rpSidt (setupIdtWords ignoreInt) 256 idtTable m

/-- `setup_TSS64`: the two words of the descriptor. -/
def setupTss64Words (tss64Table : BitVec 64) : BitVec 64 × BitVec 64 :=
  let rdx := tss64Table
  let rax := 0x89#64
  let rax := rax <<< 40
  let rcx := movl rdx
  let rcx := shrl 24 rcx
  let rcx := rcx <<< 56
  let rax := rax + rcx
  let rcx := movl rdx
  let rcx := andl 0xffffff rcx
  let rcx := rcx <<< 16
  let rax := rax + rcx
  let rax := rax + 103#64
  (rax, rdx >>> 32)

/-- `setup_TSS64`. -/
def setupTss64 (m : Mem) (gdtTable tss64Table : BitVec 64) : Mem :=
  (m.write (gdtTable + 64) (setupTss64Words tss64Table).1).write (gdtTable + 72)
    (setupTss64Words tss64Table).2

/-! ## The words as numbers -/

theorem toNat_setGateWords (attr : BitVec 8) (ist codeAddr : BitVec 64) :
    (setGateWords attr ist codeAddr).1.toNat =
      codeAddr.toNat % 2 ^ 16 + 2 ^ 16 * 8 + 2 ^ 32 * (ist.toNat % 2 ^ 3 + 2 ^ 8 * attr.toNat) +
        2 ^ 48 * (codeAddr.toNat / 2 ^ 16 % 2 ^ 16) := by
  have hattr := attr.isLt
  have haddr := codeAddr.isLt
  have hlow : (movw codeAddr (0x8#64 <<< 16)).toNat = codeAddr.toNat % 2 ^ 16 + 2 ^ 16 * 8 := by
    rw [toNat_movw, Nat.add_comm]
    rfl
  have hist : (ist &&& 0x7#64).toNat = ist.toNat % 2 ^ 3 := by
    rw [BitVec.toNat_and]
    exact Nat.and_two_pow_sub_one_eq_mod ist.toNat 3
  have hmid : ((ist &&& 0x7#64) + attr.setWidth 64 <<< 8).toNat =
      ist.toNat % 2 ^ 3 + 2 ^ 8 * attr.toNat := by
    have hset : (attr.setWidth 64).toNat = attr.toNat := by
      rw [BitVec.toNat_setWidth]
      omega
    rw [toNat_add_field (by omega) (by omega), hist, hset]
  have hhigh : (movl codeAddr >>> 16).toNat = codeAddr.toNat / 2 ^ 16 % 2 ^ 16 := by
    rw [BitVec.toNat_ushiftRight, Nat.shiftRight_eq_div_pow, toNat_movl]
    omega
  simp only [setGateWords]
  rw [toNat_add_field, toNat_add_field, hlow, hmid, hhigh]
  · omega
  · omega
  · rw [toNat_add_field] <;> omega
  · omega

/-- `setup_IDT` puts the bits of the same gate together. -/
theorem setupIdtWords_eq (ignoreInt : BitVec 64) :
    setupIdtWords ignoreInt = setGateWords 0x8E 0 ignoreInt := by
  have hshift : shrl 16 (movl ignoreInt) = movl ignoreInt >>> 16 := by
    refine BitVec.eq_of_toNat_eq ?_
    rw [toNat_shrl, BitVec.toNat_ushiftRight, Nat.shiftRight_eq_div_pow, toNat_movl]
    omega
  have hattr : (0x8e00#64 : BitVec 64) <<< 32 =
      (((0 : BitVec 64) &&& 0x7#64) + (0x8E : BitVec 8).setWidth 64 <<< 8) <<< 32 := by decide
  simp only [setupIdtWords, setGateWords]
  rw [hshift, hattr]

theorem toNat_setupTss64Words (tss64Table : BitVec 64) :
    (setupTss64Words tss64Table).1.toNat =
      103 + 2 ^ 16 * (tss64Table.toNat % 2 ^ 24) + 2 ^ 40 * 0x89 +
        2 ^ 56 * (tss64Table.toNat / 2 ^ 24 % 2 ^ 8) := by
  have htype : (0x89#64 <<< 40).toNat = 2 ^ 40 * 0x89 := rfl
  have hhigh : (shrl 24 (movl tss64Table)).toNat = tss64Table.toNat / 2 ^ 24 % 2 ^ 8 := by
    rw [toNat_shrl, toNat_movl]
    omega
  have hlow : (andl 0xffffff (movl tss64Table)).toNat = tss64Table.toNat % 2 ^ 24 := by
    have hmask := toNat_andl_mask (n := 24) (by decide) (movl tss64Table)
    rw [toNat_movl] at hmask
    exact hmask.trans (by omega)
  have hlimit : (103#64).toNat = 103 := rfl
  have hshift : (andl 0xffffff (movl tss64Table) <<< 16).toNat =
      2 ^ 16 * (tss64Table.toNat % 2 ^ 24) := by
    rw [BitVec.toNat_shiftLeft, Nat.shiftLeft_eq, hlow]
    omega
  have hbase : (0x89#64 <<< 40 + shrl 24 (movl tss64Table) <<< 56).toNat =
      2 ^ 40 * 0x89 + 2 ^ 56 * (tss64Table.toNat / 2 ^ 24 % 2 ^ 8) := by
    rw [toNat_add_field (by rw [htype]; omega) (by omega), htype, hhigh]
  simp only [setupTss64Words]
  rw [BitVec.toNat_add, BitVec.toNat_add, hbase, hshift, hlimit]
  omega

/-! ## Decoding -/

/-- The fields of the first word of a gate, as numbers. -/
theorem gate_fields {lo low mid ist attr : ℕ}
    (h : lo = low + 2 ^ 16 * 8 + 2 ^ 32 * (ist + 2 ^ 8 * attr) + 2 ^ 48 * mid)
    (hlow : low < 2 ^ 16) (hmid : mid < 2 ^ 16) (hist : ist < 2 ^ 3) (hattr : attr < 2 ^ 8) :
    lo % 2 ^ 16 = low ∧ lo / 2 ^ 16 % 2 ^ 16 = 8 ∧ lo / 2 ^ 32 % 2 ^ 3 = ist ∧
      lo / 2 ^ 35 % 2 ^ 5 = 0 ∧ lo / 2 ^ 40 % 2 ^ 8 = attr ∧ lo / 2 ^ 48 % 2 ^ 16 = mid := by
  refine ⟨?_, ?_, ?_, ?_, ?_, ?_⟩ <;> omega

/-- **What `_set_gate` encodes.** -/
theorem decodeGate_setGateWords (attr : BitVec 8) (ist codeAddr : BitVec 64) :
    decodeGate (setGateWords attr ist codeAddr).1 (setGateWords attr ist codeAddr).2 =
      ⟨codeAddr, 8#16, ist.setWidth 3, attr, 0#37⟩ := by
  obtain ⟨hlow, hselector, hist, hreserved, hattr, hmid⟩ :=
    gate_fields (toNat_setGateWords attr ist codeAddr) (Nat.mod_lt _ (Nat.two_pow_pos 16))
      (Nat.mod_lt _ (Nat.two_pow_pos 16)) (Nat.mod_lt _ (Nat.two_pow_pos 3)) attr.isLt
  have hhigh : (setGateWords attr ist codeAddr).2.toNat = codeAddr.toNat / 2 ^ 16 / 2 ^ 16 := by
    rw [Nat.div_div_eq_div_mul, ← Nat.pow_add, ← Nat.shiftRight_eq_div_pow,
      ← BitVec.toNat_ushiftRight]
    rfl
  have haddr := codeAddr.isLt
  rw [decodeGate, GateDescriptor.mk.injEq]
  refine ⟨?_, ?_, ?_, ?_, ?_⟩ <;> refine BitVec.eq_of_toNat_eq ?_
  · rw [toNat_append, toNat_append, toNat_extractLsb, toNat_extractLsb, toNat_extractLsb, hmid,
      hhigh, Nat.pow_zero, Nat.div_one, Nat.div_one, hlow]
    omega
  · rw [toNat_extractLsb, hselector]
    rfl
  · rw [toNat_extractLsb, hist, BitVec.toNat_setWidth]
  · rw [toNat_extractLsb, hattr]
  · rw [toNat_append, toNat_extractLsb, toNat_extractLsb, hreserved, hhigh,
      Nat.div_eq_of_lt (by omega : codeAddr.toNat / 2 ^ 16 / 2 ^ 16 < 2 ^ 32)]
    rfl

/-- The fields of the first word of the descriptor, as numbers. -/
theorem system_fields {lo low mid : ℕ} (h : lo = 103 + 2 ^ 16 * low + 2 ^ 40 * 0x89 + 2 ^ 56 * mid)
    (hlow : low < 2 ^ 24) (hmid : mid < 2 ^ 8) :
    lo % 2 ^ 16 = 103 ∧ lo / 2 ^ 16 % 2 ^ 24 = low ∧ lo / 2 ^ 40 % 2 ^ 8 = 0x89 ∧
      lo / 2 ^ 48 % 2 ^ 4 = 0 ∧ lo / 2 ^ 52 % 2 ^ 4 = 0 ∧ lo / 2 ^ 56 % 2 ^ 8 = mid := by
  refine ⟨?_, ?_, ?_, ?_, ?_, ?_⟩ <;> omega

/-- **What `setup_TSS64` encodes.** -/
theorem decodeSystem_setupTss64Words (tss64Table : BitVec 64) :
    decodeSystem (setupTss64Words tss64Table).1 (setupTss64Words tss64Table).2 =
      ⟨tss64Table, 103#20, 0x89#8, 0#4, 0#32⟩ := by
  obtain ⟨hlimit, hlow, htype, hlimitHigh, hflags, hmid⟩ :=
    system_fields (toNat_setupTss64Words tss64Table) (Nat.mod_lt _ (Nat.two_pow_pos 24))
      (Nat.mod_lt _ (Nat.two_pow_pos 8))
  have hhigh : (setupTss64Words tss64Table).2.toNat = tss64Table.toNat / 2 ^ 24 / 2 ^ 8 := by
    rw [Nat.div_div_eq_div_mul, ← Nat.pow_add, ← Nat.shiftRight_eq_div_pow,
      ← BitVec.toNat_ushiftRight]
    rfl
  have haddr := tss64Table.isLt
  rw [decodeSystem, SystemDescriptor.mk.injEq]
  refine ⟨?_, ?_, ?_, ?_, ?_⟩ <;> refine BitVec.eq_of_toNat_eq ?_
  · rw [toNat_append, toNat_append, toNat_extractLsb, toNat_extractLsb, toNat_extractLsb, hmid,
      hlow, hhigh, Nat.pow_zero, Nat.div_one]
    omega
  · rw [toNat_append, toNat_extractLsb, toNat_extractLsb, hlimitHigh, Nat.pow_zero, Nat.div_one,
      hlimit]
    rfl
  · rw [toNat_extractLsb, htype]
    rfl
  · rw [toNat_extractLsb, hflags]
    rfl
  · rw [toNat_extractLsb, hhigh,
      Nat.div_eq_of_lt (by omega : tss64Table.toNat / 2 ^ 24 / 2 ^ 8 < 2 ^ 32)]
    rfl

/-! ## In memory -/

variable {m m' : Mem} {A : Block} {a : BitVec 64} {words : BitVec 64 × BitVec 64}

/-- The block of a descriptor. -/
def descriptor (a : BitVec 64) : Block := ⟨a, 16⟩

theorem descriptor_has (a : BitVec 64) :
    (descriptor a).Has a 8 ∧ (descriptor a).Has (a + 8) 8 := by
  unfold descriptor Block.Has
  constructor <;> bv_omega

/-- The two stores of a descriptor. -/
def store (m : Mem) (a : BitVec 64) (words : BitVec 64 × BitVec 64) : Mem :=
  (m.write a words.1).write (a + 8) words.2

theorem within_store : Mem.Within (descriptor a) m (store m a words) :=
  (Mem.within_write (descriptor_has a).1).trans (Mem.within_write (descriptor_has a).2)

theorem read_store (m : Mem) (a : BitVec 64) (words : BitVec 64 × BitVec 64) :
    (store m a words).read a = words.1 ∧ (store m a words).read (a + 8) = words.2 := by
  have hapart : Mem.Apart (a + 8) a := by
    unfold Mem.Apart
    constructor <;> bv_omega
  rw [store]
  exact ⟨(Mem.read_write_of_apart hapart).trans Mem.read_write_self, Mem.read_write_self⟩

/-- A gate apart from what changes. -/
theorem gateAt_within (h : Mem.Within A m m') (hA : (descriptor a).Apart A) :
    gateAt m' a = gateAt m a := by
  rw [gateAt, gateAt, h.read hA (descriptor_has a).1, h.read hA (descriptor_has a).2]

theorem setGate_eq (m : Mem) (a : BitVec 64) (attr : BitVec 8) (ist codeAddr : BitVec 64) :
    setGate m a attr ist codeAddr = store m a (setGateWords attr ist codeAddr) := rfl

theorem gateAt_setGate (m : Mem) (a : BitVec 64) (attr : BitVec 8) (ist codeAddr : BitVec 64) :
    gateAt (setGate m a attr ist codeAddr) a = ⟨codeAddr, 8#16, ist.setWidth 3, attr, 0#37⟩ := by
  have hread := read_store m a (setGateWords attr ist codeAddr)
  rw [← decodeGate_setGateWords, gateAt, setGate_eq, hread.1, hread.2]

theorem systemAt_setupTss64 (m : Mem) (gdtTable tss64Table : BitVec 64) :
    systemAt (setupTss64 m gdtTable tss64Table) (gdtTable + 64) =
      ⟨tss64Table, 103#20, 0x89#8, 0#4, 0#32⟩ := by
  have hread := read_store m (gdtTable + 64) (setupTss64Words tss64Table)
  have hsecond : gdtTable + 64 + 8 = gdtTable + 72 := BitVec.add_assoc gdtTable 64 8
  have hstore : setupTss64 m gdtTable tss64Table =
      store m (gdtTable + 64) (setupTss64Words tss64Table) := by
    rw [setupTss64, store, hsecond]
  rw [← decodeSystem_setupTss64Words, systemAt, hstore, hread.1, hread.2]

theorem rpSidt_succ (n : ℕ) :
    rpSidt words (n + 1) a m = rpSidt words n (a + 0x10) (store m a words) := rfl

/-- `rp_sidt` writes the entries it counts. -/
theorem within_rpSidt {n : ℕ} (hA : A.Has a (16 * n)) : Mem.Within A m (rpSidt words n a m) := by
  induction n generalizing a m with
  | zero => exact Mem.Within.refl A m
  | succ n ih =>
    unfold Block.Has at hA
    refine ((Mem.within_write ?_).trans (Mem.within_write ?_)).trans (ih ?_)
    all_goals
      unfold Block.Has
      bv_omega

/-- **Every entry of the table is the gate.** -/
theorem read_rpSidt (m : Mem) (a : BitVec 64) (words : BitVec 64 × BitVec 64) {n k : ℕ}
    (hn : 16 * n < 2 ^ 64) (hk : k < n) :
    (rpSidt words n a m).read (a + BitVec.ofNat 64 (16 * k)) = words.1 ∧
      (rpSidt words n a m).read (a + BitVec.ofNat 64 (16 * k) + 8) = words.2 := by
  induction n generalizing a m k with
  | zero => exact absurd hk (Nat.not_lt_zero k)
  | succ n ih =>
    cases k with
    | zero =>
      have hrest : Mem.Within ⟨a + 0x10, 16 * n⟩ (store m a words)
          (rpSidt words n (a + 0x10) (store m a words)) :=
        within_rpSidt (Block.has_self _ (Nat.le_refl _))
      have hapart : (descriptor a).Apart ⟨a + 0x10, 16 * n⟩ := by
        unfold descriptor Block.Apart
        simp only
        bv_omega
      have hread := read_store m a words
      rw [rpSidt_succ, Nat.mul_zero, BitVec.add_zero, hrest.read hapart (descriptor_has a).1,
        hrest.read hapart (descriptor_has a).2]
      exact hread
    | succ k =>
      have hnext : a + BitVec.ofNat 64 (16 * (k + 1)) = a + 0x10 + BitVec.ofNat 64 (16 * k) := by
        bv_omega
      rw [rpSidt_succ, hnext]
      exact ih _ _ (by omega) (by omega)

/-- **What the three encoders build.**  Decoded by the layouts of the CPU, a gate of `_set_gate` has
its arguments in the fields and nothing in the reserved bits, `setup_IDT` fills the table with the
same bytes, and the descriptor of `setup_TSS64` is the one of the segment at the address. -/
theorem descriptors_decode :
    (∀ (m : Mem) (a : BitVec 64) (attr : BitVec 8) (ist codeAddr : BitVec 64),
      gateAt (setGate m a attr ist codeAddr) a = ⟨codeAddr, 8#16, ist.setWidth 3, attr, 0#37⟩) ∧
    (∀ (m m' : Mem) (idtTable ignoreInt : BitVec 64) (k : Fin 256),
      let entry := idtTable + BitVec.ofNat 64 (16 * k)
      (setupIdt m idtTable ignoreInt).read entry =
          (setGate m' entry 0x8E 0 ignoreInt).read entry ∧
        (setupIdt m idtTable ignoreInt).read (entry + 8) =
          (setGate m' entry 0x8E 0 ignoreInt).read (entry + 8)) ∧
    ∀ (m : Mem) (gdtTable tss64Table : BitVec 64),
      systemAt (setupTss64 m gdtTable tss64Table) (gdtTable + 64) =
        ⟨tss64Table, 103#20, 0x89#8, 0#4, 0#32⟩ := by
  refine ⟨gateAt_setGate, fun m m' idtTable ignoreInt k => ?_, systemAt_setupTss64⟩
  obtain ⟨hlo, hhi⟩ := read_rpSidt m idtTable (setupIdtWords ignoreInt) (by decide) k.isLt
  have hgate := read_store m' (idtTable + BitVec.ofNat 64 (16 * k)) (setGateWords 0x8E 0 ignoreInt)
  rw [← setupIdtWords_eq] at hgate
  simp only [setGate_eq, ← setupIdtWords_eq]
  exact ⟨hlo.trans hgate.1.symm, hhi.trans hgate.2.symm⟩

/-! ## The table -/

/-- The address of an entry. -/
def idtEntry (idtTable : BitVec 64) (n : ℕ) : BitVec 64 := idtTable + BitVec.ofNat 64 (16 * n)

section Gates

variable (idtTable : BitVec 64) (n : BitVec 32) (ist : BitVec 8) (addr : BitVec 64) (m : Mem)

/-- `set_intr_gate(n, ist, addr)`. -/
def setIntrGate : Mem := setGate m (idtEntry idtTable n.toNat) 0x8E (ist.setWidth 64) addr

/-- `set_trap_gate(n, ist, addr)`. -/
def setTrapGate : Mem := setGate m (idtEntry idtTable n.toNat) 0x8F (ist.setWidth 64) addr

/-- `set_system_gate(n, ist, addr)`. -/
def setSystemGate : Mem := setGate m (idtEntry idtTable n.toNat) 0xEF (ist.setWidth 64) addr

end Gates

section Install

variable (sym : Symbol → BitVec 64) (idtTable : BitVec 64) (m : Mem)

/-- `init_sys_vector()`, with the labels linked at `sym`. -/
def initSysVector : Mem :=
  m
  |> setTrapGate idtTable 0 1 (sym (.handler .divideError))
  |> setTrapGate idtTable 1 1 (sym (.handler .debug))
  |> setIntrGate idtTable 2 1 (sym (.stub .nmi))
  |> setSystemGate idtTable 3 1 (sym (.stub .int3))
  |> setSystemGate idtTable 4 1 (sym (.stub .overflow))
  |> setSystemGate idtTable 5 1 (sym (.stub .bounds))
  |> setTrapGate idtTable 6 1 (sym (.stub .undefinedOpcode))
  |> setTrapGate idtTable 7 1 (sym (.stub .devNotAvailable))
  |> setTrapGate idtTable 8 1 (sym (.stub .doubleFault))
  |> setTrapGate idtTable 9 1 (sym (.stub .coprocessorSegmentOverrun))
  |> setTrapGate idtTable 10 1 (sym (.stub .invalidTss))
  |> setTrapGate idtTable 11 1 (sym (.stub .segmentNotPresent))
  |> setTrapGate idtTable 12 1 (sym (.stub .stackSegmentFault))
  |> setTrapGate idtTable 13 1 (sym (.stub .generalProtection))
  |> setTrapGate idtTable 14 1 (sym (.stub .pageFault))
  |> setTrapGate idtTable 16 1 (sym (.stub .x87FpuError))
  |> setTrapGate idtTable 17 1 (sym (.stub .alignmentCheck))
  |> setTrapGate idtTable 18 1 (sym (.stub .machineCheck))
  |> setTrapGate idtTable 19 1 (sym (.stub .simdException))
  |> setTrapGate idtTable 20 1 (sym (.stub .virtualizationException))

/-- The loop of `init_interrupt()`. -/
def initInterrupt : Mem :=
  (List.range' 0x20 24).foldl
    (fun m i => setIntrGate idtTable (BitVec.ofNat 32 i) 2 (sym (.irqInterrupt i)) m) m

end Install

/-- `IDT_Table`. -/
def idtBlock (idtTable : BitVec 64) : Block := ⟨idtTable, 4096⟩

variable {sym : Symbol → BitVec 64} {m₀ : Mem} {idtTable : BitVec 64} {idt : Idt}

/-- The bytes of the table are the gates of `idt`, with the labels linked at `sym`, and the rest of
memory is as in `m₀`. -/
structure IdtAt (sym : Symbol → BitVec 64) (m₀ m : Mem) (idtTable : BitVec 64) (idt : Idt) :
    Prop where
  gate : ∀ n < 256, gateAt m (idtEntry idtTable n) =
    ⟨sym (idt n).addr, 8#16, (idt n).ist.setWidth 3, (idt n).attr, 0#37⟩
  frame : Mem.Within (idtBlock idtTable) m₀ m

/-- The table `setup_IDT` leaves. -/
theorem idtAt_setupIdt (sym : Symbol → BitVec 64) (m : Mem) (idtTable : BitVec 64) :
    IdtAt sym m (setupIdt m idtTable (sym .ignoreInt)) idtTable Trap.setupIdt where
  gate n hn := by
    obtain ⟨hlo, hhi⟩ := read_rpSidt m idtTable (setupIdtWords (sym .ignoreInt)) (by decide) hn
    have hgate := decodeGate_setGateWords 0x8E 0 (sym .ignoreInt)
    rw [← setupIdtWords_eq] at hgate
    rw [gateAt, idtEntry, setupIdt, hlo, hhi, hgate]
    rfl
  frame := within_rpSidt (Block.has_self _ (Nat.le_refl _))

theorem idtEntry_apart (idtTable : BitVec 64) {n k : ℕ} (hn : n < 256) (hk : k < 256)
    (hne : n ≠ k) :
    (descriptor (idtEntry idtTable n)).Apart (descriptor (idtEntry idtTable k)) := by
  unfold descriptor idtEntry Block.Apart
  simp only
  bv_omega

/-- The stores of a gate stay in the table. -/
theorem within_setGate (m : Mem) {n : ℕ} (hn : n < 256) (attr : BitVec 8)
    (ist codeAddr : BitVec 64) :
    Mem.Within (idtBlock idtTable) m (setGate m (idtEntry idtTable n) attr ist codeAddr) := by
  refine (Mem.within_write ?_).trans (Mem.within_write ?_)
  all_goals
    unfold idtBlock idtEntry Block.Has
    bv_omega

/-- **A gate set in memory is one set in the table.** -/
theorem IdtAt.setGate (h : IdtAt sym m₀ m idtTable idt) {n : ℕ} (hn : n < 256) (g : Gate) :
    IdtAt sym m₀ (setGate m (idtEntry idtTable n) g.attr (g.ist.setWidth 64) (sym g.addr)) idtTable
      (Function.update idt n g) where
  gate k hk := by
    by_cases hkn : k = n
    · subst hkn
      have hist : (g.ist.setWidth 64).setWidth 3 = g.ist.setWidth 3 := by
        rw [BitVec.setWidth_setWidth_of_le g.ist (by decide)]
      rw [Function.update_self, gateAt_setGate, hist]
    · rw [Function.update_of_ne hkn, setGate_eq,
        gateAt_within within_store (idtEntry_apart idtTable hk hn hkn)]
      exact h.gate k hk
  frame := h.frame.trans (within_setGate m hn g.attr (g.ist.setWidth 64) (sym g.addr))

section Steps

variable {n : BitVec 32} {ist : BitVec 8} {addr : Symbol}

theorem IdtAt.setIntrGate (h : IdtAt sym m₀ m idtTable idt) (hn : n.toNat < 256) :
    IdtAt sym m₀ (setIntrGate idtTable n ist (sym addr) m) idtTable
      (Trap.setIntrGate n.toNat ist addr idt) := h.setGate hn ⟨0x8E, ist, addr⟩

theorem IdtAt.setTrapGate (h : IdtAt sym m₀ m idtTable idt) (hn : n.toNat < 256) :
    IdtAt sym m₀ (setTrapGate idtTable n ist (sym addr) m) idtTable
      (Trap.setTrapGate n.toNat ist addr idt) := h.setGate hn ⟨0x8F, ist, addr⟩

theorem IdtAt.setSystemGate (h : IdtAt sym m₀ m idtTable idt) (hn : n.toNat < 256) :
    IdtAt sym m₀ (setSystemGate idtTable n ist (sym addr) m) idtTable
      (Trap.setSystemGate n.toNat ist addr idt) := h.setGate hn ⟨0xEF, ist, addr⟩

/-- One step for each call. -/
theorem IdtAt.initSysVector (h : IdtAt sym m₀ m idtTable idt) :
    IdtAt sym m₀ (initSysVector sym idtTable m) idtTable (Trap.initSysVector idt) := by
  unfold Descriptors.initSysVector
  -- from the last call back
  iterate 14 refine IdtAt.setTrapGate ?_ (by decide)
  iterate 3 refine IdtAt.setSystemGate ?_ (by decide)
  refine IdtAt.setIntrGate ?_ (by decide)
  iterate 2 refine IdtAt.setTrapGate ?_ (by decide)
  exact h

/-- The loop writes the entries from `0x20` on. -/
theorem IdtAt.initInterrupt (h : IdtAt sym m₀ m idtTable idt) :
    IdtAt sym m₀ (initInterrupt sym idtTable m) idtTable (Trap.initInterrupt idt) := by
  have hloop : ∀ is : List ℕ, (∀ i ∈ is, i < 256) → ∀ {m : Mem} {idt : Idt},
      IdtAt sym m₀ m idtTable idt →
      IdtAt sym m₀ (is.foldl (fun m i => Descriptors.setIntrGate idtTable (BitVec.ofNat 32 i) 2
        (sym (.irqInterrupt i)) m) m) idtTable
        (is.foldl (fun idt i => Trap.setIntrGate i 2 (.irqInterrupt i) idt) idt) := by
    intro is
    induction is with
    | nil => exact fun _ _ _ h => h
    | cons i is ih =>
      intro his m idt h
      obtain ⟨hi, his⟩ := List.forall_mem_cons.mp his
      have hn : (BitVec.ofNat 32 i).toNat = i := by
        rw [BitVec.toNat_ofNat]
        omega
      have hset : IdtAt sym m₀
          (Descriptors.setIntrGate idtTable (BitVec.ofNat 32 i) 2 (sym (.irqInterrupt i)) m)
          idtTable
          (Trap.setIntrGate (BitVec.ofNat 32 i).toNat 2 (.irqInterrupt i) idt) :=
        h.setIntrGate (by omega)
      rw [hn] at hset
      exact ih his hset
  exact hloop _ (by decide) h

end Steps

/-- The memory that `setup_IDT`, `init_sys_vector` and `init_interrupt` leave. -/
def installed (sym : Symbol → BitVec 64) (idtTable : BitVec 64) (m : Mem) : Mem :=
  initInterrupt sym idtTable (initSysVector sym idtTable (setupIdt m idtTable (sym .ignoreInt)))

/-- **The table in memory** is `kernelIdt`. -/
theorem idtAt_kernelIdt (sym : Symbol → BitVec 64) (m : Mem) (idtTable : BitVec 64) :
    IdtAt sym m (installed sym idtTable m) idtTable kernelIdt :=
  (idtAt_setupIdt sym m idtTable).initSysVector.initInterrupt

/-- The attribute byte of an exception's gate: programs may raise `int3`, `overflow` and `bounds`,
and `nmi` disables interrupts. -/
def faultAttr : Fault → BitVec 8
  | .nmi => 0x8E
  | .int3 => 0xEF
  | .overflow => 0xEF
  | .bounds => 0xEF
  | _ => 0x8F

theorem kernelIdt_fault (e : Fault) :
    kernelIdt e.vector =
      ⟨faultAttr e, 1, if e = .divideError ∨ e = .debug then .handler e else .stub e⟩ := by
  cases e <;> decide +kernel

theorem kernelIdt_other : ∀ n < 256, n ∉ sysVectors → n ∉ irqVectors →
    kernelIdt n = ⟨0x8E, 0, .ignoreInt⟩ := by
  decide +kernel

/-- **The gates that the CPU finds.**  Whatever was in memory before, and wherever the table and the
entry points are linked: an exception goes to its stub, the first two to the C functions themselves,
on stack slot 1; an interrupt request goes to its stub with interrupts off, on slot 2; any other
vector goes to `ignore_int`; no gate has a reserved bit set, and no byte outside the table has
changed. -/
theorem idt_installed (sym : Symbol → BitVec 64) (m : Mem) (idtTable : BitVec 64) :
    (∀ e : Fault, gateAt (installed sym idtTable m) (idtEntry idtTable e.vector) =
      ⟨sym (if e = .divideError ∨ e = .debug then .handler e else .stub e), 8#16, 1#3,
        faultAttr e, 0#37⟩) ∧
    (∀ v ∈ irqVectors, gateAt (installed sym idtTable m) (idtEntry idtTable v) =
      ⟨sym (.irqInterrupt v), 8#16, 2#3, 0x8E#8, 0#37⟩) ∧
    (∀ n < 256, n ∉ sysVectors → n ∉ irqVectors →
      gateAt (installed sym idtTable m) (idtEntry idtTable n) =
        ⟨sym .ignoreInt, 8#16, 0#3, 0x8E#8, 0#37⟩) ∧
    Mem.Within (idtBlock idtTable) m (installed sym idtTable m) := by
  have h := idtAt_kernelIdt sym m idtTable
  refine ⟨fun e => ?_, fun v hv => ?_, fun n hn hsys hirq => ?_, h.frame⟩
  · have hvector : e.vector < 256 := by cases e <;> decide
    rw [h.gate _ hvector, kernelIdt_fault]
    rfl
  · have hirqs : ∀ v ∈ irqVectors, v < 256 ∧ kernelIdt v = ⟨0x8E, 2, .irqInterrupt v⟩ := by
      decide +kernel
    obtain ⟨hlt, hgate⟩ := hirqs v hv
    rw [h.gate v hlt, hgate]
    rfl
  · rw [h.gate n hn, kernelIdt_other n hn hsys hirq]
    rfl

end Descriptors
end Trap
end OSLib
