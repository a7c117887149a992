import Mathlib.Data.BitVec
import OSLib.Foundation.Emits
import OSLib.Foundation.Words

/-!
# The string instructions

The fragment of x86-64 that C string functions are written in: moves, stores, loads, scans and
compares of bytes at `rsi` and `rdi`, the repeat prefixes, and the few arithmetic instructions and
jumps between them.  A text is a list of instructions with its labels in place, and the program
counter is a position in it; a prefixed instruction makes one round at a time and stays where it is.

Of the flags, those that a conditional jump of the fragment reads are kept.  A machine may be given
the blocks it can read: it stops where it would read anything else (`stepIn`), so a run of it says
where the program reads.

The rounds of a prefixed instruction are separate steps, because the processor can be interrupted
between them and because a program that reads out of bounds does it in some round and not in the
whole instruction.  `stepIn` is the same machine with a condition on the reads, and every run of it
is a run of the plain one, so a bound on what is read is shown by making the run there.

Operands have the sizes the texts use.  Faults of the memory are not modelled apart from that bound.
-/

namespace OSLib

/-! ## Blocks of bytes -/

namespace Mem

variable {m : Mem} {src dst a : BitVec 64} {k n : ℕ} {c : BitVec 8}

/-- The first `n` bytes of a block moved to another. -/
def moveBytes (m : Mem) (src dst : BitVec 64) (n : ℕ) : Mem := fun a =>
  if (a - dst).toNat < n then m (src + (a - dst)) else m a

/-- The low `n` bytes of a word stored. -/
def storeBytes (m : Mem) (dst : BitVec 64) (n : ℕ) (v : BitVec 64) : Mem := fun a =>
  if (a - dst).toNat < n then Bytes.byteOf v (a - dst).toNat else m a

/-- A block set to one byte. -/
def setBytes (m : Mem) (dst : BitVec 64) (n : ℕ) (c : BitVec 8) : Mem := fun a =>
  if (a - dst).toNat < n then c else m a

@[simp] theorem moveBytes_zero (m : Mem) (src dst : BitVec 64) : m.moveBytes src dst 0 = m :=
  funext fun _ => if_neg (Nat.not_lt_zero _)

@[simp] theorem setBytes_zero (m : Mem) (dst : BitVec 64) (c : BitVec 8) :
    m.setBytes dst 0 c = m := funext fun _ => if_neg (Nat.not_lt_zero _)

/-- A store of one byte over and over is the block set to it. -/
theorem storeBytes_eq_setBytes {v : BitVec 64} (h : ∀ o < n, Bytes.byteOf v o = c) :
    m.storeBytes dst n v = m.setBytes dst n c := by
  funext a
  rw [storeBytes, setBytes]
  exact ite_congr rfl (fun ho => h _ ho) fun _ => rfl

/-- Bytes at an offset from an offset. -/
theorem add_ofNat_add (a : BitVec 64) (k n : ℕ) :
    a + BitVec.ofNat 64 k + BitVec.ofNat 64 n = a + BitVec.ofNat 64 (k + n) := by
  rw [BitVec.ofNat_add, BitVec.add_assoc]

theorem add_ofNat_zero (a : BitVec 64) : a + BitVec.ofNat 64 0 = a := BitVec.add_zero a

theorem add_ofNat_succ (a : BitVec 64) (k : ℕ) :
    a + BitVec.ofNat 64 (k + 1) = a + 1 + BitVec.ofNat 64 k := by
  rw [Nat.add_comm]
  exact (add_ofNat_add a 1 k).symm

/-- Where an address lies behind the first `k` bytes. -/
theorem toNat_sub_add (a dst : BitVec 64) (hk : k < 2 ^ 64) :
    (a - (dst + BitVec.ofNat 64 k)).toNat =
      if k ≤ (a - dst).toNat then (a - dst).toNat - k else (a - dst).toNat + 2 ^ 64 - k := by
  have hsub : a - (dst + BitVec.ofNat 64 k) = a - dst - BitVec.ofNat 64 k := by ring
  have hd := (a - dst).isLt
  rw [hsub, BitVec.toNat_sub, BitVec.toNat_ofNat, Nat.mod_eq_of_lt hk]
  split <;> omega

/-- **Moving a block in two parts**, if the first part overwrites nothing of the second before that
is read. -/
theorem moveBytes_add (hkn : k + n ≤ 2 ^ 64)
    (hsrc : ∀ j < n, k ≤ (src + BitVec.ofNat 64 (k + j) - dst).toNat) :
    (m.moveBytes src dst k).moveBytes (src + BitVec.ofNat 64 k) (dst + BitVec.ofNat 64 k) n =
      m.moveBytes src dst (k + n) := by
  rcases Nat.eq_zero_or_pos n with rfl | hn
  · rw [moveBytes_zero, Nat.add_zero]
  funext a
  have hd := (a - dst).isLt
  have haddr : src + BitVec.ofNat 64 k + (a - (dst + BitVec.ofNat 64 k)) = src + (a - dst) := by
    ring
  rw [moveBytes, haddr, toNat_sub_add a dst (by omega)]
  by_cases hlow : (a - dst).toNat < k
  · rw [if_neg (by omega : ¬ k ≤ (a - dst).toNat), if_neg (by omega), moveBytes, if_pos hlow,
      moveBytes, if_pos (by omega)]
  · rw [if_pos (by omega : k ≤ (a - dst).toNat)]
    by_cases hhigh : (a - dst).toNat < k + n
    · have hofNat : a - dst = BitVec.ofNat 64 (k + ((a - dst).toNat - k)) := by
        rw [Nat.add_sub_cancel' (by omega), BitVec.ofNat_toNat, BitVec.setWidth_eq]
      have hread := hsrc ((a - dst).toNat - k) (by omega)
      rw [← hofNat] at hread
      rw [if_pos (by omega), moveBytes, if_neg (by omega), moveBytes, if_pos hhigh]
    · rw [if_neg (by omega), moveBytes, if_neg hlow, moveBytes, if_neg hhigh]

/-- **Setting a block in two parts.** -/
theorem setBytes_add (hkn : k + n ≤ 2 ^ 64) :
    (m.setBytes dst k c).setBytes (dst + BitVec.ofNat 64 k) n c = m.setBytes dst (k + n) c := by
  rcases Nat.eq_zero_or_pos n with rfl | hn
  · rw [setBytes_zero, Nat.add_zero]
  funext a
  have hd := (a - dst).isLt
  rw [setBytes, toNat_sub_add a dst (by omega)]
  by_cases hlow : (a - dst).toNat < k
  · rw [if_neg (by omega : ¬ k ≤ (a - dst).toNat), if_neg (by omega), setBytes, if_pos hlow,
      setBytes, if_pos (by omega)]
  · rw [if_pos (by omega : k ≤ (a - dst).toNat)]
    by_cases hhigh : (a - dst).toNat < k + n
    · rw [if_pos (by omega), setBytes, if_pos hhigh]
    · rw [if_neg (by omega), setBytes, if_neg hlow, setBytes, if_neg hhigh]

/-- A block is changed to these bytes, and no other byte is changed. -/
structure Writes (m : Mem) (dst : BitVec 64) (n : ℕ) (f : ℕ → BitVec 8) (m' : Mem) : Prop where
  block : ∀ i < n, m' (dst + BitVec.ofNat 64 i) = f i
  others : ∀ a, (∀ i < n, a ≠ dst + BitVec.ofNat 64 i) → m' a = m a

theorem toNat_add_sub (a : BitVec 64) (hk : k < 2 ^ 64) :
    (a + BitVec.ofNat 64 k - a).toNat = k := by
  have hsub : a + BitVec.ofNat 64 k - a = BitVec.ofNat 64 k := by ring
  rw [hsub, BitVec.toNat_ofNat, Nat.mod_eq_of_lt hk]

theorem add_toNat_sub (a dst : BitVec 64) : dst + BitVec.ofNat 64 (a - dst).toNat = a := by
  rw [BitVec.ofNat_toNat, BitVec.setWidth_eq]
  ring

/-- An address outside the block. -/
theorem le_toNat_sub (h : ∀ i < n, a ≠ dst + BitVec.ofNat 64 i) : n ≤ (a - dst).toNat :=
  Nat.le_of_not_lt fun hlt => h _ hlt (add_toNat_sub a dst).symm

theorem writes_moveBytes (m : Mem) (src dst : BitVec 64) (hn : n ≤ 2 ^ 64) :
    Writes m dst n (fun i => m (src + BitVec.ofNat 64 i)) (m.moveBytes src dst n) := by
  refine ⟨fun i hi => ?_, fun a ha => if_neg (Nat.not_lt.mpr (le_toNat_sub ha))⟩
  have hback : dst + BitVec.ofNat 64 i - dst = BitVec.ofNat 64 i := by ring
  rw [moveBytes, toNat_add_sub dst (by omega), if_pos hi, hback]

theorem writes_setBytes (m : Mem) (dst : BitVec 64) (c : BitVec 8) (hn : n ≤ 2 ^ 64) :
    Writes m dst n (fun _ => c) (m.setBytes dst n c) := by
  refine ⟨fun i hi => ?_, fun a ha => if_neg (Nat.not_lt.mpr (le_toNat_sub ha))⟩
  rw [setBytes, toNat_add_sub dst (by omega), if_pos hi]

/-- One block behind another. -/
theorem Writes.append {m' m'' : Mem} {f g h : ℕ → BitVec 8} (hm : Writes m dst k f m')
    (hm' : Writes m' (dst + BitVec.ofNat 64 k) n g m'') (hkn : k + n ≤ 2 ^ 64)
    (hf : ∀ i < k, h i = f i) (hg : ∀ i < n, h (k + i) = g i) : Writes m dst (k + n) h m'' := by
  constructor
  · intro i hi
    by_cases hlow : i < k
    · rw [hm'.others, hm.block i hlow, hf i hlow]
      intro j hj heq
      rw [add_ofNat_add] at heq
      have hsub : (dst + BitVec.ofNat 64 i - dst).toNat =
          (dst + BitVec.ofNat 64 (k + j) - dst).toNat := by rw [heq]
      rw [toNat_add_sub dst (by omega), toNat_add_sub dst (by omega)] at hsub
      omega
    · obtain ⟨j, rfl⟩ := Nat.exists_eq_add_of_le (Nat.le_of_not_lt hlow)
      rw [← add_ofNat_add, hm'.block j (by omega), hg j (by omega)]
  · intro b hb
    rw [hm'.others, hm.others]
    · exact fun i hi => hb i (by omega)
    · intro i hi
      rw [add_ofNat_add]
      exact hb (k + i) (by omega)

end Mem

/-! ## The machine -/

namespace StringOps

/-- The registers and flags of the fragment, and memory. -/
structure Cpu where
  rax : BitVec 64
  rcx : BitVec 64
  rdx : BitVec 64
  rsi : BitVec 64
  rdi : BitVec 64
  zf : Bool
  sf : Bool
  of : Bool
  df : Bool
  mem : Mem

/-- The string instructions; `movs` and `stos` come for 1, 2, 4 and 8 bytes. -/
inductive StringInstr where
  | movs (n : ℕ)
  | stos (n : ℕ)
  | lodsb
  | scasb
  | cmpsb
  deriving DecidableEq

/-- The conditions of jumps: `je`, `jne`, `jl` and `js`. -/
inductive Cond where
  | e | ne | l | s
  deriving DecidableEq

/-- The instructions, and the labels.  Where a register is fixed it is part of the name: `testDl` is
`testb $v, %dl`, and `testAl` is `testb %al, %al`. -/
inductive Instr where
  | cld
  | string (i : StringInstr)
  | rep (i : StringInstr)
  | repe (i : StringInstr)
  | repne (i : StringInstr)
  | testDl (v : BitVec 8)
  | testAl
  | movEax (v : BitVec 32)
  | xorEax
  | negEax
  | notEcx
  | decEcx
  | decRcx
  | decRdi
  | jcc (c : Cond) (l : ℕ)
  | jmp (l : ℕ)
  | label (l : ℕ)
  deriving DecidableEq

namespace Cpu

variable (s : Cpu)

/-- `al`. -/
def al : BitVec 8 := s.rax.setWidth 8

/-- `eax`. -/
def eax : BitVec 32 := s.rax.setWidth 32

/-- The flags after a subtraction. -/
def subFlags {w : ℕ} (x y : BitVec w) : Cpu :=
  { s with
    zf := x = y
    sf := (x - y).msb
    of := x.msb ≠ y.msb ∧ (x - y).msb ≠ x.msb }

/-- The flags after a logical operation with this result. -/
def logicFlags {w : ℕ} (r : BitVec w) : Cpu :=
  { s with
    zf := r = 0
    sf := r.msb
    of := false }

/-- How far `rsi` and `rdi` move. -/
def delta (n : ℕ) : BitVec 64 := if s.df then -BitVec.ofNat 64 n else BitVec.ofNat 64 n

/-- A string instruction. -/
def string : StringInstr → Cpu
  | .movs n =>
    { s with
      mem := s.mem.moveBytes s.rsi s.rdi n
      rsi := s.rsi + s.delta n
      rdi := s.rdi + s.delta n }
  | .stos n => { s with mem := s.mem.storeBytes s.rdi n s.rax, rdi := s.rdi + s.delta n }
  | .lodsb =>
    { s with rax := s.rax.extractLsb' 8 56 ++ s.mem s.rsi, rsi := s.rsi + s.delta 1 }
  | .scasb => { s.subFlags s.al (s.mem s.rdi) with rdi := s.rdi + s.delta 1 }
  | .cmpsb =>
    { s.subFlags (s.mem s.rsi) (s.mem s.rdi) with
      rsi := s.rsi + s.delta 1
      rdi := s.rdi + s.delta 1 }

/-- One round of a repeat prefix. -/
def round (i : StringInstr) : Cpu := { s.string i with rcx := s.rcx - 1 }

/-- What a string instruction reads. -/
def reads : StringInstr → List Block
  | .movs n => [⟨s.rsi, n⟩]
  | .stos _ => []
  | .lodsb => [⟨s.rsi, 1⟩]
  | .scasb => [⟨s.rdi, 1⟩]
  | .cmpsb => [⟨s.rsi, 1⟩, ⟨s.rdi, 1⟩]

/-- A condition. -/
def holds : Cond → Bool
  | .e => s.zf
  | .ne => !s.zf
  | .l => s.sf != s.of
  | .s => s.sf

end Cpu

/-- A text. -/
abbrev Code := List Instr

namespace Code

variable (text : Code)

/-- Where a label is. -/
def target (l : ℕ) : ℕ := text.idxOf (.label l)

/-- An instruction at a position. -/
def exec (pc : ℕ) (s : Cpu) : Instr → ℕ × Cpu
  | .cld => (pc + 1, { s with df := false })
  | .string i => (pc + 1, s.string i)
  | .rep i => if s.rcx = 0 then (pc + 1, s) else (pc, s.round i)
  | .repe i =>
    if s.rcx = 0 then (pc + 1, s) else (if (s.round i).zf then pc else pc + 1, s.round i)
  | .repne i =>
    if s.rcx = 0 then (pc + 1, s) else (if (s.round i).zf then pc + 1 else pc, s.round i)
  | .testDl v => (pc + 1, s.logicFlags (s.rdx.setWidth 8 &&& v))
  | .testAl => (pc + 1, s.logicFlags s.al)
  | .movEax v => (pc + 1, { s with rax := v.setWidth 64 })
  | .xorEax => (pc + 1, { s.logicFlags (0 : BitVec 32) with rax := 0 })
  | .negEax => (pc + 1, { s.subFlags 0 s.eax with rax := (-s.eax).setWidth 64 })
  | .notEcx => (pc + 1, { s with rcx := (~~~s.rcx.setWidth 32).setWidth 64 })
  | .decEcx =>
    (pc + 1, { s.subFlags (s.rcx.setWidth 32) 1 with rcx := (s.rcx.setWidth 32 - 1).setWidth 64 })
  | .decRcx => (pc + 1, { s.subFlags s.rcx 1 with rcx := s.rcx - 1 })
  | .decRdi => (pc + 1, { s.subFlags s.rdi 1 with rdi := s.rdi - 1 })
  | .jcc c l => (if s.holds c then text.target l else pc + 1, s)
  | .jmp l => (text.target l, s)
  | .label _ => (pc + 1, s)

/-- One step; the text ends behind its last instruction. -/
def step (x : ℕ × Cpu) : Option (ℕ × Cpu) := text[x.1]?.map (text.exec x.1 x.2)

/-- What an instruction reads. -/
def reads (s : Cpu) : Instr → List Block
  | .string i => s.reads i
  | .rep i | .repe i | .repne i => if s.rcx = 0 then [] else s.reads i
  | _ => []

/-- One step on a machine that can read these blocks only. -/
def stepIn (readable : List Block) (x : ℕ × Cpu) : Option (ℕ × Cpu) :=
  text[x.1]?.bind fun i =>
    if ∀ B ∈ reads x.2 i, ∃ A ∈ readable, A.Has B.addr B.size then some (text.exec x.1 x.2 i)
    else none

variable {text} {readable : List Block} {pc : ℕ} {s : Cpu} {i : Instr} {j : StringInstr}
  {x y : ℕ × Cpu}

/-! ## Steps -/

theorem step_eq (h : text[pc]? = some i) : text.step (pc, s) = some (text.exec pc s i) :=
  congrArg (Option.map _) h

/-- What is read is in the blocks. -/
theorem stepIn_eq (h : text[pc]? = some i)
    (hreads : ∀ B ∈ reads s i, ∃ A ∈ readable, A.Has B.addr B.size) :
    text.stepIn readable (pc, s) = some (text.exec pc s i) := by
  rw [stepIn, h]
  exact if_pos hreads

/-- A machine that reads everywhere makes the same steps. -/
theorem step_of_stepIn (h : text.stepIn readable x = some y) : text.step x = some y := by
  obtain ⟨i, hi, hif⟩ := Option.bind_eq_some_iff.mp h
  rw [Option.ite_none_right_eq_some] at hif
  rw [← hif.2, step, hi]
  rfl

/-- An instruction that reads nothing. -/
theorem stepIn_of_reads_nil (h : text[pc]? = some i) (hreads : reads s i = []) :
    text.stepIn readable (pc, s) = some (text.exec pc s i) :=
  stepIn_eq h fun _ hB => absurd (hreads ▸ hB) List.not_mem_nil

/-- A run that reads in the blocks is a run. -/
theorem arrives_of_stepIn (h : Arrives (text.stepIn readable) x y) : Arrives text.step x y :=
  Emits.mono (fun _ _ => step_of_stepIn) h

/-- **The rule for `rep`.**  An invariant indexed by the rounds made holds at its end. -/
theorem arrives_rep {I : ℕ → Cpu → Prop} {n : ℕ} (hcode : text[pc]? = some (.rep j)) (h0 : I 0 s)
    (hn : s.rcx.toNat = n) (hround : ∀ k t, k < n → I k t → I (k + 1) (t.round j)) :
    ∃ t, Arrives text.step (pc, s) (pc + 1, t) ∧ I n t ∧ t.rcx = 0 := by
  suffices h : ∀ r k s, k + r = n → I k s → s.rcx.toNat = r →
      ∃ t, Arrives text.step (pc, s) (pc + 1, t) ∧ I n t ∧ t.rcx = 0 from
    h n 0 s (Nat.zero_add n) h0 hn
  intro r
  induction r with
  | zero =>
    intro k s hk hI hrcx
    have hzero : s.rcx = 0 := BitVec.eq_of_toNat_eq hrcx
    obtain rfl : k = n := hk
    refine ⟨s, Emits.silent ((step_eq hcode).trans ?_) rfl, hI, hzero⟩
    rw [exec, if_pos hzero]
  | succ r ih =>
    intro k s hk hI hrcx
    have hne : s.rcx ≠ 0 := by
      rintro hzero
      rw [hzero] at hrcx
      exact absurd hrcx (by simp)
    have hrcx' : (s.round j).rcx.toNat = r := by
      show (s.rcx - 1).toNat = r
      bv_omega
    obtain ⟨t, ht, hIt, hzero⟩ := ih (k + 1) (s.round j) (by omega) (hround k s (by omega) hI) hrcx'
    refine ⟨t, (Emits.silent ((step_eq hcode).trans ?_) rfl).trans ht, hIt, hzero⟩
    rw [exec, if_neg hne]

end Code

/-! ## Comparisons -/

theorem Cpu.holds_ne_subFlags {w : ℕ} (s : Cpu) (x y : BitVec w) :
    (s.subFlags x y).holds .ne = decide (x ≠ y) := by
  show (!decide (x = y)) = _
  rw [decide_not]

/-- `jl` after a comparison of bytes is the signed order. -/
theorem Cpu.holds_l_subFlags (s : Cpu) (x y : BitVec 8) :
    (s.subFlags x y).holds .l = decide (x.toInt < y.toInt) := by
  have hx := x.isLt
  have hy := y.isLt
  have hmsb (z : BitVec 8) : z.msb = decide (128 ≤ z.toNat) := BitVec.msb_eq_decide z
  show ((x - y).msb != decide (x.msb ≠ y.msb ∧ (x - y).msb ≠ x.msb)) = _
  rw [hmsb, hmsb, hmsb, BitVec.toInt_eq_toNat_cond, BitVec.toInt_eq_toNat_cond, BitVec.toNat_sub]
  -- the signs of the two bytes and of their difference
  by_cases h1 : 128 ≤ x.toNat <;> by_cases h2 : 128 ≤ y.toNat <;>
    by_cases h3 : 128 ≤ (2 ^ 8 - y.toNat + x.toNat) % 2 ^ 8 <;>
    simp only [h1, h2, h3] <;> simp <;> omega

end StringOps
end OSLib
