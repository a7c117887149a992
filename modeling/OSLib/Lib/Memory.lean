import OSLib.Foundation.StringOps

/-!
# `lib.h`: `memcpy`, `memset`, `memcmp`

The three functions are a few instructions of assembly each.  `memcpy` and `memset` are the same
text about another string instruction: it makes as many rounds of eight bytes as fit, and then one
of four, two and one bytes for each of the low bits of the count that is set.  So what a part of a
block is, moved or set, is an invariant indexed by the bytes done, and the two differ in nothing
else (`wordwise_arrives`).

Running forward in steps of eight, four, two and one bytes is right for blocks that share no byte,
and that is all `memcpy` asks.  The count is a full word.  A block may lie across the end of the
address space, since addresses wrap around and the copy does not compare any.

`memcmp` is one `repe cmpsb` with a test behind it, and the test reads flags that the comparison has
not set if there was none.

`Does op num I` is what is asked of a string instruction for the common text: it moves an invariant
`I` from one number of bytes done to a greater one.  `Copied` and `IsSet` are the two invariants,
and both are about memory as a whole, so that the frame comes with them.
-/

namespace OSLib
namespace Lib

open StringOps StringOps.Code

/-! ## Words and the rest -/

/-- The text of `memcpy` and `memset`. -/
def wordwise (op : ℕ → StringInstr) : Code :=
  [.cld, .rep (op 8), .testDl 4, .jcc .e 1, .string (op 4), .label 1, .testDl 2, .jcc .e 2,
    .string (op 2), .label 2, .testDl 1, .jcc .e 3, .string (op 1), .label 3]

/-- The assembly of `memcpy`. -/
def memcpyText : Code := wordwise .movs

/-- The assembly of `memset`. -/
def memsetText : Code := wordwise .stos

/-- The registers `memcpy(Dst, Src, Num)` loads. -/
structure MemcpyArgs (dst src num : BitVec 64) (s : Cpu) : Prop where
  rcx : s.rcx = num / 8
  rdx : s.rdx = num
  rsi : s.rsi = src
  rdi : s.rdi = dst

/-- The registers `memset(Address, C, Count)` loads. -/
structure MemsetArgs (address : BitVec 64) (c : BitVec 8) (count : BitVec 64) (s : Cpu) : Prop where
  rax : s.rax = c.setWidth 64 * 0x0101010101010101#64
  rcx : s.rcx = count / 8
  rdx : s.rdx = count
  rdi : s.rdi = address

variable {op : ℕ → StringInstr} {I : ℕ → Cpu → Prop} {num : BitVec 64} {s : Cpu} {n k : ℕ}

/-- What a property of the bytes done has to satisfy: it is about `rsi`, `rdi`, `rax`, the direction
flag and memory, and a string instruction does the bytes of its width. -/
structure Does (op : ℕ → StringInstr) (num : ℕ) (I : ℕ → Cpu → Prop) : Prop where
  rcx : ∀ k s v, I k s → I k { s with rcx := v }
  flags : ∀ k s (r : BitVec 8), I k s → I k (s.logicFlags r)
  string : ∀ n k s, 0 < n → n ≤ 8 → k + n ≤ num → I k s → I (k + n) (s.string (op n))

@[simp] theorem rdx_string (s : Cpu) (j : StringInstr) : (s.string j).rdx = s.rdx := by
  cases j <;> rfl

/-- A bit of the low byte. -/
theorem and_twoPow_eq_zero_iff (x : BitVec 64) (hk : k < 8) :
    x.setWidth 8 &&& BitVec.twoPow 8 k = 0 ↔ x.toNat / 2 ^ k % 2 = 0 := by
  have hbit : (x.setWidth 8).getLsbD k = decide (x.toNat / 2 ^ k % 2 = 1) := by
    rw [BitVec.getLsbD_setWidth, decide_eq_true hk, Bool.true_and, BitVec.getLsbD,
      Nat.testBit_eq_decide_div_mod_eq]
  rw [BitVec.and_twoPow, hbit]
  by_cases h : x.toNat / 2 ^ k % 2 = 1
  · rw [decide_eq_true h, if_pos rfl]
    refine iff_of_false (fun hzero => ?_) (by omega)
    have hget := congrArg (fun z => z.getLsbD k) hzero
    simp [hk] at hget
  · rw [decide_eq_false h, if_neg Bool.false_ne_true]
    exact iff_of_true rfl (by omega)

/-- **One bit of the count.** -/
theorem tail_arrives (text : Code) (pc l b : ℕ) (hb : b < 3)
    (htest : text[pc]? = some (.testDl (BitVec.twoPow 8 b)))
    (hje : text[pc + 1]? = some (.jcc .e l))
    (hop : text[pc + 2]? = some (.string (op (2 ^ b)))) (htarget : text.target l = pc + 3)
    (hlabel : text[pc + 3]? = some (.label l)) (hI : Does op num.toNat I)
    (hk : k + num.toNat / 2 ^ b % 2 * 2 ^ b ≤ num.toNat) (h : I k s) (hrdx : s.rdx = num) :
    ∃ t, Arrives text.step (pc, s) (pc + 4, t) ∧ I (k + num.toNat / 2 ^ b % 2 * 2 ^ b) t ∧
      t.rdx = num := by
  set t := s.logicFlags (s.rdx.setWidth 8 &&& BitVec.twoPow 8 b) with ht
  have hflags : t.holds .e = decide (num.toNat / 2 ^ b % 2 = 0) := by
    show decide (s.rdx.setWidth 8 &&& BitVec.twoPow 8 b = 0) = _
    rw [hrdx]
    exact decide_eq_decide.mpr (and_twoPow_eq_zero_iff num (by omega))
  have hIt : I k t := hI.flags k s _ h
  have hrun : Arrives text.step (pc, s) (pc + 1, t) := Emits.silent (step_eq htest) rfl
  have hend (u : Cpu) : Arrives text.step (pc + 3, u) (pc + 4, u) :=
    Emits.silent (step_eq hlabel) rfl
  rcases Nat.mod_two_eq_zero_or_one (num.toNat / 2 ^ b) with hzero | hone
  · rw [hzero, Nat.zero_mul, Nat.add_zero]
    refine ⟨t, hrun.trans ((Emits.silent ((step_eq hje).trans ?_) rfl).trans (hend t)), hIt, hrdx⟩
    rw [exec, hflags, hzero, htarget]
    rfl
  · rw [hone, Nat.one_mul] at hk ⊢
    have hpow : 2 ^ b ≤ 2 ^ 3 := Nat.pow_le_pow_right (by decide) (by omega)
    refine ⟨t.string (op (2 ^ b)), hrun.trans ((Emits.silent ((step_eq hje).trans ?_) rfl).trans
      ((Emits.silent (step_eq hop) rfl).trans (hend _))),
      hI.string _ _ _ (Nat.two_pow_pos b) hpow hk hIt, ?_⟩
    · rw [exec, hflags, hone]
      rfl
    · rw [rdx_string]
      exact hrdx

/-- **All bytes of the count are done.** -/
theorem wordwise_arrives (hI : Does op num.toNat I) (h : I 0 { s with df := false })
    (hrcx : s.rcx = num / 8) (hrdx : s.rdx = num) :
    ∃ t, Arrives (wordwise op).step (0, s) (14, t) ∧ I num.toNat t := by
  have hdiv : ({ s with df := false } : Cpu).rcx.toNat = num.toNat / 8 := by
    show s.rcx.toNat = _
    rw [hrcx]
    exact BitVec.toNat_udiv
  have hcld : Arrives (wordwise op).step (0, s) (1, { s with df := false }) :=
    Arrives.single rfl
  have hrep : ∃ t, Arrives (wordwise op).step (1, { s with df := false }) (2, t) ∧
      (I (8 * (num.toNat / 8)) t ∧ t.rdx = num) ∧ t.rcx = 0 := by
    refine arrives_rep (I := fun k t => I (8 * k) t ∧ t.rdx = num) rfl ⟨h, hrdx⟩ hdiv ?_
    rintro k t hk ⟨hk', hrdx'⟩
    refine ⟨hI.rcx _ _ _ (hI.string 8 (8 * k) t (by decide) (Nat.le_refl 8) (by omega) hk'), ?_⟩
    exact (rdx_string t (op 8)).trans hrdx'
  obtain ⟨t, ht, ⟨hIt, htrdx⟩, -⟩ := hrep
  obtain ⟨t4, h4, hI4, hrdx4⟩ := tail_arrives (wordwise op) 2 1 2 (by decide) rfl rfl rfl rfl rfl
    hI (by omega) hIt htrdx
  obtain ⟨t2, h2, hI2, hrdx2⟩ := tail_arrives (wordwise op) 6 2 1 (by decide) rfl rfl rfl rfl rfl
    hI (by omega) hI4 hrdx4
  obtain ⟨t1, h1, hI1, -⟩ := tail_arrives (wordwise op) 10 3 0 (by decide) rfl rfl rfl rfl rfl
    hI (by omega) hI2 hrdx2
  refine ⟨t1, hcld.trans (ht.trans (h4.trans (h2.trans h1))), ?_⟩
  have hsum : 8 * (num.toNat / 8) + num.toNat / 2 ^ 2 % 2 * 2 ^ 2 +
      num.toNat / 2 ^ 1 % 2 * 2 ^ 1 + num.toNat / 2 ^ 0 % 2 * 2 ^ 0 = num.toNat := by omega
  rw [← hsum]
  exact hI1

/-! ## `memcpy` -/

variable {m : Mem} {src dst address : BitVec 64} {c : BitVec 8}

/-- The first `k` bytes are copied. -/
structure Copied (m : Mem) (src dst : BitVec 64) (k : ℕ) (s : Cpu) : Prop where
  df : s.df = false
  rsi : s.rsi = src + BitVec.ofNat 64 k
  rdi : s.rdi = dst + BitVec.ofNat 64 k
  mem : s.mem = m.moveBytes src dst k

theorem delta_of_df (hdf : s.df = false) : s.delta n = BitVec.ofNat 64 n := by
  rw [Cpu.delta, hdf]
  rfl

/-- A move goes on with the copy, if what it reads is not overwritten. -/
theorem Copied.movs (h : Copied m src dst k s) (hkn : k + n ≤ 2 ^ 64)
    (hsrc : ∀ j < n, k ≤ (src + BitVec.ofNat 64 (k + j) - dst).toNat) :
    Copied m src dst (k + n) (s.string (.movs n)) where
  df := h.df
  rsi := by
    show s.rsi + s.delta n = _
    rw [h.rsi, delta_of_df h.df, Mem.add_ofNat_add]
  rdi := by
    show s.rdi + s.delta n = _
    rw [h.rdi, delta_of_df h.df, Mem.add_ofNat_add]
  mem := by
    show s.mem.moveBytes s.rsi s.rdi n = _
    rw [h.mem, h.rsi, h.rdi, Mem.moveBytes_add hkn hsrc]

/-- Blocks that share no byte: what is read is not written. -/
theorem apart_read {num : ℕ} (h : (Block.mk src num).Apart ⟨dst, num⟩) (hn : n < num)
    (hnum : num < 2 ^ 64) : num ≤ (src + BitVec.ofNat 64 n - dst).toNat := by
  obtain ⟨hle, hle'⟩ := h
  simp only at hle hle'
  bv_omega

theorem does_memcpy (h : (Block.mk src num.toNat).Apart ⟨dst, num.toNat⟩) :
    Does .movs num.toNat (Copied m src dst) where
  rcx _ _ _ h := ⟨h.df, h.rsi, h.rdi, h.mem⟩
  flags _ _ _ h := ⟨h.df, h.rsi, h.rdi, h.mem⟩
  string n k s _ _ hkn hk := by
    have hnum := num.isLt
    refine hk.movs (by omega) fun j hj => ?_
    have hread := apart_read (n := k + j) h (by omega) hnum
    omega

/-! ## `memset` -/

/-- The first `k` bytes are set. -/
structure IsSet (m : Mem) (address : BitVec 64) (c : BitVec 8) (k : ℕ) (s : Cpu) : Prop where
  df : s.df = false
  rax : s.rax = c.setWidth 64 * 0x0101010101010101#64
  rdi : s.rdi = address + BitVec.ofNat 64 k
  mem : s.mem = m.setBytes address k c

/-- The number whose first `n` bytes are 1. -/
def ones : ℕ → ℕ
  | 0 => 0
  | n + 1 => ones n + 256 ^ n

theorem ones_add (o r : ℕ) : ones (o + 1 + r) = ones o + 256 ^ o * (1 + 256 * ones r) := by
  induction r with
  | zero => rw [Nat.add_zero, ones, ones, Nat.mul_zero, Nat.add_zero, Nat.mul_one]
  | succ r ih =>
    rw [← Nat.add_assoc, ones, ih, ones]
    ring

theorem mul_ones_lt {x : ℕ} (hx : x < 256) (n : ℕ) : x * ones n < 256 ^ n := by
  induction n with
  | zero => exact Nat.one_pos
  | succ n ih =>
    calc x * ones (n + 1) = x * ones n + x * 256 ^ n := Nat.mul_add ..
      _ < 256 ^ n + x * 256 ^ n := Nat.add_lt_add_right ih _
      _ = (x + 1) * 256 ^ n := by ring
      _ ≤ 256 * 256 ^ n := Nat.mul_le_mul_right _ hx
      _ = 256 ^ (n + 1) := by ring

/-- Every byte of the word is the fill byte. -/
theorem byteOf_fill (c : BitVec 8) {o : ℕ} (ho : o < 8) :
    Bytes.byteOf (c.setWidth 64 * 0x0101010101010101#64) o = c := by
  have hc : c.toNat < 256 := c.isLt
  obtain ⟨r, hr⟩ : ∃ r, 8 = o + 1 + r := ⟨7 - o, by omega⟩
  have hword : (c.setWidth 64 * 0x0101010101010101#64).toNat = c.toNat * ones 8 := by
    have hlt : c.toNat * ones 8 < 2 ^ 64 := mul_ones_lt hc 8
    rw [BitVec.toNat_mul, BitVec.toNat_setWidth, Nat.mod_eq_of_lt (by omega : c.toNat < 2 ^ 64)]
    exact Nat.mod_eq_of_lt hlt
  have hsum : c.toNat * ones 8 =
      c.toNat * ones o + 256 ^ o * (c.toNat + 256 * (c.toNat * ones r)) := by
    have hones : ones 8 = ones o + 256 ^ o * (1 + 256 * ones r) :=
      (congrArg ones hr).trans (ones_add o r)
    rw [hones]
    ring
  refine BitVec.eq_of_toNat_eq ?_
  rw [Bytes.byteOf, BitVec.toNat_ofNat, hword, hsum,
    Nat.add_mul_div_left _ _ (Nat.pow_pos (by decide)), Nat.div_eq_of_lt (mul_ones_lt hc o),
    Nat.zero_add]
  exact (Nat.add_mul_mod_self_left ..).trans (Nat.mod_eq_of_lt hc)

theorem does_memset : Does .stos num.toNat (IsSet m address c) where
  rcx _ _ _ h := ⟨h.df, h.rax, h.rdi, h.mem⟩
  flags _ _ _ h := ⟨h.df, h.rax, h.rdi, h.mem⟩
  string n k s _ hn hkn hk := by
    have hnum := num.isLt
    refine ⟨hk.df, hk.rax, ?_, ?_⟩
    · show s.rdi + s.delta n = _
      rw [hk.rdi, delta_of_df hk.df, Mem.add_ofNat_add]
    · show s.mem.storeBytes s.rdi n s.rax = _
      rw [hk.mem, hk.rdi, hk.rax, Mem.storeBytes_eq_setBytes fun o ho => byteOf_fill c (by omega),
        Mem.setBytes_add (by omega)]

/-! ## The results -/

/-- **`memcpy` and `memset`**: for every count, a copy between blocks that share no byte, and a
fill, change the bytes of the destination as they should and no other byte. -/
theorem memcpy_memset :
    (∀ (dst src num : BitVec 64) (s : Cpu), MemcpyArgs dst src num s →
      (Block.mk src num.toNat).Apart ⟨dst, num.toNat⟩ →
        ∃ t, Arrives memcpyText.step (0, s) (14, t) ∧
          Mem.Writes s.mem dst num.toNat (fun i => s.mem (src + BitVec.ofNat 64 i)) t.mem) ∧
    ∀ (address : BitVec 64) (c : BitVec 8) (count : BitVec 64) (s : Cpu),
      MemsetArgs address c count s →
        ∃ t, Arrives memsetText.step (0, s) (14, t) ∧
          Mem.Writes s.mem address count.toNat (fun _ => c) t.mem := by
  refine ⟨fun dst src num s hs h => ?_, fun address c count s hs => ?_⟩
  · have hstart : Copied s.mem src dst 0 { s with df := false } :=
      ⟨rfl, hs.rsi.trans (BitVec.add_zero _).symm, hs.rdi.trans (BitVec.add_zero _).symm,
        (Mem.moveBytes_zero ..).symm⟩
    obtain ⟨t, ht, hcopied⟩ := wordwise_arrives (does_memcpy h) hstart hs.rcx hs.rdx
    refine ⟨t, ht, ?_⟩
    rw [hcopied.mem]
    exact Mem.writes_moveBytes s.mem src dst num.isLt.le
  · have hstart : IsSet s.mem address c 0 { s with df := false } :=
      ⟨rfl, hs.rax, hs.rdi.trans (BitVec.add_zero _).symm, (Mem.setBytes_zero ..).symm⟩
    obtain ⟨t, ht, hset⟩ := wordwise_arrives does_memset hstart hs.rcx hs.rdx
    refine ⟨t, ht, ?_⟩
    rw [hset.mem]
    exact Mem.writes_setBytes s.mem address c count.isLt.le

/-- Every byte is the lowest one of its address. -/
def numbered : Mem := fun a => a.setWidth 8

/-- Thirteen bytes, a round and two of the rest. -/
theorem memcpy_memset_thirteen :
    (∃ t, Arrives memcpyText.step (0, ⟨0, 1, 13, 16, 48, true, false, false, true, numbered⟩)
        (14, t) ∧ Mem.Writes numbered 48 13 (fun i => numbered (16 + BitVec.ofNat 64 i)) t.mem) ∧
      ∃ t, Arrives memsetText.step
        (0, ⟨0x0303030303030303, 1, 13, 16, 48, true, false, false, true, numbered⟩) (14, t) ∧
        Mem.Writes numbered 48 13 (fun _ => 3) t.mem :=
  ⟨memcpy_memset.1 48 16 13 _ ⟨by decide, rfl, rfl, rfl⟩ (by decide),
    memcpy_memset.2 48 3 13 _ ⟨by decide, by decide, rfl, rfl⟩⟩

/-! ## `memcmp` -/

/-- The assembly of `memcmp`. -/
def memcmpText : Code :=
  [.cld, .repe .cmpsb, .jcc .e 1, .movEax 1, .jcc .l 1, .negEax, .label 1]

/-- The registers `memcmp(FirstPart, SecondPart, Count)` loads. -/
structure MemcmpArgs (first second count : BitVec 64) (s : Cpu) : Prop where
  eax : s.eax = 0
  rdi : s.rdi = first
  rsi : s.rsi = second
  rcx : s.rcx = count

/-- The buffers agree in their first `n` bytes. -/
def Same (m : Mem) (first second : BitVec 64) (n : ℕ) : Prop :=
  ∀ i < n, m (first + BitVec.ofNat 64 i) = m (second + BitVec.ofNat 64 i)

/-- The first byte of `n` in which they differ. -/
structure FirstDiff (m : Mem) (first second : BitVec 64) (n i : ℕ) : Prop where
  lt : i < n
  same : Same m first second i
  ne : m (first + BitVec.ofNat 64 i) ≠ m (second + BitVec.ofNat 64 i)

/-- What `memcmp` should return. -/
structure MemcmpReturns (m : Mem) (first second : BitVec 64) (n : ℕ) (res : BitVec 32) : Prop where
  zero_iff : res = 0 ↔ Same m first second n
  diff : ∀ i, FirstDiff m first second n i →
    res = if m (second + BitVec.ofNat 64 i) < m (first + BitVec.ofNat 64 i) then 1 else -1

/-- What the flags say after `repe cmpsb` with a count of `n`. -/
structure Compared (s : Cpu) (n : ℕ) (t : Cpu) : Prop where
  rax : t.rax = s.rax
  none : n = 0 → t = s
  same : 0 < n → Same s.mem s.rdi s.rsi n → t.zf = true
  diff : ∀ i, FirstDiff s.mem s.rdi s.rsi n i → t.zf = false ∧
    t.holds .l = decide ((s.mem (s.rsi + BitVec.ofNat 64 i)).toInt <
      (s.mem (s.rdi + BitVec.ofNat 64 i)).toInt)

variable {first second count : BitVec 64} {text : Code} {pc i : ℕ} {t : Cpu}

theorem same_succ_iff : Same m first second (n + 1) ↔
    m first = m second ∧ Same m (first + 1) (second + 1) n := by
  constructor
  · intro h
    refine ⟨?_, fun i hi => ?_⟩
    · have hzero := h 0 (Nat.succ_pos n)
      rwa [Mem.add_ofNat_zero, Mem.add_ofNat_zero] at hzero
    · rw [← Mem.add_ofNat_succ, ← Mem.add_ofNat_succ]
      exact h (i + 1) (Nat.succ_lt_succ hi)
  · rintro ⟨hhead, htail⟩ i hi
    cases i with
    | zero => rw [Mem.add_ofNat_zero, Mem.add_ofNat_zero, hhead]
    | succ i =>
      rw [Mem.add_ofNat_succ, Mem.add_ofNat_succ]
      exact htail i (Nat.lt_of_succ_lt_succ hi)

theorem firstDiff_succ_iff : FirstDiff m first second (n + 1) i ↔
    (i = 0 ∧ m first ≠ m second) ∨
      ∃ j, i = j + 1 ∧ m first = m second ∧ FirstDiff m (first + 1) (second + 1) n j := by
  constructor
  · intro h
    cases i with
    | zero =>
      have hne := h.ne
      rw [Mem.add_ofNat_zero, Mem.add_ofNat_zero] at hne
      exact .inl ⟨rfl, hne⟩
    | succ j =>
      obtain ⟨hhead, htail⟩ := same_succ_iff.mp h.same
      have hne := h.ne
      rw [Mem.add_ofNat_succ, Mem.add_ofNat_succ] at hne
      exact .inr ⟨j, rfl, hhead, Nat.lt_of_succ_lt_succ h.lt, htail, hne⟩
  · rintro (⟨rfl, hne⟩ | ⟨j, rfl, hhead, h⟩)
    · refine ⟨Nat.succ_pos n, fun j hj => absurd hj (Nat.not_lt_zero j), ?_⟩
      rwa [Mem.add_ofNat_zero, Mem.add_ofNat_zero]
    · refine ⟨Nat.succ_lt_succ h.lt, same_succ_iff.mpr ⟨hhead, h.same⟩, ?_⟩
      rw [Mem.add_ofNat_succ, Mem.add_ofNat_succ]
      exact h.ne

theorem delta_one (hdf : s.df = false) : s.delta 1 = 1 := delta_of_df hdf

/-- **`repe cmpsb`** stops behind the first bytes that differ, or at the end of the count. -/
theorem repe_cmpsb_arrives (hcode : text[pc]? = some (.repe .cmpsb)) (hdf : s.df = false)
    (hn : s.rcx.toNat = n) : ∃ t, Arrives text.step (pc, s) (pc + 1, t) ∧ Compared s n t := by
  induction n generalizing s with
  | zero =>
    have hzero : s.rcx = 0 := BitVec.eq_of_toNat_eq hn
    refine ⟨s, Emits.silent ((step_eq hcode).trans ?_) rfl, rfl, fun _ => rfl,
      fun h => absurd h (Nat.lt_irrefl 0), fun i hi => absurd hi.lt (Nat.not_lt_zero i)⟩
    rw [exec, if_pos hzero]
  | succ n ih =>
    have hne : s.rcx ≠ 0 := by
      rintro hzero
      rw [hzero] at hn
      exact absurd hn (by simp)
    set u := s.round .cmpsb with hu
    have hrdi : u.rdi = s.rdi + 1 := by
      show s.rdi + s.delta 1 = _
      rw [delta_one hdf]
    have hrsi : u.rsi = s.rsi + 1 := by
      show s.rsi + s.delta 1 = _
      rw [delta_one hdf]
    have hzf : u.zf = decide (s.mem s.rsi = s.mem s.rdi) := rfl
    have hstep : text.step (pc, s) = some (if u.zf then pc else pc + 1, u) := by
      rw [step_eq hcode, exec, if_neg hne]
    by_cases heq : s.mem s.rdi = s.mem s.rsi
    · have hcount : u.rcx.toNat = n := by
        show (s.rcx - 1).toNat = n
        bv_omega
      have hz : u.zf = true := by rw [hzf, heq, decide_eq_true rfl]
      rw [hz, if_pos rfl] at hstep
      obtain ⟨t, ht, hc⟩ := ih (s := u) hdf hcount
      have hsame := hc.same
      have hdiff := hc.diff
      rw [hrdi, hrsi] at hsame hdiff
      refine ⟨t, (Emits.silent hstep rfl).trans ht, hc.rax, fun h => absurd h (Nat.succ_ne_zero n),
        fun _ h => ?_, fun i hi => ?_⟩
      · rcases Nat.eq_zero_or_pos n with hzero | hpos
        · rw [hc.none hzero, hz]
        · exact hsame hpos (same_succ_iff.mp h).2
      · obtain ⟨-, hhead⟩ | ⟨j, rfl, -, hj⟩ := firstDiff_succ_iff.mp hi
        · exact absurd heq hhead
        · rw [Mem.add_ofNat_succ, Mem.add_ofNat_succ]
          exact hdiff j hj
    · have hz : u.zf = false := by rw [hzf, decide_eq_false (Ne.symm heq)]
      rw [hz, if_neg Bool.false_ne_true] at hstep
      refine ⟨u, Emits.silent hstep rfl, rfl, fun h => absurd h (Nat.succ_ne_zero n),
        fun _ h => absurd (same_succ_iff.mp h).1 heq, fun i hi => ?_⟩
      obtain ⟨rfl, -⟩ | ⟨j, -, hhead, -⟩ := firstDiff_succ_iff.mp hi
      · rw [Mem.add_ofNat_zero, Mem.add_ofNat_zero]
        exact ⟨hz, Cpu.holds_l_subFlags s _ _⟩
      · exact absurd hhead heq

/-- **The end of a comparison**: 1 or -1, by the flags. -/
theorem sign_arrives (readable : List Block) (text : Code) (q l : ℕ)
    (hmov : text[q]? = some (.movEax 1)) (hjl : text[q + 1]? = some (.jcc .l l))
    (hneg : text[q + 2]? = some .negEax) (hlabel : text[q + 3]? = some (.label l))
    (htarget : text.target l = q + 3) (t : Cpu) :
    ∃ u, Arrives (text.stepIn readable) (q, t) (q + 4, u) ∧
      u.eax = if t.holds .l then 1 else -1 := by
  set u : Cpu := { t with rax := (1#32).setWidth 64 } with hu
  have hone : Arrives (text.stepIn readable) (q, t) (q + 1, u) :=
    .single (stepIn_of_reads_nil hmov rfl)
  have hjump : text.stepIn readable (q + 1, u) = some (if t.holds .l then q + 3 else q + 2, u) := by
    rw [stepIn_of_reads_nil hjl rfl, exec, htarget]
    rfl
  have hend (v : Cpu) : Arrives (text.stepIn readable) (q + 3, v) (q + 4, v) :=
    .single (stepIn_of_reads_nil hlabel rfl)
  cases hl : t.holds .l with
  | true =>
    rw [hl, if_pos rfl] at hjump
    exact ⟨u, hone.trans (.head hjump (hend u)), rfl⟩
  | false =>
    rw [hl, if_neg Bool.false_ne_true] at hjump
    exact ⟨_, hone.trans (.head hjump (.head (stepIn_of_reads_nil hneg rfl) (hend _))), rfl⟩

/-- The rest of `memcmp` reads the flags. -/
theorem memcmp_flags (heax : t.eax = 0) : ∃ u, Arrives memcmpText.step (2, t) (7, u) ∧
    u.eax = if t.zf then 0 else if t.holds .l then 1 else -1 := by
  have hje : memcmpText.step (2, t) = some (if t.holds .e then 6 else 3, t) := rfl
  cases hz : t.zf with
  | true =>
    have he : t.holds .e = true := hz
    rw [he, if_pos rfl] at hje
    exact ⟨t, .head hje (.single rfl), heax⟩
  | false =>
    have he : t.holds .e = false := hz
    rw [he, if_neg Bool.false_ne_true] at hje
    obtain ⟨u, hu, heq⟩ := sign_arrives [] memcmpText 3 1 rfl rfl rfl rfl rfl t
    exact ⟨u, .head hje (arrives_of_stepIn hu), heq⟩

/-- The signed and the unsigned order of two bytes. -/
theorem toInt_lt_iff_iff {x y : BitVec 8} (h : x ≠ y) :
    (x.toInt < y.toInt ↔ x < y) ↔ x.msb = y.msb := by
  have hx := x.isLt
  have hy := y.isLt
  have hne : x.toNat ≠ y.toNat := fun heq => h (BitVec.eq_of_toNat_eq heq)
  rw [BitVec.lt_def, BitVec.toInt_eq_toNat_cond, BitVec.toInt_eq_toNat_cond,
    BitVec.msb_eq_decide, BitVec.msb_eq_decide, decide_eq_decide]
  split <;> split <;> omega

/-- When `memcmp` is right. -/
structure MemcmpGuard (m : Mem) (first second : BitVec 64) (n : ℕ) (zf : Bool) : Prop where
  zero : n = 0 → zf = true
  diff : ∀ i, FirstDiff m first second n i →
    (m (second + BitVec.ofNat 64 i)).msb = (m (first + BitVec.ofNat 64 i)).msb

/-- Buffers that are not the same differ in a first byte. -/
theorem same_or_firstDiff (m : Mem) (first second : BitVec 64) (n : ℕ) :
    Same m first second n ∨ ∃ i, FirstDiff m first second n i := by
  induction n with
  | zero => exact .inl fun i hi => absurd hi (Nat.not_lt_zero i)
  | succ n ih =>
    rcases ih with hsame | ⟨i, hi⟩
    · by_cases heq : m (first + BitVec.ofNat 64 n) = m (second + BitVec.ofNat 64 n)
      · refine .inl fun i hi => ?_
        rcases Nat.lt_succ_iff_lt_or_eq.mp hi with hlt | rfl
        · exact hsame i hlt
        · exact heq
      · exact .inr ⟨n, Nat.lt_succ_self n, hsame, heq⟩
    · exact .inr ⟨i, Nat.lt_succ_of_lt hi.lt, hi.same, hi.ne⟩

/-- There is one first byte. -/
theorem FirstDiff.unique {j : ℕ} (hi : FirstDiff m first second n i)
    (hj : FirstDiff m first second n j) : i = j := by
  rcases Nat.lt_trichotomy i j with hlt | heq | hlt
  · exact absurd (hj.same i hlt) hi.ne
  · exact heq
  · exact absurd (hi.same j hlt) hj.ne

/-- The results are not 0, and one of them is the one for a condition. -/
theorem ite_one_ne_zero (p : Prop) [Decidable p] : (if p then 1 else -1 : BitVec 32) ≠ 0 := by
  split <;> decide

theorem ite_one_eq_iff (p q : Prop) [Decidable p] [Decidable q] :
    (if p then 1 else -1 : BitVec 32) = (if q then 1 else -1) ↔ (p ↔ q) := by
  by_cases hp : p <;> by_cases hq : q <;> simp [hp, hq]

/-- Buffers that are the same: without a round the zero flag is the one on entry. -/
theorem memcmp_same {z l zf : Bool} (hsame : Same m first second n) (hnone : n = 0 → z = zf)
    (hpos : 0 < n → z = true) :
    MemcmpReturns m first second n (if z then 0 else if l then 1 else -1) ↔
      MemcmpGuard m first second n zf := by
  have hdiff (i : ℕ) : ¬ FirstDiff m first second n i := fun hi => hi.ne (hsame i hi.lt)
  refine ⟨fun h => ⟨fun hzero => ?_, fun i hi => absurd hi (hdiff i)⟩, fun h => ?_⟩
  · have hr := h.zero_iff.mpr hsame
    by_contra hne
    rw [hnone hzero, if_neg hne] at hr
    exact ite_one_ne_zero _ hr
  · have hz : z = true := by
      rcases Nat.eq_zero_or_pos n with hzero | hlt
      · exact (hnone hzero).trans (h.zero hzero)
      · exact hpos hlt
    rw [if_pos hz]
    exact ⟨iff_of_true rfl hsame, fun i hi => absurd hi (hdiff i)⟩

/-- Buffers that differ: the result takes the bytes as signed. -/
theorem memcmp_differ (hi : FirstDiff m first second n i) (zf : Bool) :
    MemcmpReturns m first second n (if (m (second + BitVec.ofNat 64 i)).toInt <
        (m (first + BitVec.ofNat 64 i)).toInt then 1 else -1) ↔
      MemcmpGuard m first second n zf := by
  have hsign := toInt_lt_iff_iff (Ne.symm hi.ne)
  refine ⟨fun h => ⟨fun hzero => ?_, fun j hj => ?_⟩, fun h => ⟨?_, fun j hj => ?_⟩⟩
  · exact absurd hi.lt (by omega)
  · obtain rfl := hi.unique hj
    exact hsign.mp ((ite_one_eq_iff _ _).mp (h.diff i hi))
  · exact iff_of_false (ite_one_ne_zero _) fun hsame => hi.ne (hsame i hi.lt)
  · obtain rfl := hi.unique hj
    exact (ite_one_eq_iff _ _).mpr (hsign.mpr (h.diff i hi))

/-- **`memcmp` is right exactly when** the count is not zero, or the zero flag was set on entry; and
the first bytes that differ have the same sign. -/
theorem memcmp_returns_iff (first second count : BitVec 64) (s : Cpu)
    (hs : MemcmpArgs first second count s) :
    ∃ t, Arrives memcmpText.step (0, s) (7, t) ∧
      (MemcmpReturns s.mem first second count.toNat t.eax ↔
        MemcmpGuard s.mem first second count.toNat s.zf) := by
  set u : Cpu := { s with df := false } with hu
  have hcld : Arrives memcmpText.step (0, s) (1, u) := Arrives.single rfl
  have hcount : u.rcx.toNat = count.toNat := congrArg BitVec.toNat hs.rcx
  have hrepe : ∃ v, Arrives memcmpText.step (1, u) (2, v) ∧ Compared u count.toNat v :=
    repe_cmpsb_arrives rfl rfl hcount
  obtain ⟨v, hv, hc⟩ := hrepe
  have hzf := hc.same
  have hflags := hc.diff
  rw [show u.rdi = first from hs.rdi, show u.rsi = second from hs.rsi] at hzf hflags
  have heax : v.eax = 0 := by
    rw [Cpu.eax, hc.rax]
    exact hs.eax
  obtain ⟨t, ht, hres⟩ := memcmp_flags heax
  refine ⟨t, hcld.trans (hv.trans ht), ?_⟩
  rw [hres]
  rcases same_or_firstDiff s.mem first second count.toNat with hsame | ⟨i, hi⟩
  · exact memcmp_same hsame (fun hzero => by rw [hc.none hzero]) fun hpos => hzf hpos hsame
  · obtain ⟨hz, hl⟩ := hflags i hi
    have hl' : v.holds .l = decide ((s.mem (second + BitVec.ofNat 64 i)).toInt <
        (s.mem (first + BitVec.ofNat 64 i)).toInt) := hl
    rw [hz, if_neg Bool.false_ne_true, hl']
    simp only [decide_eq_true_eq]
    exact memcmp_differ hi s.zf

/-- Two bytes that differ in their low bits. -/
theorem memcmp_returns_ascii : ∃ t,
    Arrives memcmpText.step
      (0, ⟨0, 1, 0, 8, 0, false, false, false, false, fun a => if a = 0 then 0x61 else 0x41⟩)
      (7, t) ∧
    (MemcmpReturns (fun a => if a = 0 then 0x61 else 0x41) 0 8 1 t.eax ↔
      MemcmpGuard (fun a => if a = 0 then 0x61 else 0x41) 0 8 1 false) :=
  memcmp_returns_iff 0 8 1 _ ⟨rfl, rfl, rfl, rfl⟩

/-- **No bytes, and the zero flag clear**: `memcmp` returns -1.  **The byte 0x80 before the byte
0**: it returns -1 as well, although the first is the greater one. -/
theorem memcmp_not_returns :
    (∃ t, Arrives memcmpText.step
        (0, ⟨0, 0, 0, 8, 0, false, false, false, false, fun _ => 0⟩) (7, t) ∧
      t.eax = -1 ∧ ¬ MemcmpReturns (fun _ => 0) 0 8 0 t.eax) ∧
    ∃ t, Arrives memcmpText.step
        (0, ⟨0, 1, 0, 8, 0, true, false, false, false, fun a => if a = 0 then 0x80 else 0⟩) (7, t) ∧
      t.eax = -1 ∧ ¬ MemcmpReturns (fun a => if a = 0 then 0x80 else 0) 0 8 1 t.eax := by
  constructor
  · refine ⟨_, .head rfl (.head rfl (.head rfl (.head rfl (.head rfl (.head rfl (.single rfl)))))),
      by decide, fun h => ?_⟩
    exact absurd (h.zero_iff.mpr fun i hi => absurd hi (Nat.not_lt_zero i)) (by decide)
  · refine ⟨_, .head rfl (.head rfl (.head rfl (.head rfl (.head rfl (.head rfl (.single rfl)))))),
      by decide, fun h => ?_⟩
    have hdiff : FirstDiff (fun a => if a = 0 then 0x80 else 0) 0 8 1 0 :=
      ⟨by decide, fun i hi => absurd hi (Nat.not_lt_zero i), by decide⟩
    exact absurd (h.diff 0 hdiff) (by decide)

end Lib
end OSLib
