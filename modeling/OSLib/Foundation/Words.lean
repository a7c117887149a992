import OSLib.Foundation.Bytes
import Mathlib.Data.BitVec
import Mathlib.Tactic.Ring

/-!
# Words and stacks in a 64-bit memory

Addresses are 64-bit words and wrap around.  `read` and `write` move little-endian words of eight
bytes, and `StackAt m a ws` says that the words of a list lie one after the other from an address
on, the way a downward growing stack holds them.  All distances are taken modulo `2 ^ 64`, so that
nothing below depends on where in the address space a stack lies.

Two words on a stack are never compared by address in a proof: they are apart because they are
different positions of one list that is shorter than the address space.  `Mem.below a k` is the
address `k` words below `a`, and all stack pointers are written so.
-/

namespace OSLib

/-- The memory of a 64-bit machine. -/
abbrev Mem := BitVec 64 → BitVec 8

namespace Mem

variable {m m' : Mem} {a b v : BitVec 64}

/-! ## Words -/

/-- The bytes from an address on. -/
def view (m : Mem) (a : BitVec 64) : Bytes := fun o => m (a + BitVec.ofNat 64 o)

/-- The word at an address. -/
def read (m : Mem) (a : BitVec 64) : BitVec 64 := (m.view a).word 0 64

/-- Memory after a word is stored at an address. -/
def write (m : Mem) (a v : BitVec 64) : Mem := fun b =>
  if (b - a).toNat < 8 then Bytes.byteOf v (b - a).toNat else m b

/-- The word at `b` shares no byte with the word at `a`. -/
def Apart (a b : BitVec 64) : Prop := 8 ≤ (b - a).toNat ∧ 8 ≤ (a - b).toNat

theorem Apart.symm (h : Apart a b) : Apart b a := ⟨h.2, h.1⟩

theorem read_eq_iff :
    m.read a = v ↔ ∀ o < 8, m (a + BitVec.ofNat 64 o) = Bytes.byteOf v o := by
  have h : m.read a = v ↔ ∀ o < 8, m.view a (0 + o) = Bytes.byteOf v o :=
    Bytes.word_eq_iff (n := 8)
  simpa only [Nat.zero_add, view] using h

/-- A word depends on its eight bytes only. -/
theorem read_congr (h : ∀ o < 8, m' (a + BitVec.ofNat 64 o) = m (a + BitVec.ofNat 64 o)) :
    m'.read a = m.read a :=
  read_eq_iff.mpr fun o ho => (h o ho).trans (read_eq_iff.mp rfl o ho)

theorem write_of_le (h : 8 ≤ (b - a).toNat) : m.write a v b = m b := if_neg (by omega)

theorem add_ofNat_sub (a b : BitVec 64) {o : ℕ} (ho : (b - a).toNat + o < 2 ^ 64) :
    (b + BitVec.ofNat 64 o - a).toNat = (b - a).toNat + o := by
  rw [show b + BitVec.ofNat 64 o - a = b - a + BitVec.ofNat 64 o by ring, BitVec.toNat_add,
    BitVec.toNat_ofNat, Nat.mod_eq_of_lt (show o < 2 ^ 64 by omega), Nat.mod_eq_of_lt ho]

@[simp] theorem read_write_self : (m.write a v).read a = v := by
  refine read_eq_iff.mpr fun o ho => ?_
  have hsub := add_ofNat_sub a a (o := o) (by rw [BitVec.sub_self, BitVec.toNat_zero]; omega)
  rw [BitVec.sub_self, BitVec.toNat_zero, Nat.zero_add] at hsub
  rw [write, hsub, if_pos ho]

theorem read_write_of_apart (h : Apart a b) : (m.write a v).read b = m.read b := by
  obtain ⟨hba, hab⟩ := h
  refine read_congr fun o ho => write_of_le ?_
  have hne : (a - b).toNat + (b - a).toNat = 2 ^ 64 := by
    have hneg : a - b = -(b - a) := by ring
    rw [hneg, BitVec.toNat_neg]
    omega
  rw [add_ofNat_sub a b (by omega)]
  omega

/-! ## Stacks -/

/-- The address `k` words below another. -/
def below (a : BitVec 64) : ℕ → BitVec 64
  | 0 => a
  | k + 1 => below a k - 8

theorem below_eq (a : BitVec 64) (k : ℕ) : below a k = a - BitVec.ofNat 64 (8 * k) := by
  induction k with
  | zero => exact (BitVec.sub_zero a).symm
  | succ k ih =>
    rw [below, ih, Nat.mul_succ, BitVec.ofNat_add]
    exact sub_sub a _ 8

theorem below_add (a : BitVec 64) (j k : ℕ) : below (below a j) k = below a (j + k) := by
  induction k with
  | zero => rfl
  | succ k ih => rw [below, ih, Nat.add_succ, below]

theorem toNat_sub_below (a : BitVec 64) {k : ℕ} (hk : 8 * k < 2 ^ 64) :
    (a - below a k).toNat = 8 * k := by
  rw [below_eq, show a - (a - BitVec.ofNat 64 (8 * k)) = BitVec.ofNat 64 (8 * k) by ring,
    BitVec.toNat_ofNat, Nat.mod_eq_of_lt hk]

/-- The words of the list lie in memory from the address on. -/
def StackAt (m : Mem) : BitVec 64 → List (BitVec 64) → Prop
  | _, [] => True
  | a, w :: ws => m.read a = w ∧ StackAt m (a + 8) ws

variable {w : BitVec 64} {ws : List (BitVec 64)}

theorem stackAt_cons : StackAt m a (w :: ws) ↔ m.read a = w ∧ StackAt m (a + 8) ws := Iff.rfl

/-- A stack is its words. -/
theorem stackAt_iff :
    StackAt m a ws ↔ ∀ k (h : k < ws.length), m.read (a + BitVec.ofNat 64 (8 * k)) = ws[k] := by
  induction ws generalizing a with
  | nil => exact iff_of_true trivial fun k hk => absurd hk (Nat.not_lt_zero k)
  | cons w ws ih =>
    rw [stackAt_cons, ih]
    have hnext (k : ℕ) : a + 8 + BitVec.ofNat 64 (8 * k) = a + BitVec.ofNat 64 (8 * (k + 1)) := by
      rw [BitVec.add_assoc, show (8 : BitVec 64) = BitVec.ofNat 64 8 from rfl, ← BitVec.ofNat_add,
        Nat.mul_succ, Nat.add_comm]
    constructor
    · rintro ⟨hhead, htail⟩ k hk
      cases k with
      | zero => rwa [Nat.mul_zero, BitVec.add_zero]
      | succ k =>
        rw [← hnext]
        exact htail k (Nat.lt_of_succ_lt_succ hk)
    · intro h
      refine ⟨?_, fun k hk => ?_⟩
      · have hzero := h 0 (Nat.succ_pos _)
        rwa [Nat.mul_zero, BitVec.add_zero] at hzero
      · rw [hnext]
        exact h (k + 1) (Nat.succ_lt_succ hk)

/-- A stack depends on its own bytes only. -/
theorem StackAt.congr
    (h : ∀ o < 8 * ws.length, m' (a + BitVec.ofNat 64 o) = m (a + BitVec.ofNat 64 o))
    (hm : StackAt m a ws) : StackAt m' a ws := by
  refine stackAt_iff.mpr fun k hk => ?_
  rw [← stackAt_iff.mp hm k hk]
  refine read_congr fun o ho => ?_
  rw [BitVec.add_assoc, ← BitVec.ofNat_add]
  exact h _ (by omega)

/-- Storing a word just below a stack leaves the stack alone, as long as it does not reach around
the whole memory. -/
theorem StackAt.write_below (hm : StackAt m a ws) (hlen : 8 * (ws.length + 1) ≤ 2 ^ 64) :
    StackAt (m.write (a - 8) v) a ws := by
  refine hm.congr fun o ho => write_of_le ?_
  have h8 : (a - (a - 8)).toNat = 8 := by
    rw [show a - (a - 8) = 8 by ring]
    rfl
  rw [add_ofNat_sub (a - 8) a (by omega)]
  omega

/-- **Pushing a word on a stack.** -/
theorem StackAt.push (hm : StackAt m a ws) (hlen : 8 * (ws.length + 1) ≤ 2 ^ 64) :
    StackAt (m.write (a - 8) v) (a - 8) (v :: ws) := by
  refine ⟨read_write_self, ?_⟩
  rw [BitVec.sub_add_cancel]
  exact hm.write_below hlen

/-- Replacing the top word. -/
theorem StackAt.replace (hm : StackAt m a (w :: ws)) (hlen : 8 * (ws.length + 1) ≤ 2 ^ 64) :
    StackAt (m.write a v) a (v :: ws) := by
  have h := StackAt.push (v := v) hm.2 hlen
  rwa [BitVec.add_sub_cancel] at h

/-- Storing a word inside a stack. -/
theorem StackAt.set (hm : StackAt m a ws) (hlen : 8 * ws.length ≤ 2 ^ 64) {k : ℕ}
    (hk : k < ws.length) :
    StackAt (m.write (a + BitVec.ofNat 64 (8 * k)) v) a (ws.set k v) := by
  refine stackAt_iff.mpr fun j hj => ?_
  rw [List.length_set] at hj
  by_cases hjk : k = j
  · subst hjk
    rw [List.getElem_set_self, read_write_self]
  · rw [List.getElem_set_ne hjk, ← stackAt_iff.mp hm j hj]
    refine read_write_of_apart ?_
    unfold Apart
    bv_omega

/-! ## Filling and copying -/

/-- Store `n` copies of a word, in ascending order. -/
def fill (m : Mem) (a v : BitVec 64) : ℕ → Mem
  | 0 => m
  | n + 1 => (fill m a v n).write (a + BitVec.ofNat 64 (8 * n)) v

/-- Copy `n` words one after the other, in ascending order. -/
def copy (m : Mem) (dst src : BitVec 64) : ℕ → Mem
  | 0 => m
  | n + 1 => (copy m dst src n).write (dst + BitVec.ofNat 64 (8 * n))
      ((copy m dst src n).read (src + BitVec.ofNat 64 (8 * n)))

/-- Appending a word to a stack. -/
theorem StackAt.concat (hm : StackAt m a ws) (hlen : 8 * (ws.length + 1) ≤ 2 ^ 64) :
    StackAt (m.write (a + BitVec.ofNat 64 (8 * ws.length)) v) a (ws ++ [v]) := by
  refine stackAt_iff.mpr fun k hk => ?_
  rw [List.length_append, List.length_singleton] at hk
  by_cases hlast : k = ws.length
  · subst hlast
    rw [List.getElem_concat_length rfl, read_write_self]
  · have hk' : k < ws.length := by omega
    rw [List.getElem_append_left hk', ← stackAt_iff.mp hm k hk']
    refine read_write_of_apart ?_
    unfold Apart
    bv_omega

theorem stackAt_fill (m : Mem) (a v : BitVec 64) {n : ℕ} (hn : 8 * n ≤ 2 ^ 64) :
    StackAt (m.fill a v n) a (List.replicate n v) := by
  induction n with
  | zero => trivial
  | succ n ih =>
    have h := (ih (by omega)).concat (v := v) (by rw [List.length_replicate]; omega)
    rwa [List.length_replicate, ← List.replicate_succ'] at h

end Mem

/-! ## Blocks -/

/-- A block of memory. -/
structure Block where
  addr : BitVec 64
  size : ℕ

namespace Block

variable {A B : Block} {a b : BitVec 64} {n o : ℕ}

/-- The `n` bytes at an address lie in the block. -/
def Has (B : Block) (a : BitVec 64) (n : ℕ) : Prop := (a - B.addr).toNat + n ≤ B.size

/-- The blocks share no byte. -/
def Apart (A B : Block) : Prop :=
  A.size ≤ (B.addr - A.addr).toNat ∧ B.size ≤ (A.addr - B.addr).toNat

instance (B : Block) (a : BitVec 64) (n : ℕ) : Decidable (B.Has a n) := by
  unfold Has
  infer_instance

instance (A B : Block) : Decidable (A.Apart B) := by
  unfold Apart
  infer_instance

theorem Apart.symm (h : A.Apart B) : B.Apart A := ⟨h.2, h.1⟩

/-- A block holds its first bytes, -/
theorem has_self (a : BitVec 64) {s : ℕ} (h : n ≤ s) : (Block.mk a s).Has a n := by
  rw [Has, BitVec.sub_self]
  simpa using h

/-- and those at an offset. -/
theorem has_offset (a : BitVec 64) {o s : ℕ} (h : o + n ≤ s) :
    (Block.mk a s).Has (a + BitVec.ofNat 64 o) n := by
  have hsub : a + BitVec.ofNat 64 o - a = BitVec.ofNat 64 o := by ring
  have hle := Nat.mod_le o (2 ^ 64)
  rw [Has, hsub, BitVec.toNat_ofNat]
  simp only
  omega

theorem has_addr (B : Block) {o : ℕ} (h : o + n ≤ B.size) : B.Has (B.addr + BitVec.ofNat 64 o) n :=
  has_offset B.addr h

/-- A part of a part. -/
theorem Has.trans {s : ℕ} (h : B.Has a s) (hb : (Block.mk a s).Has b n) : B.Has b n := by
  have hsub : b - B.addr = (b - a) + (a - B.addr) := by ring
  have hle := Nat.mod_le ((b - a).toNat + (a - B.addr).toNat) (2 ^ 64)
  unfold Has at h hb ⊢
  simp only at hb
  rw [hsub, BitVec.toNat_add]
  omega

/-- Words of different blocks share no byte. -/
theorem Apart.words (h : A.Apart B) (ha : A.Has a 8) (hb : B.Has b 8) : Mem.Apart a b := by
  unfold Apart at h
  unfold Has at ha hb
  unfold Mem.Apart
  bv_omega

/-- A part of a block keeps away from what the block keeps away from. -/
theorem Apart.part (h : A.Apart B) (ha : A.Has a n) (hn : 0 < n) : (Block.mk a n).Apart B := by
  unfold Apart at h ⊢
  unfold Has at ha
  simp only
  bv_omega

/-- What keeps away from a block keeps away from a part of it. -/
theorem Apart.of_part (h : A.Apart B) (hb : B.Has b n) (hn : 0 < n) : A.Apart (Block.mk b n) :=
  (h.symm.part hb hn).symm

/-- A byte of one block is not in the other. -/
theorem Apart.byte (h : A.Apart B) (ha : A.Has a n) (ho : o < n) (hn : n < 2 ^ 64) :
    ¬ B.Has (a + BitVec.ofNat 64 o) 1 := by
  unfold Apart at h
  unfold Has at ha ⊢
  bv_omega

end Block

/-! ## Changes within a block -/

namespace Mem

variable {A B : Block} {m m' m'' : Mem} {a v x dst src : BitVec 64} {n : ℕ}

/-- The memories differ in the block at most. -/
def Within (B : Block) (m m' : Mem) : Prop := ∀ x, ¬ B.Has x 1 → m' x = m x

theorem Within.refl (B : Block) (m : Mem) : Within B m m := fun _ _ => rfl

theorem Within.trans (h : Within B m m') (h' : Within B m' m'') : Within B m m'' :=
  fun x hx => (h' x hx).trans (h x hx)

/-- A store into the block. -/
theorem within_write (ha : B.Has a 8) : Within B m (m.write a v) := by
  intro x hx
  refine write_of_le ?_
  unfold Block.Has at ha hx
  bv_omega

/-- A change within a block leaves the words of other blocks alone. -/
theorem Within.read (h : Within B m m') (hAB : A.Apart B) (hx : A.Has x 8) :
    m'.read x = m.read x :=
  read_congr fun _ ho => h _ (hAB.byte hx ho (by decide))

theorem Within.stackAt {ws : List (BitVec 64)} (h : Within B m m') (hAB : A.Apart B)
    (hA : A.Has a (8 * ws.length)) (hlen : 8 * ws.length < 2 ^ 64) (hm : StackAt m a ws) :
    StackAt m' a ws :=
  hm.congr fun _ ho => h _ (hAB.byte hA ho hlen)

/-- Stores of one word after the other, of any values. -/
theorem within_stores {f : ℕ → Mem} {w : ℕ → BitVec 64}
    (hf : ∀ n, f (n + 1) = (f n).write (a + BitVec.ofNat 64 (8 * n)) (w n))
    (ha : B.Has a (8 * n)) : Within B (f 0) (f n) := by
  induction n with
  | zero => exact Within.refl B (f 0)
  | succ n ih =>
    unfold Block.Has at ha
    rw [hf]
    refine (ih (by unfold Block.Has; omega)).trans (within_write ?_)
    unfold Block.Has
    bv_omega

theorem within_fill (ha : B.Has a (8 * n)) : Within B m (m.fill a v n) :=
  within_stores (f := m.fill a v) (fun _ => rfl) ha

theorem within_copy (ha : B.Has dst (8 * n)) : Within B m (m.copy dst src n) :=
  within_stores (f := m.copy dst src) (fun _ => rfl) ha

/-- **A copy.**  What lies at the source lies at the destination afterwards. -/
theorem stackAt_copy {ws : List (BitVec 64)} (hm : StackAt m src ws)
    (hA : A.Has src (8 * ws.length)) (hB : B.Has dst (8 * ws.length)) (hAB : A.Apart B)
    (hlen : 8 * ws.length < 2 ^ 64) :
    StackAt (m.copy dst src ws.length) dst ws := by
  suffices h : ∀ n ≤ ws.length, StackAt (m.copy dst src n) dst (ws.take n) by
    have hall := h ws.length (Nat.le_refl _)
    rwa [List.take_length] at hall
  intro n hn
  induction n with
  | zero => trivial
  | succ n ih =>
    have hn' : n < ws.length := by omega
    have hsrc : (m.copy dst src n).read (src + BitVec.ofNat 64 (8 * n)) = ws[n] := by
      have hwithin : Within B m (m.copy dst src n) :=
        within_copy (by unfold Block.Has at hB ⊢; omega)
      rw [← stackAt_iff.mp hm n hn']
      refine hwithin.read hAB ?_
      unfold Block.Has at hA ⊢
      bv_omega
    have h := (ih (by omega)).concat (v := ws[n]) (by rw [List.length_take]; omega)
    rwa [List.length_take, Nat.min_eq_left (by omega), List.take_append_getElem hn', ← hsrc] at h

/-- The words from an address on. -/
def words (m : Mem) (a : BitVec 64) (n : ℕ) : List (BitVec 64) :=
  (List.range n).map fun k => m.read (a + BitVec.ofNat 64 (8 * k))

theorem stackAt_words (m : Mem) (a : BitVec 64) (n : ℕ) : StackAt m a (m.words a n) := by
  refine stackAt_iff.mpr fun k hk => ?_
  simp only [words, List.getElem_map, List.getElem_range]

/-- A word of a copy. -/
theorem read_copy (hA : A.Has src (8 * n)) (hB : B.Has dst (8 * n)) (hAB : A.Apart B)
    (hlen : 8 * n < 2 ^ 64) {k : ℕ} (hk : k < n) :
    (m.copy dst src n).read (dst + BitVec.ofNat 64 (8 * k)) =
      m.read (src + BitVec.ofNat 64 (8 * k)) := by
  have hl : (m.words src n).length = n := by simp [words]
  have hB' : B.Has dst (8 * (m.words src n).length) := by rwa [hl]
  have h := stackAt_copy (stackAt_words m src n) (by rwa [hl]) hB' hAB (by rwa [hl])
  rw [hl] at h
  rw [stackAt_iff.mp h k (by rwa [hl])]
  simp only [words, List.getElem_map, List.getElem_range]

end Mem
end OSLib
