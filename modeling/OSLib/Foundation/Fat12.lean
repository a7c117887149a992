import Mathlib.Data.List.Nodup
import Mathlib.Data.List.Perm.Subperm
import OSLib.Foundation.Bytes

/-!
# FAT12 volumes

A volume is its bytes, and a few numbers in its first sector say where things are: the reserved
sectors come first, then the copies of the FAT, the root directory, and the clusters of the files,
numbered from 2 on.  The FAT is an array of entries of 12 bits, two in three bytes.  The entry of a
cluster of a file is the number of the next cluster, or an end mark, one of `0xff8` to `0xfff`.

`Chain v c l e` says that the clusters of `l`, from `c` on, are linked by the FAT and that the entry
of the last one is the end mark `e`.  A chain never comes to a cluster twice, so it is no longer
than the volume has clusters (`Chain.length_le`).

The chain is a relation and not a function that follows the FAT, because a damaged FAT may link
clusters in a circle or to an entry that is neither a cluster nor a mark.  Of such a file there is
no chain, and nothing is claimed of it.  Long names, dates, sizes and attributes of the directory
entries are left out, and so is the second copy of the FAT.
-/

namespace OSLib
namespace Fat12

/-- The numbers in the first sector of a volume. -/
structure Bpb where
  bytesPerSec : ℕ
  secPerClus : ℕ
  rsvdSecCnt : ℕ
  numFATs : ℕ
  rootEntCnt : ℕ
  totSec16 : ℕ
  fatSz16 : ℕ

namespace Bpb

variable (b : Bpb) (v : Bytes)

/-- The sectors of the root directory. -/
def rootDirSectors : ℕ := (b.rootEntCnt * 32 + b.bytesPerSec - 1) / b.bytesPerSec

/-- The first one of them. -/
def rootDirStart : ℕ := b.rsvdSecCnt + b.numFATs * b.fatSz16

/-- The first sector behind them. -/
def firstDataSector : ℕ := b.rootDirStart + b.rootDirSectors

/-- The first sector of a cluster. -/
def sectorOf (n : ℕ) : ℕ := b.firstDataSector + (n - 2) * b.secPerClus

/-- The numbers of the clusters. -/
def IsCluster (n : ℕ) : Prop :=
  2 ≤ n ∧ n < (b.totSec16 - b.firstDataSector) / b.secPerClus + 2

/-- The entry of a cluster in the first FAT. -/
def fatEntry (n : ℕ) : ℕ :=
  let w := v.leValue (b.bytesPerSec * b.rsvdSecCnt + (n + n / 2)) 2
  if n % 2 = 1 then w / 16 else w % 4096

/-- Entries as they lie in a FAT, two in three bytes. -/
def packEntries : List (BitVec 12) → List (BitVec 8)
  | [] => []
  | [x] => [x.setWidth 8, (0 : BitVec 4) ++ x.extractLsb' 8 4]
  | x :: y :: l =>
    x.setWidth 8 :: (y.setWidth 4 ++ x.extractLsb' 8 4) :: y.extractLsb' 4 8 :: packEntries l

/-- The first FAT starts with these entries. -/
def HoldsEntries (entries : List (BitVec 12)) : Prop :=
  ∀ o (h : o < (packEntries entries).length),
    v (b.bytesPerSec * b.rsvdSecCnt + o) = (packEntries entries)[o]

/-- The address of an entry of the root directory. -/
def dirEntry (i : ℕ) : ℕ := b.bytesPerSec * b.rootDirStart + 32 * i

/-- The entry has the name, eight characters and an extension of three. -/
def Named (name : List (BitVec 8)) (i : ℕ) : Prop :=
  ∀ k (h : k < name.length), v (b.dirEntry i + k) = name[k]

/-- The first cluster of the file the entry is about. -/
def firstCluster (i : ℕ) : ℕ := v.leValue (b.dirEntry i + 26) 2

/-- The clusters of a list, from `c` on, are linked, and the last one has the end mark `e`. -/
inductive Chain : ℕ → List ℕ → ℕ → Prop where
  | last {c : ℕ} (hc : b.IsCluster c) (he : 0xff8 ≤ b.fatEntry v c) : Chain c [c] (b.fatEntry v c)
  | next {c e : ℕ} {l : List ℕ} (hc : b.IsCluster c) (hl : Chain (b.fatEntry v c) l e) :
    Chain c (c :: l) e

variable {b v} {name : List (BitVec 8)} {c e i n : ℕ} {l : List ℕ}

instance : Decidable (b.IsCluster n) := by
  unfold IsCluster
  infer_instance

instance : Decidable (b.Named v name i) := by
  unfold Named
  infer_instance

/-- Entries have 12 bits. -/
theorem fatEntry_lt (b : Bpb) (v : Bytes) (n : ℕ) : b.fatEntry v n < 4096 := by
  have hw := Bytes.leValue_lt v (b.bytesPerSec * b.rsvdSecCnt + (n + n / 2)) 2
  rw [fatEntry]
  split
  · omega
  · exact Nat.mod_lt _ (by decide)

/-! ## Packed entries -/

/-- An entry in the lower twelve bits of the two bytes it is in. -/
theorem leValue_even {m : Bytes} {a : ℕ} {x : BitVec 12} {y : BitVec 4}
    (h0 : m a = x.setWidth 8) (h1 : m (a + 1) = y ++ x.extractLsb' 8 4) :
    m.leValue a 2 % 4096 = x.toNat := by
  have hx := x.isLt
  rw [Bytes.leValue, Bytes.leValue, Bytes.leValue, h0, h1, Bytes.toNat_append_eq,
    BitVec.toNat_setWidth, BitVec.extractLsb'_toNat, Nat.shiftRight_eq_div_pow]
  omega

/-- An entry in the upper twelve bits. -/
theorem leValue_odd {m : Bytes} {a : ℕ} {x : BitVec 4} {y : BitVec 12}
    (h0 : m a = y.setWidth 4 ++ x) (h1 : m (a + 1) = y.extractLsb' 4 8) :
    m.leValue a 2 / 16 = y.toNat := by
  have hx := x.isLt
  have hy := y.isLt
  rw [Bytes.leValue, Bytes.leValue, Bytes.leValue, h0, h1, Bytes.toNat_append_eq,
    BitVec.toNat_setWidth, BitVec.extractLsb'_toNat, Nat.shiftRight_eq_div_pow]
  omega

/-- Unpacking, from any address on. -/
theorem unpack {m : Bytes} {entries : List (BitVec 12)} {a : ℕ}
    (h : ∀ o (h : o < (packEntries entries).length), m (a + o) = (packEntries entries)[o])
    (hn : n < entries.length) :
    (if n % 2 = 1 then m.leValue (a + (n + n / 2)) 2 / 16
      else m.leValue (a + (n + n / 2)) 2 % 4096) = entries[n].toNat := by
  induction entries using packEntries.induct generalizing a n with
  | case1 => exact absurd hn (Nat.not_lt_zero n)
  | case2 x =>
    obtain rfl : n = 0 := Nat.lt_one_iff.mp hn
    exact leValue_even (h 0 (by simp [packEntries])) (h 1 (by simp [packEntries]))
  | case3 x y l ih =>
    have hlen : (packEntries (x :: y :: l)).length = (packEntries l).length + 3 := by
      rw [packEntries, List.length_cons, List.length_cons, List.length_cons]
    match n with
    | 0 => exact leValue_even (h 0 (by omega)) (h 1 (by omega))
    | 1 => exact leValue_odd (h 1 (by omega)) (h 2 (by omega))
    | n + 2 =>
      have hrest := ih (a := a + 3) (n := n) (fun o ho => ?_) (by simpa using hn)
      · have hmod : (n + 2) % 2 = n % 2 := Nat.add_mod_right n 2
        have hplace : a + (n + 2 + (n + 2) / 2) = a + 3 + (n + n / 2) := by omega
        rw [hmod, hplace, hrest]
        rfl
      · have hnext := h (o + 3) (by omega)
        rw [Nat.add_assoc, Nat.add_comm 3]
        exact hnext

/-- **An entry that was packed is read back.** -/
theorem fatEntry_of_holdsEntries {entries : List (BitVec 12)} (h : b.HoldsEntries v entries)
    (hn : n < entries.length) : b.fatEntry v n = entries[n].toNat := unpack h hn

/-! ## Chains -/

theorem Chain.length_pos (h : b.Chain v c l e) : 0 < l.length := by
  cases h <;> exact Nat.succ_pos _

theorem Chain.isCluster (h : b.Chain v c l e) : b.IsCluster c := by
  cases h with
  | last hc _ => exact hc
  | next hc _ => exact hc

/-- A chain has clusters only. -/
theorem Chain.mem_isCluster (h : b.Chain v c l e) {d : ℕ} (hd : d ∈ l) : b.IsCluster d := by
  induction h with
  | last hc _ =>
    obtain rfl := List.mem_singleton.mp hd
    exact hc
  | next hc _ ih =>
    rcases List.mem_cons.mp hd with rfl | hd
    · exact hc
    · exact ih hd

section Unique

/-! Of a volume whose cluster numbers stay below the end marks. -/

variable (hb : ∀ n, b.IsCluster n → n < 0xff8)
include hb

theorem Chain.unique {l' : List ℕ} {e' : ℕ} (h : b.Chain v c l e) (h' : b.Chain v c l' e') :
    l = l' := by
  induction h generalizing l' with
  | last _ he =>
    cases h' with
    | last _ _ => rfl
    | next _ hl => exact absurd (hb _ hl.isCluster) (Nat.not_lt.mpr he)
  | next _ hl ih =>
    cases h' with
    | last _ he => exact absurd (hb _ hl.isCluster) (Nat.not_lt.mpr he)
    | next _ hl' => rw [ih hl']

omit hb in
/-- The chain from a cluster of a chain on is no longer. -/
theorem Chain.exists_of_mem (h : b.Chain v c l e) {d : ℕ} (hd : d ∈ l) :
    ∃ l', b.Chain v d l' e ∧ l'.length ≤ l.length := by
  induction h with
  | last hc he =>
    obtain rfl := List.mem_singleton.mp hd
    exact ⟨_, .last hc he, Nat.le_refl _⟩
  | @next c e l hc hl ih =>
    rcases List.mem_cons.mp hd with rfl | hd
    · exact ⟨_, .next hc hl, Nat.le_refl _⟩
    · obtain ⟨l', hl', hle⟩ := ih hd
      exact ⟨l', hl', Nat.le_succ_of_le hle⟩

/-- A chain never comes to a cluster twice. -/
theorem Chain.nodup (h : b.Chain v c l e) : l.Nodup := by
  induction h with
  | last hc he => exact List.nodup_singleton _
  | @next c e l hc hl ih =>
    refine List.nodup_cons.mpr ⟨fun hmem => ?_, ih⟩
    obtain ⟨l', hl', hle⟩ := hl.exists_of_mem hmem
    have heq : l' = c :: l := hl'.unique hb (.next hc hl)
    rw [heq, List.length_cons] at hle
    omega

/-- **A chain is no longer than the volume has clusters.** -/
theorem Chain.length_le (h : b.Chain v c l e) :
    l.length ≤ (b.totSec16 - b.firstDataSector) / b.secPerClus := by
  have hsub : l ⊆ List.range' 2 ((b.totSec16 - b.firstDataSector) / b.secPerClus) := by
    intro d hd
    obtain ⟨hge, hlt⟩ := h.mem_isCluster hd
    exact List.mem_range'_1.mpr ⟨hge, by omega⟩
  have hle := (List.subperm_of_subset (h.nodup hb) hsub).length_le
  rwa [List.length_range'] at hle

end Unique

end Bpb
end Fat12
end OSLib
