import Mathlib.Algebra.Ring.Nat
import Mathlib.Tactic.Common

/-!
# The four-level page walk

Physical memory is read in quadwords, `mem a` being the one at address `a`.  A walk starts from the
table `cr3` points to and takes nine bits of the virtual address at each of the levels 4 to 1; an
entry that is not present ends it without a result, and an entry of level 3 or 2 with the page-size
bit set ends it with a page of 1 GiB or 2 MiB.

`walk` is the architectural definition; the lemmas say what it returns when the entries on the path
are known.

Protection bits, and the accessed and dirty bits that the processor sets, are not looked at: the
walk is the address part of a translation.  The entries are read from memory one at a time with the
physical address the entry before has given, so that tables may share entries or lie in the memory
they map.
-/

namespace OSLib
namespace Paging

/-- Physical memory by quadwords. -/
abbrev PhysMem := ℕ → BitVec 64

/-! ## Entries -/

/-- Bit 0 of an entry. -/
def Present (e : BitVec 64) : Prop := e.getLsbD 0 = true

/-- Bit 7 of an entry. -/
def PageSize (e : BitVec 64) : Prop := e.getLsbD 7 = true

instance (e : BitVec 64) : Decidable (Present e) := by unfold Present; infer_instance

instance (e : BitVec 64) : Decidable (PageSize e) := by unfold PageSize; infer_instance

/-- The address an entry holds, aligned to `2 ^ k` bytes: bits `k` to 51. -/
def frame (k : ℕ) (e : BitVec 64) : ℕ := e.toNat % 2 ^ 52 / 2 ^ k * 2 ^ k

/-! ## Addresses -/

/-- The upper 17 bits of the address are equal. -/
def Canonical (va : BitVec 64) : Prop := va.toNat < 2 ^ 47 ∨ 2 ^ 64 - 2 ^ 47 ≤ va.toNat

instance (va : BitVec 64) : Decidable (Canonical va) := by unfold Canonical; infer_instance

/-- The index into the table of level `n`. -/
def index (n : ℕ) (va : BitVec 64) : ℕ := va.toNat / 2 ^ (3 + 9 * n) % 512

/-- The entry for the address in the table of level `n` at `table`. -/
def entry (mem : PhysMem) (table n : ℕ) (va : BitVec 64) : BitVec 64 :=
  mem (table + 8 * index n va)

/-! ## The walk -/

/-- The walk from a table of level `n`. -/
def walkFrom (mem : PhysMem) (va : BitVec 64) : ℕ → ℕ → Option ℕ
  | 0, frame => some (frame + va.toNat % 2 ^ 12)
  | n + 1, table =>
    let e := entry mem table (n + 1) va
    if ¬ Present e then none
    else if (n = 1 ∨ n = 2) ∧ PageSize e then
      some (frame (12 + 9 * n) e + va.toNat % 2 ^ (12 + 9 * n))
    else walkFrom mem va n (frame 12 e)

/-- The physical address a virtual address is translated to. -/
def walk (mem : PhysMem) (cr3 : ℕ) (va : BitVec 64) : Option ℕ :=
  if Canonical va then walkFrom mem va 4 cr3 else none

variable {mem : PhysMem} {va : BitVec 64} {n table cr3 directory : ℕ}

/-- An entry that is not present ends the walk. -/
theorem walkFrom_of_not_present (h : ¬ Present (entry mem table (n + 1) va)) :
    walkFrom mem va (n + 1) table = none := if_pos h

/-- An entry that points to a table hands the walk on. -/
theorem walkFrom_of_table (hp : Present (entry mem table (n + 1) va))
    (hs : ¬ PageSize (entry mem table (n + 1) va)) :
    walkFrom mem va (n + 1) table =
      walkFrom mem va n (frame 12 (entry mem table (n + 1) va)) := by
  simp only [walkFrom]
  rw [if_neg (not_not.mpr hp), if_neg fun h => hs h.2]

/-- The page-size bit matters at level 3 and 2 only. -/
theorem walkFrom_of_present (hp : Present (entry mem table (n + 1) va))
    (hs : n = 1 ∨ n = 2 → ¬ PageSize (entry mem table (n + 1) va)) :
    walkFrom mem va (n + 1) table =
      walkFrom mem va n (frame 12 (entry mem table (n + 1) va)) := by
  simp only [walkFrom]
  rw [if_neg (not_not.mpr hp), if_neg fun h => hs h.1 h.2]

/-- An entry of level 2 with the page-size bit maps a 2 MiB page. -/
theorem walkFrom_of_page2m (hp : Present (entry mem table 2 va))
    (hs : PageSize (entry mem table 2 va)) :
    walkFrom mem va 2 table = some (frame 21 (entry mem table 2 va) + va.toNat % 2 ^ 21) := by
  simp only [walkFrom]
  rw [if_neg (not_not.mpr hp), if_pos ⟨Or.inl trivial, hs⟩]

/-- The walk through the first entry of a table of level 3 and a page directory. -/
theorem walkFrom_of_directory (h3 : index 3 va = 0)
    (ht : Present (mem table) ∧ ¬ PageSize (mem table) ∧ frame 12 (mem table) = directory)
    (hp : Present (mem (directory + 8 * index 2 va)))
    (hs : PageSize (mem (directory + 8 * index 2 va))) :
    walkFrom mem va 3 table =
      some (frame 21 (mem (directory + 8 * index 2 va)) + va.toNat % 2 ^ 21) := by
  obtain ⟨hp3, hs3, hf3⟩ := ht
  have e3 : entry mem table 3 va = mem table := by rw [entry, h3]; rfl
  have e2 : entry mem directory 2 va = mem (directory + 8 * index 2 va) := rfl
  rw [walkFrom_of_table (e3 ▸ hp3) (e3 ▸ hs3), e3, hf3, walkFrom_of_page2m (e2 ▸ hp) (e2 ▸ hs), e2]

theorem walk_of_canonical (h : Canonical va) : walk mem cr3 va = walkFrom mem va 4 cr3 := if_pos h

theorem walk_of_not_canonical (h : ¬ Canonical va) : walk mem cr3 va = none := if_neg h

/-! ## Rights -/

/-- Bit 1 of an entry. -/
def Writable (e : BitVec 64) : Prop := e.getLsbD 1 = true

instance (e : BitVec 64) : Decidable (Writable e) := by unfold Writable; infer_instance

/-- The entries a walk from a table of level `n` reads. -/
def entriesFrom (mem : PhysMem) (va : BitVec 64) : ℕ → ℕ → List (BitVec 64)
  | 0, _ => []
  | n + 1, table =>
    let e := entry mem table (n + 1) va
    if ¬ Present e ∨ (n = 1 ∨ n = 2) ∧ PageSize e then [e]
    else e :: entriesFrom mem va n (frame 12 e)

/-- The address is translated, and every entry on the way allows writing. -/
def MapsWritable (mem : PhysMem) (cr3 : ℕ) (va : BitVec 64) (pa : ℕ) : Prop :=
  walk mem cr3 va = some pa ∧ ∀ e ∈ entriesFrom mem va 4 cr3, Writable e

theorem entriesFrom_of_table (hp : Present (entry mem table (n + 1) va))
    (hs : ¬ PageSize (entry mem table (n + 1) va)) :
    entriesFrom mem va (n + 1) table = entry mem table (n + 1) va ::
      entriesFrom mem va n (frame 12 (entry mem table (n + 1) va)) := by
  simp only [entriesFrom]
  rw [if_neg fun h => h.elim (· hp) fun h => hs h.2]

theorem entriesFrom_of_page2m (hs : PageSize (entry mem table 2 va)) :
    entriesFrom mem va 2 table = [entry mem table 2 va] := by
  simp only [entriesFrom]
  rw [if_pos (.inr ⟨.inl trivial, hs⟩)]

/-! ## The bits of an entry as a number -/

theorem present_iff {e : BitVec 64} : Present e ↔ e.toNat % 2 = 1 := by
  rw [Present, ← BitVec.testBit_toNat, Nat.testBit_eq_decide_div_mod_eq, decide_eq_true_iff,
    Nat.pow_zero, Nat.div_one]

theorem writable_iff {e : BitVec 64} : Writable e ↔ e.toNat / 2 % 2 = 1 := by
  rw [Writable, ← BitVec.testBit_toNat, Nat.testBit_eq_decide_div_mod_eq, decide_eq_true_iff,
    Nat.pow_one]

theorem pageSize_iff {e : BitVec 64} : PageSize e ↔ e.toNat / 2 ^ 7 % 2 = 1 := by
  rw [PageSize, ← BitVec.testBit_toNat, Nat.testBit_eq_decide_div_mod_eq, decide_eq_true_iff]

end Paging
end OSLib
