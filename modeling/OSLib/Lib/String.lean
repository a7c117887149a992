import OSLib.Foundation.Words

/-!
# The string functions of `lib.h`

`repne scasb` counts `rcx` down while it looks for the byte in `al`; `strlen` starts it from
`0xffffffff` and takes the length from what is left.

The length is an `int32`, computed from the lower half of the counter, so the lemma gives it modulo
`2 ^ 32`, and a string of `2 ^ 31` bytes has a negative one.  `StringAt` asks for the bytes up to
the first NUL and for nothing behind it.
-/

namespace OSLib
namespace Lib

/-- `repne scasb` with 0 in `al`: `rcx` afterwards. -/
def scasb (mem : Mem) : ℕ → BitVec 64 → ℕ
  | 0, _ => 0
  | rcx + 1, rdi => if mem rdi = 0 then rcx else scasb mem rcx (rdi + 1)

/-- `strlen`. -/
def strlen (mem : Mem) (s : BitVec 64) : Int32 :=
  Int32.ofBitVec (~~~BitVec.ofNat 32 (scasb mem 0xffffffff s) - 1)

/-- The string at an address: it ends with the first NUL, less than `2 ^ 32` bytes on. -/
structure StringAt (mem : Mem) (s : BitVec 64) (bytes : List (BitVec 8)) : Prop where
  length_lt : bytes.length + 1 < 2 ^ 32
  get : ∀ i (h : i < bytes.length), mem (s + BitVec.ofNat 64 i) = bytes[i]
  ne_zero : 0 ∉ bytes
  nul : mem (s + BitVec.ofNat 64 bytes.length) = 0

theorem scasb_of_stringAt {mem : Mem} {bytes : List (BitVec 8)} {s : BitVec 64} {n : ℕ}
    (hget : ∀ i (h : i < bytes.length), mem (s + BitVec.ofNat 64 i) = bytes[i]) (hne : 0 ∉ bytes)
    (hnul : mem (s + BitVec.ofNat 64 bytes.length) = 0) (hn : bytes.length < n) :
    scasb mem n s = n - (bytes.length + 1) := by
  induction bytes generalizing s n with
  | nil =>
    obtain ⟨m, rfl⟩ : ∃ m, n = m + 1 := ⟨n - 1, by simp only [List.length_nil] at hn; omega⟩
    have hzero : mem s = 0 := by simpa using hnul
    rw [scasb, if_pos hzero]
    rfl
  | cons b bytes ih =>
    rw [List.length_cons] at hn
    obtain ⟨m, rfl⟩ : ∃ m, n = m + 1 := ⟨n - 1, by omega⟩
    rw [List.mem_cons, not_or] at hne
    obtain ⟨hb, hbytes⟩ := hne
    have hhead : mem s = b := (congrArg mem (BitVec.add_zero s).symm).trans (hget 0 (by simp))
    have hstep (i : ℕ) : s + 1 + BitVec.ofNat 64 i = s + BitVec.ofNat 64 (i + 1) := by
      rw [BitVec.ofNat_add, BitVec.add_assoc, BitVec.add_comm (BitVec.ofNat 64 i)]
      rfl
    rw [scasb, if_neg (by rw [hhead]; exact Ne.symm hb), ih (s := s + 1) _ hbytes _ (by omega)]
    · rw [List.length_cons]
      omega
    · intro i hi
      rw [hstep]
      exact hget (i + 1) (by rw [List.length_cons]; omega)
    · rw [hstep]
      exact hnul

/-- **`strlen` finds the length of a string**, as an `int32`. -/
theorem strlen_of_stringAt {mem : Mem} {bytes : List (BitVec 8)} {s : BitVec 64}
    (h : StringAt mem s bytes) : strlen mem s = Int32.ofNat bytes.length := by
  have hlt := h.length_lt
  unfold strlen
  rw [scasb_of_stringAt h.get h.ne_zero h.nul (by omega)]
  refine congrArg Int32.ofBitVec (BitVec.eq_of_toNat_eq ?_)
  rw [BitVec.toNat_sub, BitVec.toNat_not, BitVec.toNat_ofNat, BitVec.toNat_ofNat]
  show (2 ^ 32 - 1 + _) % 2 ^ 32 = _
  omega

/-- The string `abcde` at 16. -/
def abcde : Mem := fun a =>
  ([0x61, 0x62, 0x63, 0x64, 0x65] : List (BitVec 8)).getD (a - 16).toNat 0

theorem abcde_stringAt : StringAt abcde 16 [0x61, 0x62, 0x63, 0x64, 0x65] where
  length_lt := by decide
  get := by decide
  ne_zero := by decide
  nul := by decide

end Lib
end OSLib
