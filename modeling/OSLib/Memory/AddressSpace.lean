import OSLib.Memory.LowZone

/-!
# The address space of the kernel

`head.sx` maps low memory and the frame buffer twice, at 0 and at the start of the upper half.
`init_memory` ends with a loop that zeroes the first ten entries of the `PML4`.  It stores them
through `Phy_To_Virt`, that is, through the tables that it changes.

`clearLowEntries_maps` says what is left: nothing of the lower half, and all of the upper one as it
was, so that every byte the kernel reaches is mapped twice before and once after it.

## The loop goes through what it changes

A turn of the loop translates the address of an entry and then stores to it, so that whether the
next turn can be made is a question about the tables that this one has left.  The invariant is that
the entry of the upper half, and the tables behind it, are as `head.sx` has them.  The ten entries
are in the page of the `PML4` but none of them is the one of the upper half, number 256, and that
carries the loop.

## Left out

The accessed and dirty bits that the processor sets in the entries it uses are left out; no
translation depends on them.  The loop does not flush the translations that the processor keeps, so
the walk is what it finds once these are gone.
-/

namespace OSLib
namespace Memory

open Paging

/-! ## The tables of `head.sx` -/

/-- `__PML4E`, before `init_memory`. -/
def headPml4e (i : ℕ) : BitVec 64 := if i = 0 ∨ i = 256 then 0x102007 else 0

variable {m m' : PhysMem} {va : BitVec 64} {pa i : ℕ}

/-! ## The loop at the end of `init_memory` -/

/-- `*((uint64 *)Phy_To_Virt(g_cr3) + i) = 0UL`, through the tables as they are. -/
def clearEntry (m : PhysMem) (i : ℕ) : Option PhysMem :=
  (walk m bootCr3 (phyToVirt (BitVec.ofNat 64 bootCr3) + BitVec.ofNat 64 (8 * i))).map fun pa =>
    Function.update m pa 0

/-- The loop. -/
def clearLowEntries (m : PhysMem) : Option PhysMem := (List.range 10).foldlM clearEntry m

/-- The `PML4` with its first `n` entries zeroed. -/
def clearedPml4e (n i : ℕ) : BitVec 64 := if i < n then 0 else headPml4e i

theorem clearedPml4e_cases (n i : ℕ) : clearedPml4e n i = 0x102007 ∨ clearedPml4e n i = 0 := by
  unfold clearedPml4e headPml4e
  split
  · exact .inr rfl
  · split
    · exact .inl rfl
    · exact .inr rfl

/-- Where the loop stores. -/
theorem HasTables.walk_entry {n : ℕ} (h : HasTables (clearedPml4e n) m) (hn : n ≤ 256)
    (hi : i < 512) :
    walk m bootCr3 (phyToVirt (BitVec.ofNat 64 bootCr3) + BitVec.ofNat 64 (8 * i)) =
      some (bootCr3 + 8 * i) := by
  have hva : (phyToVirt (BitVec.ofNat 64 bootCr3) + BitVec.ofNat 64 (8 * i)).toNat =
      2 ^ 64 - 2 ^ 47 + (0x101000 + 8 * i) := by
    have hoff : (phyToVirt (BitVec.ofNat 64 bootCr3)).toNat = 2 ^ 64 - 2 ^ 47 + 0x101000 := by
      decide
    rw [BitVec.toNat_add, hoff, BitVec.toNat_ofNat]
    omega
  have h4 : index 4 (phyToVirt (BitVec.ofNat 64 bootCr3) + BitVec.ofNat 64 (8 * i)) = 256 := by
    simp only [index]
    omega
  have h3 : index 3 (phyToVirt (BitVec.ofNat 64 bootCr3) + BitVec.ofNat 64 (8 * i)) = 0 := by
    simp only [index]
    omega
  have h2 : index 2 (phyToVirt (BitVec.ofNat 64 bootCr3) + BitVec.ofNat 64 (8 * i)) = 0 := by
    simp only [index]
    omega
  have hpml4 : clearedPml4e n 256 = 0x102007 := if_neg (by omega)
  rw [h.walk_eq fun i _ => clearedPml4e_cases n i,
    if_pos ⟨.inr (by omega), h4 ▸ hpml4, h3, by omega⟩, target, h2,
    show frame 21 (bootPde 0) = 0 by decide]
  have hcr3 : bootCr3 = 0x101000 := rfl
  exact congrArg some (by omega)

/-- **One entry.** -/
theorem HasTables.clearEntry {n : ℕ} (h : HasTables (clearedPml4e n) m) (hn : n < 256) :
    clearEntry m n = some (Function.update m (bootCr3 + 8 * n) 0) ∧
      HasTables (clearedPml4e (n + 1)) (Function.update m (bootCr3 + 8 * n) 0) := by
  have hcr3 : bootCr3 = 0x101000 := rfl
  refine ⟨?_, fun i hi => ?_, fun i hi => ?_, fun i hi => ?_⟩
  · rw [Memory.clearEntry, h.walk_entry (Nat.le_of_lt hn) (by omega), Option.map_some]
  · by_cases hin : i = n
    · rw [hin, Function.update_self, clearedPml4e, if_pos (Nat.lt_succ_self n)]
    · rw [Function.update_of_ne (by omega), h.pml4 i hi, clearedPml4e, clearedPml4e]
      exact if_congr (by omega) rfl rfl
  · rw [Function.update_of_ne (by omega), h.pdpt i hi]
  · rw [Function.update_of_ne (by omega), h.pd i hi]

/-- The first `n` rounds. -/
theorem HasTables.clearEntries (h : HasTables headPml4e m) {n : ℕ} (hn : n ≤ 256) :
    ∃ m', (List.range n).foldlM Memory.clearEntry m = some m' ∧
      HasTables (clearedPml4e n) m' ∧ ∀ a, (∀ i < n, a ≠ bootCr3 + 8 * i) → m' a = m a := by
  induction n with
  | zero => exact ⟨m, rfl, ⟨h.pml4, h.pdpt, h.pd⟩, fun _ _ => rfl⟩
  | succ n ih =>
    obtain ⟨m', hrun, htables, hkept⟩ := ih (by omega)
    obtain ⟨hstep, hnext⟩ := htables.clearEntry (by omega)
    refine ⟨_, ?_, hnext, fun a ha => ?_⟩
    · rw [List.range_succ, List.foldlM_append, hrun]
      simp only [List.foldlM_cons, List.foldlM_nil, Option.bind_eq_bind, Option.bind_some, hstep,
        Option.pure_def]
    · rw [Function.update_of_ne (ha n (Nat.lt_succ_self n))]
      exact hkept a fun i hi => ha i (Nat.lt_succ_of_lt hi)

/-! ## Before and after -/

/-- Where the page directory sends the byte at an offset: 10 MiB of RAM, then the frame buffer. -/
def windowTarget (off : ℕ) : ℕ := if off < 0xa00000 then off else 0xe0000000 + (off - 0xa00000)

/-- The size of the window. -/
def windowSize : ℕ := 0x1a00000

theorem target_eq (hva : InDirectory va) : target va = windowTarget (va.toNat % 2 ^ 39) := by
  obtain ⟨h3, h2⟩ := hva
  have hframe : ∀ i < 13, frame 21 (bootPde i) =
      if i < 5 then i * 2 ^ 21 else 0xe0000000 + (i - 5) * 2 ^ 21 := by decide
  rw [target, hframe _ h2, windowTarget]
  have hi3 : va.toNat / 2 ^ 30 % 512 = 0 := h3
  have hi2 : index 2 va = va.toNat / 2 ^ 21 % 512 := rfl
  by_cases h5 : index 2 va < 5
  · rw [if_pos h5, if_pos (by omega)]
    omega
  · rw [if_neg h5, if_neg (by omega)]
    omega

/-- The window by offsets into the first 512 GiB of an entry of the `PML4`. -/
theorem inDirectory_iff_offset : InDirectory va ↔ va.toNat % 2 ^ 39 < windowSize := by
  unfold InDirectory windowSize
  simp only [index]
  omega

/-- **What is translated**, when the entries in use are among 0 and 256. -/
theorem HasTables.walk_iff (h : HasTables pml4e m)
    (hpml4 : ∀ i < 512, pml4e i = 0x102007 ∨ pml4e i = 0)
    (hused : ∀ i < 512, pml4e i = 0x102007 → i = 0 ∨ i = 256) :
    walk m bootCr3 va = some pa ↔ ∃ off < windowSize, pa = windowTarget off ∧
      (va.toNat = off ∧ pml4e 0 = 0x102007 ∨
        va.toNat = 2 ^ 64 - 2 ^ 47 + off ∧ pml4e 256 = 0x102007) := by
  have hlt := va.isLt
  have hindex : index 4 va < 512 := Nat.mod_lt _ (by decide)
  have hsize : windowSize = 0x1a00000 := rfl
  rw [h.walk_eq hpml4]
  constructor
  · intro hwalk
    split at hwalk
    · next hmap =>
      obtain ⟨hcan, h4, hwin⟩ := hmap
      have hoff := inDirectory_iff_offset.mp hwin
      refine ⟨_, hoff, (Option.some.inj hwalk).symm.trans (target_eq hwin), ?_⟩
      unfold Canonical at hcan
      rcases hused _ hindex h4 with h0 | h256
      · rw [h0] at h4
        simp only [index] at h0
        exact .inl ⟨by omega, h4⟩
      · rw [h256] at h4
        simp only [index] at h256
        exact .inr ⟨by omega, h4⟩
    · exact absurd hwalk (by simp)
  · rintro ⟨off, hoff, rfl, ⟨hva, h4⟩ | ⟨hva, h4⟩⟩
    · have hmod : va.toNat % 2 ^ 39 = off := by omega
      have h0 : index 4 va = 0 := by
        simp only [index]
        omega
      have hwin : InDirectory va := inDirectory_iff_offset.mpr (by omega)
      rw [if_pos ⟨.inl (by omega), h0 ▸ h4, hwin⟩, target_eq hwin, hmod]
    · have hmod : va.toNat % 2 ^ 39 = off := by omega
      have h256 : index 4 va = 256 := by
        simp only [index]
        omega
      have hwin : InDirectory va := inDirectory_iff_offset.mpr (by omega)
      rw [if_pos ⟨.inr (by omega), h256 ▸ h4, hwin⟩, target_eq hwin, hmod]

theorem clearedPml4e_used {n : ℕ} (h : clearedPml4e n i = 0x102007) : i = 0 ∨ i = 256 := by
  unfold clearedPml4e headPml4e at h
  split at h
  · exact absurd h (by decide)
  · split at h
    · assumption
    · exact absurd h (by decide)

/-- **The address space before the loop**: the window is mapped at 0 and at the start of the upper
half. -/
theorem HasTables.walk_head (h : HasTables headPml4e m) :
    walk m bootCr3 va = some pa ↔ ∃ off < windowSize, pa = windowTarget off ∧
      (va.toNat = off ∨ va.toNat = 2 ^ 64 - 2 ^ 47 + off) := by
  have htables : HasTables (clearedPml4e 0) m := ⟨h.pml4, h.pdpt, h.pd⟩
  rw [htables.walk_iff (fun i _ => clearedPml4e_cases 0 i) fun _ _ => clearedPml4e_used]
  have h0 : clearedPml4e 0 0 = 0x102007 := rfl
  have h256 : clearedPml4e 0 256 = 0x102007 := rfl
  simp only [h0, h256, and_true]

/-- After it, at the start of the upper half only. -/
theorem HasTables.walk_cleared (h : HasTables (clearedPml4e 10) m) :
    walk m bootCr3 va = some pa ↔ ∃ off < windowSize, pa = windowTarget off ∧
      va.toNat = 2 ^ 64 - 2 ^ 47 + off := by
  rw [h.walk_iff (fun i _ => clearedPml4e_cases 10 i) fun _ _ => clearedPml4e_used]
  have h0 : ¬ clearedPml4e 10 0 = 0x102007 := by decide
  have h256 : clearedPml4e 10 256 = 0x102007 := rfl
  simp only [h0, h256, and_true, and_false, false_or]

/-- The tables the loop leaves are those that `bootMem` starts from. -/
theorem HasTables.walk_bootMem (h : HasTables (clearedPml4e 10) m) (m₀ : PhysMem) :
    walk m bootCr3 va = walk (bootMem m₀) bootCr3 va := by
  have heq : ∀ i, clearedPml4e 10 i = bootPml4e i := by
    intro i
    unfold clearedPml4e headPml4e bootPml4e
    by_cases h10 : i < 10
    · rw [if_pos h10, if_neg (by omega)]
    · rw [if_neg h10]
      exact if_congr (by omega) rfl rfl
  have hboot : HasTables (clearedPml4e 10) (bootMem m₀) := by
    rw [funext heq]
    exact hasTables_bootMem
  rw [h.walk_eq fun i _ => clearedPml4e_cases 10 i,
    hboot.walk_eq fun i _ => clearedPml4e_cases 10 i]

/-- The window is injective. -/
theorem windowTarget_inj {off off' : ℕ} (h : windowTarget off = windowTarget off')
    (hoff : off < windowSize) (hoff' : off' < windowSize) : off = off' := by
  have hsize : windowSize = 0x1a00000 := rfl
  unfold windowTarget at h
  split at h <;> split at h <;> omega

/-- The physical memory behind the window: 10 MiB of RAM and 16 MiB of frame buffer. -/
def Reachable (pa : ℕ) : Prop := pa < 0xa00000 ∨ 0xe0000000 ≤ pa ∧ pa < 0xe1000000

theorem reachable_iff : Reachable pa ↔ ∃ off < windowSize, pa = windowTarget off := by
  have hsize : windowSize = 0x1a00000 := rfl
  constructor
  · rintro (hram | ⟨hlow, hhigh⟩)
    · exact ⟨pa, by omega, (if_pos hram).symm⟩
    · refine ⟨pa - 0xe0000000 + 0xa00000, by omega, ?_⟩
      rw [windowTarget, if_neg (by omega)]
      omega
  · rintro ⟨off, hoff, rfl⟩
    unfold Reachable windowTarget
    split <;> omega

/-- Each of these bytes is mapped twice before the loop. -/
theorem HasTables.reachable_iff_two (h : HasTables headPml4e m) :
    Reachable pa ↔ ∃ va va' : BitVec 64, va ≠ va' ∧
      ∀ v, walk m bootCr3 v = some pa ↔ v = va ∨ v = va' := by
  have hsize : windowSize = 0x1a00000 := rfl
  rw [reachable_iff]
  constructor
  · rintro ⟨off, hoff, rfl⟩
    have hlow : (BitVec.ofNat 64 off).toNat = off := by
      rw [BitVec.toNat_ofNat]
      omega
    have hhigh : (BitVec.ofNat 64 (2 ^ 64 - 2 ^ 47 + off)).toNat = 2 ^ 64 - 2 ^ 47 + off := by
      rw [BitVec.toNat_ofNat]
      omega
    refine ⟨BitVec.ofNat 64 off, BitVec.ofNat 64 (2 ^ 64 - 2 ^ 47 + off), fun heq => ?_,
      fun v => h.walk_head.trans ⟨?_, ?_⟩⟩
    · rw [heq, hhigh] at hlow
      omega
    · rintro ⟨off', hoff', htarget, hv⟩
      obtain rfl := windowTarget_inj htarget hoff hoff'
      exact hv.imp (fun hv => BitVec.eq_of_toNat_eq (hv.trans hlow.symm)) fun hv =>
        BitVec.eq_of_toNat_eq (hv.trans hhigh.symm)
    · rintro (rfl | rfl)
      · exact ⟨off, hoff, rfl, .inl hlow⟩
      · exact ⟨off, hoff, rfl, .inr hhigh⟩
  · rintro ⟨va, _, -, hiff⟩
    obtain ⟨off, hoff, hpa, -⟩ := h.walk_head.mp ((hiff va).mpr (.inl rfl))
    exact ⟨off, hoff, hpa⟩

/-- **The loop at the end of `init_memory`.**  It is started with the tables of `head.sx`, stores
through them, and changes ten entries; what is left are the tables of `bootMem`.  Before it exactly
the bytes of RAM below 10 MiB and of the frame buffer are mapped, each at two addresses; after it
each of them is mapped at one, in the upper half, the old one, and no other address is mapped to
anything. -/
theorem clearLowEntries_maps (h : HasTables headPml4e m) :
    ∃ m', clearLowEntries m = some m' ∧ (∀ a, (∀ i < 10, a ≠ bootCr3 + 8 * i) → m' a = m a) ∧
      (∀ va, walk m' bootCr3 va = walk (bootMem m) bootCr3 va) ∧
      (∀ va pa, walk m' bootCr3 va = some pa ↔
        2 ^ 47 ≤ va.toNat ∧ walk m bootCr3 va = some pa) ∧
      (∀ pa, Reachable pa ↔ ∃ va va' : BitVec 64, va ≠ va' ∧
        ∀ v, walk m bootCr3 v = some pa ↔ v = va ∨ v = va') ∧
      ∀ pa, Reachable pa ↔ ∃! va : BitVec 64, walk m' bootCr3 va = some pa := by
  obtain ⟨m', hrun, htables, hkept⟩ := h.clearEntries (n := 10) (by decide)
  have hsize : windowSize = 0x1a00000 := rfl
  refine ⟨m', hrun, hkept, fun va => htables.walk_bootMem m, fun va pa => ?_,
    fun pa => h.reachable_iff_two, fun pa => ?_⟩
  · rw [htables.walk_cleared, h.walk_head]
    constructor
    · rintro ⟨off, hoff, hpa, hva⟩
      exact ⟨by omega, off, hoff, hpa, .inr hva⟩
    · rintro ⟨hhigh, off, hoff, hpa, hva⟩
      exact ⟨off, hoff, hpa, by omega⟩
  · rw [reachable_iff]
    constructor
    · rintro ⟨off, hoff, rfl⟩
      have hnat : (BitVec.ofNat 64 (2 ^ 64 - 2 ^ 47 + off)).toNat = 2 ^ 64 - 2 ^ 47 + off := by
        rw [BitVec.toNat_ofNat]
        omega
      refine ⟨_, htables.walk_cleared.mpr ⟨off, hoff, rfl, hnat⟩, fun va hva => ?_⟩
      obtain ⟨off', hoff', htarget, hva⟩ := htables.walk_cleared.mp hva
      obtain rfl := windowTarget_inj htarget hoff hoff'
      exact BitVec.eq_of_toNat_eq (hva.trans hnat.symm)
    · rintro ⟨va, hva, -⟩
      obtain ⟨off, hoff, hpa, -⟩ := htables.walk_cleared.mp hva
      exact ⟨off, hoff, hpa⟩

/-- Memory that holds nothing but the tables. -/
def headMem : PhysMem := fun a =>
  if 0x101000 ≤ a ∧ a < 0x102000 then headPml4e ((a - 0x101000) / 8)
  else if 0x102000 ≤ a ∧ a < 0x103000 then bootPdpte ((a - 0x102000) / 8)
  else if 0x103000 ≤ a ∧ a < 0x104000 then bootPde ((a - 0x103000) / 8)
  else 0

theorem hasTables_headMem : HasTables headPml4e headMem := hasTables_of_ite headPml4e fun _ => 0

/-- The tables alone. -/
theorem headMem_maps :
    ∃ m', clearLowEntries headMem = some m' ∧
      (∀ a, (∀ i < 10, a ≠ bootCr3 + 8 * i) → m' a = headMem a) ∧
      (∀ va, walk m' bootCr3 va = walk (bootMem headMem) bootCr3 va) ∧
      (∀ va pa, walk m' bootCr3 va = some pa ↔
        2 ^ 47 ≤ va.toNat ∧ walk headMem bootCr3 va = some pa) ∧
      (∀ pa, Reachable pa ↔ ∃ va va' : BitVec 64, va ≠ va' ∧
        ∀ v, walk headMem bootCr3 v = some pa ↔ v = va ∨ v = va') ∧
      ∀ pa, Reachable pa ↔ ∃! va : BitVec 64, walk m' bootCr3 va = some pa :=
  clearLowEntries_maps hasTables_headMem

end Memory
end OSLib
