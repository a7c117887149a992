import OSLib.Loader.RootSearch

/-!
# Loading the kernel

`loader.asm` from `Label_FileName_Found` to `Label_File_Loaded`, behind the search of the root
directory (`loaderStep`).  A sector of the kernel is read to the bounce buffer at `0x7e00`, next to
the buffer of the FAT at `0x8000`, and copied byte by byte through `fs`, whose limit is 4 GiB, to
where `OffsetOfKernelFileCount` points.  Then the number of the cluster has to be in `ax` again.

The copying of a sector changes the sector at its destination only (`emits_movKernel`), so a cluster
leaves the clusters before it alone (`emits_cluster`), and by induction on the chain the whole file
is in memory (`emits_chain`).

The limit of `fs` is that of the descriptor loaded into it in protected mode, before the search, and
the code relies on the processor keeping it when it goes back to real mode.  Here a store through
`fs` has 32 bits of offset and no limit; a store through any other segment register would have one
of 64 KiB.  The console output of the loop is a step that leaves memory alone and `ax` unknown.

## Memory

A sector is written three times on its way: to the bounce buffer by the BIOS, byte by byte to its
place, and under both the sectors of the FAT come to their own buffer.  The three places are apart,
`0x7e00`, `0x100000` and up, and `0x8000`, and the statement about a cluster is about the addresses
from the kernel on only (`LoadsAt`), where the first and the last do not show.
-/

namespace OSLib
namespace Loader

open Bytes Fat12 RealMode Cpu

variable (e : Env)

/-! ## The blocks -/

/-- `BaseOfKernelFile`. -/
def baseOfKernelFile : BitVec 16 := 0x00

/-- `BaseTmpOfKernelAddr`. -/
def baseTmpOfKernelAddr : BitVec 16 := 0x00

/-- `OffsetTmpOfKernelFile`. -/
def offsetTmpOfKernelFile : BitVec 32 := 0x7e00

/-- The address of a byte, with an offset of 32 bits. -/
def address (seg : BitVec 16) (offset : BitVec 32) : ℕ := seg.toNat * 16 + offset.toNat

/-- `int 10h` with `ah = 0eh`; what it leaves in `ax` is not known. -/
def teletype : Instr Vars := fun s => some (s.setAx (e.axAfter s.mem s.ax))

/-- The byte `ds:esi`; the limit of `ds` is 64 KiB. -/
def sourceByte (s : State) : Option (BitVec 8) :=
  if s.esi.toNat < 2 ^ 16 then some (s.mem (address s.ds s.esi)) else none

/-- Store `al` at `fs:edi`. -/
def storeByte : Instr Vars := fun s =>
  if e.program.Occupies (address s.fs s.edi) then none
  else some { s with mem := s.mem.apply ⟨address s.fs s.edi, 1, fun _ => s.al⟩ }

/-- `Label_Go_On_Loading_File`, up to the call. -/
def labelGoOnLoadingFile : List (Instr Vars) := [
  push ax,
  push bx,
  mov setAh (imm 0x0e),
  mov setAl (imm 0x2e),
  mov setBl (imm 0x0f),
  teletype e,
  pop setBx,
  pop setAx,
  mov setCl (imm 1)]

/-- Behind the call, the registers are saved, and the loop over the bytes is set up. -/
def labelMovKernelStart : List (Instr Vars) := [
  pop setAx,
  push cx,
  push32 fun s => s.eax,
  push fun s => s.fs,
  push32 fun s => s.edi,
  push fun s => s.ds,
  push32 fun s => s.esi,
  mov setCx (imm 0x200),
  mov setAx (imm baseOfKernelFile),
  mov setFs ax,
  load setEdi (e.get Vars.offsetOfKernelFileCount),
  mov setAx (imm baseTmpOfKernelAddr),
  mov setDs ax,
  mov setEsi (imm offsetTmpOfKernelFile)]

/-- `Label_Mov_Kernel`, up to the jump of `loop`. -/
def labelMovKernel : List (Instr Vars) := [
  load setAl sourceByte,
  storeByte e,
  mov setEsi fun s => s.esi + 1,
  mov setEdi fun s => s.edi + 1,
  mov setCx fun s => s.cx - 1]

/-- Behind the loop, up to the call of `Func_GetFATEntry`. -/
def labelMovKernelEnd : List (Instr Vars) := [
  mov setEax (imm 0x1000),
  mov setDs fun s => lo s.eax,
  fun s => e.set (fun v => { v with offsetOfKernelFileCount := s.edi }) s,
  pop32 setEsi,
  pop setDs,
  pop32 setEdi,
  pop setFs,
  pop32 setEax,
  pop setCx]

/-- Behind the call of `Func_GetFATEntry`, where there is another cluster. -/
def nextCluster : List (Instr Vars) := [
  push ax,
  mov setDx (imm (BitVec.ofNat 16 rootDirSectors)),
  mov setAx fun s => s.ax + s.dx,
  mov setAx fun s => s.ax + sectorBalance]

/-- One block of the search and the loading; there is no step at `Label_File_Loaded`. -/
def loaderStep : Config → Option Config
  | (.fileNameFound, s) => goto .goOnLoadingFile (exec (fileNameFound e) s)
  | (.goOnLoadingFile, s) => goto .movKernel (exec
      (labelGoOnLoadingFile e ++ (call (funcReadOneSector e) :: labelMovKernelStart e)) s)
  | (.movKernel, s) => (exec (labelMovKernel e) s).map fun s =>
      (if s.cx = 0 then .movKernelEnd else .movKernel, s)
  | (.movKernelEnd, s) => goto .getFATEntry (exec (labelMovKernelEnd e) s)
  | (.getFATEntry, s) => (call (funcGetFATEntry e) s).bind fun s =>
      if s.ax = 0x0fff then some (.fileLoaded, s) else goto .goOnLoadingFile (exec nextCluster s)
  | c => searchStep e c

/-! ## The copying of a sector -/

variable {e} {s t : State} {v m m' : Bytes} {c d i j k n o : ℕ} {l : List ℕ}

/-- The program makes the steps of the search. -/
theorem loaderStep_of_searchStep {a b : Config} (h : searchStep e a = some b) :
    loaderStep e a = some b := by
  obtain ⟨l, s⟩ := a
  cases l
  case fileNameFound | goOnLoadingFile | movKernel | movKernelEnd | getFATEntry => cases h
  all_goals exact h

/-- A step of the loading, of which nothing is seen. -/
theorem emits_loaderStep {l : Label} {b : Config} (h : loaderStep e (l, s) = some b)
    (hl : l ≠ .getFATEntry) : Emits (loaderStep e) askedFor (l, s) [] b := by
  refine .silent h ?_
  cases l
  case getFATEntry => exact absurd rfl hl
  all_goals rfl

theorem toNat_ofNat32_of_lt {a : ℕ} (ha : a < 2 ^ 32) : (BitVec.ofNat 32 a).toNat = a := by
  rw [BitVec.toNat_ofNat, Nat.mod_eq_of_lt ha]

theorem address_zero (a : BitVec 32) : address 0x0000 a = a.toNat := by
  rw [address]
  exact Nat.zero_add _

/-- One byte is copied. -/
theorem exec_labelMovKernel (hprogram : e.program = .loader) (hds : s.ds = 0x0000)
    (hfs : s.fs = 0x0000) (hesi : s.esi.toNat < 2 ^ 16) (hedi : 0x20000 ≤ s.edi.toNat) :
    exec (labelMovKernel e) s = some { s with
      eax := withLo s.eax (withLoByte s.ax (s.mem s.esi.toNat))
      cx := s.cx - 1
      esi := s.esi + 1
      edi := s.edi + 1
      mem := s.mem.apply ⟨s.edi.toNat, 1, fun _ => s.mem s.esi.toNat⟩ } := by
  have hsource : sourceByte s = some (s.mem s.esi.toNat) := by
    rw [sourceByte, if_pos hesi, hds, address_zero]
  have hload : load setAl sourceByte s = some (s.setAl (s.mem s.esi.toNat)) := by
    rw [load, hsource, Option.map_some]
  have hplace : address s.fs s.edi = s.edi.toNat := by rw [hfs, address_zero]
  have hfree : ¬ e.program.Occupies (address (s.setAl (s.mem s.esi.toNat)).fs
      (s.setAl (s.mem s.esi.toNat)).edi) := by
    rw [hprogram]
    rintro ⟨-, hlt⟩
    exact absurd (hplace ▸ hlt) (Nat.not_lt_of_le hedi)
  have hstore : storeByte e (s.setAl (s.mem s.esi.toNat)) = _ := if_neg hfree
  rw [labelMovKernel, exec_cons_of_eq hload, exec_cons_of_eq hstore]
  simp [hplace]

/-- Memory after the bytes of the bounce buffer from `j` on have been copied to `d`. -/
def copied (m : Bytes) (d j : ℕ) : Bytes := fun a =>
  if d + j ≤ a ∧ a < d + 512 then m (0x7e00 + (a - d)) else m a

theorem copied_end (m : Bytes) (d : ℕ) : copied m d 512 = m := by
  funext a
  rw [copied, if_neg (by omega)]

/-- The first byte, and the bytes behind it. -/
theorem copied_apply (m : Bytes) (hj : j < 512) (hd : 0x20000 ≤ d) :
    copied (m.apply ⟨d + j, 1, fun _ => m (0x7e00 + j)⟩) d (j + 1) = copied m d j := by
  funext a
  have hsource : ∀ i < 512, m.apply ⟨d + j, 1, fun _ => m (0x7e00 + j)⟩ (0x7e00 + i) =
      m (0x7e00 + i) := by
    intro i hi
    refine apply_of_not_covers fun h => ?_
    have hge : d + j ≤ 0x7e00 + i := h.1
    omega
  rw [copied, copied]
  rcases Nat.lt_trichotomy a (d + j) with hlt | rfl | hgt
  · rw [if_neg (by omega), if_neg (by omega)]
    exact apply_of_not_covers fun h => absurd h.1 (Nat.not_le_of_lt hlt)
  · rw [if_neg (by omega), if_pos (by omega), Nat.add_sub_cancel_left]
    exact apply_of_covers ⟨Nat.le_refl _, Nat.lt_succ_self _⟩
  · by_cases hend : a < d + 512
    · rw [if_pos (by omega), if_pos (by omega), hsource _ (by omega)]
    · rw [if_neg (by omega), if_neg (by omega)]
      refine apply_of_not_covers fun h => ?_
      have hlast : a < d + j + 1 := h.2
      omega

/-- One byte is copied, and the loop goes on while there are others. -/
theorem loaderStep_movKernel (hprogram : e.program = .loader) (hj : j + (k + 1) = 512)
    (hd : 0x20000 ≤ d) (hlast : d + 512 < 2 ^ 32) (hds : s.ds = 0x0000) (hfs : s.fs = 0x0000)
    (hesi : s.esi = BitVec.ofNat 32 (0x7e00 + j)) (hedi : s.edi = BitVec.ofNat 32 (d + j))
    (hcx : s.cx = BitVec.ofNat 16 (k + 1)) :
    loaderStep e (.movKernel, s) = some (if k = 0 then .movKernelEnd else .movKernel, { s with
      eax := withLo s.eax (withLoByte s.ax (s.mem (0x7e00 + j)))
      cx := BitVec.ofNat 16 k
      esi := BitVec.ofNat 32 (0x7e00 + (j + 1))
      edi := BitVec.ofNat 32 (d + (j + 1))
      mem := s.mem.apply ⟨d + j, 1, fun _ => s.mem (0x7e00 + j)⟩ }) := by
  have hsource : s.esi.toNat = 0x7e00 + j := by rw [hesi, toNat_ofNat32_of_lt (by omega)]
  have hdest : s.edi.toNat = d + j := by rw [hedi, toNat_ofNat32_of_lt (by omega)]
  have hcx' : s.cx - 1 = BitVec.ofNat 16 k := by
    rw [hcx, BitVec.ofNat_add]
    exact BitVec.add_sub_cancel _ _
  have hesi' : s.esi + 1 = BitVec.ofNat 32 (0x7e00 + (j + 1)) := by
    rw [hesi]
    exact (BitVec.ofNat_add _ 1).symm
  have hedi' : s.edi + 1 = BitVec.ofNat 32 (d + (j + 1)) := by
    rw [hedi]
    exact (BitVec.ofNat_add _ 1).symm
  have hdone : BitVec.ofNat 16 k = 0 ↔ k = 0 := by
    rw [← BitVec.toNat_inj, toNat_ofNat_of_lt (by omega)]
    rfl
  have hexec := exec_labelMovKernel (e := e) hprogram hds hfs (by omega) (by omega)
  rw [hsource, hdest, hcx', hesi', hedi'] at hexec
  rw [loaderStep, hexec, Option.map_some]
  simp only [hdone]

/-- **The loop over the bytes of a sector**, at byte `j`. -/
theorem emits_movKernel (hprogram : e.program = .loader) (hj : j + (k + 1) = 512)
    (hd : 0x20000 ≤ d) (hlast : d + 512 < 2 ^ 32) (hds : s.ds = 0x0000) (hfs : s.fs = 0x0000)
    (hesi : s.esi = BitVec.ofNat 32 (0x7e00 + j)) (hedi : s.edi = BitVec.ofNat 32 (d + j))
    (hcx : s.cx = BitVec.ofNat 16 (k + 1)) :
    ∃ eax cx esi, Emits (loaderStep e) askedFor (.movKernel, s) [] (.movKernelEnd, { s with
      eax := eax, cx := cx, esi := esi, edi := BitVec.ofNat 32 (d + 512),
      mem := copied s.mem d j }) := by
  induction k generalizing j s with
  | zero =>
    have hstep := loaderStep_movKernel hprogram hj hd hlast hds hfs hesi hedi hcx
    obtain rfl : j = 511 := by omega
    rw [if_pos rfl] at hstep
    rw [← copied_apply s.mem (by omega) hd, copied_end]
    exact ⟨_, _, _, emits_loaderStep hstep (by decide)⟩
  | succ k ih =>
    have hstep := loaderStep_movKernel hprogram hj hd hlast hds hfs hesi hedi hcx
    rw [if_neg (Nat.succ_ne_zero k)] at hstep
    obtain ⟨eax, cx, esi, hrun⟩ := ih (j := j + 1) (s := { s with
      eax := withLo s.eax (withLoByte s.ax (s.mem (0x7e00 + j)))
      cx := BitVec.ofNat 16 (k + 1)
      esi := BitVec.ofNat 32 (0x7e00 + (j + 1))
      edi := BitVec.ofNat 32 (d + (j + 1))
      mem := s.mem.apply ⟨d + j, 1, fun _ => s.mem (0x7e00 + j)⟩ }) (by omega) hds hfs rfl rfl rfl
    rw [copied_apply s.mem (by omega) hd] at hrun
    exact ⟨eax, cx, esi, (emits_loaderStep hstep (by decide)).trans hrun⟩

/-! ## A cluster -/

/-- The dot is printed, and a sector is asked for. -/
theorem exec_labelGoOnLoadingFile (s : State) :
    exec (labelGoOnLoadingFile e) s = some { s with cx := withLoByte s.cx 1 } := by
  simp [labelGoOnLoadingFile, teletype]

/-- The registers that are saved before the loop, and the number of the cluster among them. -/
theorem exec_labelMovKernelStart {w : BitVec 16} {r : List Slot} (hds : s.ds = e.program.segment)
    (hstack : s.stack = .word w :: r) : exec (labelMovKernelStart e) s = some { s with
      eax := withLo s.eax 0
      cx := 0x200
      esi := 0x7e00
      edi := s.vars.offsetOfKernelFileCount
      ds := 0x0000
      fs := 0x0000
      stack := .word (lo s.esi) :: .word (hi s.esi) :: .word s.ds :: .word (lo s.edi) ::
        .word (hi s.edi) :: .word s.fs :: .word w :: .word (hi s.eax) :: .word s.cx :: r } := by
  simp [labelMovKernelStart, get_eq, hds, hstack, baseOfKernelFile, baseTmpOfKernelAddr,
    offsetTmpOfKernelFile]

/-- They are restored in the opposite order. -/
theorem exec_labelMovKernelEnd (w cx fs : BitVec 16) (eax esi edi : BitVec 32) (r : List Slot)
    (hprogram : e.program = .loader)
    (hstack : s.stack = .word (lo esi) :: .word (hi esi) :: .word 0x1000 :: .word (lo edi) ::
      .word (hi edi) :: .word fs :: .word w :: .word (hi eax) :: .word cx :: r) :
    exec (labelMovKernelEnd e) s = some { s with
      eax := withLo eax w
      cx := cx
      esi := esi
      edi := edi
      ds := 0x1000
      fs := fs
      stack := r
      vars := { s.vars with offsetOfKernelFileCount := s.edi } } := by
  have hsegment : lo 0x1000#32 = e.program.segment := by
    rw [hprogram]
    rfl
  simp [labelMovKernelEnd, set_eq, hsegment, hstack, hi_append_lo, withLo]

theorem spares_bounce : Program.loader.Spares 0x7e00 512 := by
  rintro o ho ⟨hge, -⟩
  omega

/-- The state where cluster `c` is loaded next, after `n` others. -/
structure AtCluster (n c : ℕ) (s : State) : Prop where
  ds : s.ds = 0x1000
  es : s.es = 0x0000
  bx : s.bx = 0x7e00
  ax : s.ax = BitVec.ofNat 16 (c + 31)
  pushed : ∃ r, s.stack = .word (BitVec.ofNat 16 c) :: r
  offset : s.vars.offsetOfKernelFileCount = BitVec.ofNat 32 (0x100000 + 512 * n)

/-- The state with a number in `ax` after `n` clusters: the entry of the cluster is asked for, or
the number is the entry that was found. -/
structure WithNumber (n c : ℕ) (s : State) : Prop where
  ds : s.ds = 0x1000
  es : s.es = 0x0000
  bx : s.bx = 0x7e00
  ax : s.ax = BitVec.ofNat 16 c
  offset : s.vars.offsetOfKernelFileCount = BitVec.ofNat 32 (0x100000 + 512 * n)

/-- **A sector is read and copied**, and the number of its cluster is in `ax` again. -/
theorem emits_copySector (hprogram : e.program = .loader) (hs : AtCluster n c s)
    (hread : readOneSector e.toBios s.mem s.ax 1 0x0000 0x7e00 = some m)
    (hlast : 0x100000 + 512 * n + 512 < 2 ^ 32) :
    ∃ t, WithNumber (n + 1) c t ∧ t.mem = copied m (0x100000 + 512 * n) 0 ∧
      Emits (loaderStep e) askedFor (.goOnLoadingFile, s) [] (.getFATEntry, t) := by
  obtain ⟨r, hstack⟩ := hs.pushed
  have hsegment : s.ds = e.program.segment := by
    rw [hs.ds, hprogram]
    rfl
  have hspares : e.program.Spares (linear s.es s.bx) 512 := by
    rw [hprogram, hs.es, hs.bx]
    exact spares_bounce
  obtain ⟨x, cx, dx, hcall⟩ := call_funcReadOneSector (e := e) (m := m)
    (s := { s with cx := withLoByte s.cx 1 }) hsegment
    (by simpa using hspares) (by simpa [hs.es, hs.bx] using hread)
  have hstart := exec_labelMovKernelStart (e := e) (w := BitVec.ofNat 16 c) (r := r) (s := { s with
    eax := withLo s.eax x
    cx := cx
    dx := dx
    mem := m }) hsegment hstack
  have hblock : loaderStep e (.goOnLoadingFile, s) = _ := congrArg (goto .movKernel)
    (((exec_append (exec_labelGoOnLoadingFile s)).trans (exec_cons_of_eq hcall)).trans hstart)
  rw [hs.offset, hs.ds] at hblock
  obtain ⟨eax, cx', esi, hloop⟩ := emits_movKernel (e := e) (j := 0) (k := 511)
    (d := 0x100000 + 512 * n) (s := { s with
      eax := withLo (withLo s.eax x) 0
      cx := 0x200
      dx := dx
      esi := 0x7e00
      edi := BitVec.ofNat 32 (0x100000 + 512 * n)
      ds := 0x0000
      fs := 0x0000
      stack := .word (lo s.esi) :: .word (hi s.esi) :: .word 0x1000 :: .word (lo s.edi) ::
        .word (hi s.edi) :: .word s.fs :: .word (BitVec.ofNat 16 c) ::
        .word (hi (withLo s.eax x)) :: .word cx :: r
      mem := m }) hprogram rfl (by omega) hlast rfl rfl rfl rfl rfl
  have hend := congrArg (goto .getFATEntry) (exec_labelMovKernelEnd (e := e) (s := { s with
      eax := eax
      cx := cx'
      dx := dx
      esi := esi
      edi := BitVec.ofNat 32 (0x100000 + 512 * n + 512)
      ds := 0x0000
      fs := 0x0000
      stack := .word (lo s.esi) :: .word (hi s.esi) :: .word 0x1000 :: .word (lo s.edi) ::
        .word (hi s.edi) :: .word s.fs :: .word (BitVec.ofNat 16 c) ::
        .word (hi (withLo s.eax x)) :: .word cx :: r
      mem := copied m (0x100000 + 512 * n) 0 })
    (BitVec.ofNat 16 c) cx s.fs (withLo s.eax x) s.esi s.edi r hprogram rfl)
  have hdone := emits_loaderStep (e := e) (l := .movKernelEnd) hend (by decide)
  refine ⟨_, ?_, ?_, (emits_loaderStep hblock (by decide)).trans (hloop.trans hdone)⟩
  · refine ⟨rfl, hs.es, hs.bx, lo_withLo _ _, ?_⟩
    rw [Nat.mul_succ, ← Nat.add_assoc]
  · rfl

/-- The sector that is read for a cluster. -/
theorem sector_eq (c : ℕ) : BitVec.ofNat 16 c + BitVec.ofNat 16 rootDirSectors + sectorBalance =
    BitVec.ofNat 16 (c + 31) := by
  have hconst : BitVec.ofNat 16 rootDirSectors + sectorBalance = BitVec.ofNat 16 31 := rfl
  rw [BitVec.add_assoc, hconst, ← BitVec.ofNat_add]

/-- What a cluster does to memory from the kernel on: its sector is in place `n`. -/
def LoadsAt (v m m' : Bytes) (n c : ℕ) : Prop :=
  ∀ a, 0x100000 ≤ a → m' a =
    if 0x100000 + 512 * n ≤ a ∧ a < 0x100000 + 512 * n + 512 then
      v (512 * bpb.sectorOf c + (a - (0x100000 + 512 * n)))
    else m a

/-- A sector of the data is read to the bounce buffer. -/
theorem readOneSector_data (h : ReadsSectors e.toBios v) (m : Bytes) (hc : bpb.IsCluster c) :
    readOneSector e.toBios m (BitVec.ofNat 16 (c + 31)) 1 0x0000 0x7e00 =
      some (m.apply ⟨0x7e00, 512, fun o => v (512 * bpb.sectorOf c + o)⟩) := by
  obtain ⟨hge, hlt⟩ := isCluster_iff.mp hc
  have hax : (BitVec.ofNat 16 (c + 31)).toNat = c + 31 := toNat_ofNat_of_lt (by omega)
  have hone : (1 : BitVec 8).toNat = 1 := rfl
  have hread := readOneSector_eq h m (BitVec.ofNat 16 (c + 31)) 1 0x0000 0x7e00
    (by rw [hax, hone]; omega) (by rw [hax, hone]; omega) (by decide)
  rw [hax, hone] at hread
  rw [sectorOf_eq hge]
  exact hread

/-- The sector that was read is copied to its place. -/
theorem loadsAt_copied (v m : Bytes) (n c a : ℕ) :
    LoadsAt v m (withFat v (copied (m.apply ⟨0x7e00, 512, fun o => v (512 * bpb.sectorOf c + o)⟩)
      (0x100000 + 512 * n) 0) a) n c := by
  intro b hb
  have hbounce : ∀ o < 512, m.apply ⟨0x7e00, 512, fun o => v (512 * bpb.sectorOf c + o)⟩
      (0x7e00 + o) = v (512 * bpb.sectorOf c + o) := by
    intro o ho
    refine (apply_of_covers ⟨Nat.le_add_right _ _, Nat.add_lt_add_left ho _⟩).trans ?_
    simp only [Nat.add_sub_cancel_left]
  have hkeep : withFat v (copied (m.apply ⟨0x7e00, 512, fun o => v (512 * bpb.sectorOf c + o)⟩)
      (0x100000 + 512 * n) 0) a b = _ := apply_buffer_of_ge (by decide) (by omega)
  rw [hkeep, copied, Nat.add_zero]
  split
  · next hplace => exact hbounce _ (by omega)
  · refine apply_of_not_covers fun hcover => ?_
    have hlt : b < 0x7e00 + 512 := hcover.2
    omega

/-- The entry of a cluster is found, and what is read lies below the kernel. -/
theorem call_funcGetFATEntry_number (h : ReadsSectors e.toBios v) (hprogram : e.program = .loader)
    (hc : bpb.IsCluster c) (hs : WithNumber n c s) :
    ∃ t, WithNumber n (bpb.fatEntry v c) t ∧ t.mem = withFat v s.mem (c * 3 / 2) ∧
      call (funcGetFATEntry e) s = some t := by
  obtain ⟨-, hlt⟩ := isCluster_iff.mp hc
  have hds : s.ds = e.program.segment := by
    rw [hs.ds, hprogram]
    rfl
  obtain ⟨cx, dx, odd, hcall⟩ := call_funcGetFATEntry h hds hs.ax (Nat.lt_trans hlt (by decide))
  refine ⟨_, ?_, ?_, hcall⟩
  · exact ⟨hs.ds, hs.es, hs.bx, lo_withLo _ _, hs.offset⟩
  · rfl

/-- The number of the next cluster is pushed. -/
theorem exec_nextCluster (hs : WithNumber n c s) :
    ∃ t, AtCluster n c t ∧ t.mem = s.mem ∧ exec nextCluster s = some t := by
  have hexec : exec nextCluster s = some { s with
      eax := withLo s.eax (s.ax + BitVec.ofNat 16 rootDirSectors + sectorBalance)
      dx := BitVec.ofNat 16 rootDirSectors
      stack := .word s.ax :: s.stack } := by
    simp [nextCluster]
  refine ⟨_, ?_, ?_, hexec⟩
  · refine ⟨hs.ds, hs.es, hs.bx, (lo_withLo _ _).trans ?_, ⟨s.stack, ?_⟩, hs.offset⟩
    · rw [hs.ax, sector_eq]
    · rw [hs.ax]
  · rfl

/-- **One cluster.**  Its sector comes to its place, and its entry of the FAT is asked for. -/
theorem emits_cluster (h : ReadsSectors e.toBios v) (hprogram : e.program = .loader)
    (hc : bpb.IsCluster c) (hn : n < 2847) (hs : AtCluster n c s) :
    ∃ t, LoadsAt v s.mem t.mem n c ∧
      (bpb.fatEntry v c ≠ 0xfff → AtCluster (n + 1) (bpb.fatEntry v c) t) ∧
      Emits (loaderStep e) askedFor (.goOnLoadingFile, s) [BitVec.ofNat 16 c]
        (if bpb.fatEntry v c = 0xfff then .fileLoaded else .goOnLoadingFile, t) := by
  obtain ⟨hge, hlt⟩ := isCluster_iff.mp hc
  have hread := readOneSector_data h s.mem hc
  rw [← hs.ax] at hread
  have hlast : 0x100000 + 512 * n + 512 < 2 ^ 32 := by omega
  obtain ⟨t, ht, hmem, hrun⟩ := emits_copySector hprogram hs hread hlast
  obtain ⟨u, hu, hmem', hcall⟩ := call_funcGetFATEntry_number h hprogram hc ht
  have hloads := loadsAt_copied v s.mem n c (c * 3 / 2)
  rw [← hmem, ← hmem'] at hloads
  have hblock : loaderStep e (.getFATEntry, t) =
      if u.ax = 0x0fff then some (.fileLoaded, u)
      else goto .goOnLoadingFile (exec nextCluster u) := by
    rw [loaderStep, hcall, Option.bind_some]
  have hmark : u.ax = 0x0fff ↔ bpb.fatEntry v c = 0xfff := by
    have hentry := bpb.fatEntry_lt v c
    rw [hu.ax, ← BitVec.toNat_inj, toNat_ofNat_of_lt (by omega)]
    rfl
  have hseen : askedFor (.getFATEntry, t) = some (BitVec.ofNat 16 c) := congrArg some ht.ax
  by_cases hlastCluster : bpb.fatEntry v c = 0xfff
  · rw [if_pos (hmark.mpr hlastCluster)] at hblock
    refine ⟨u, hloads, fun hne => absurd hlastCluster hne, ?_⟩
    rw [if_pos hlastCluster]
    exact hrun.trans (Emits.seen hblock hseen)
  · rw [if_neg (mt hmark.mp hlastCluster)] at hblock
    obtain ⟨w, hw, hmem'', hexec⟩ := exec_nextCluster hu
    rw [hexec] at hblock
    rw [← hmem''] at hloads
    refine ⟨w, hloads, fun _ => hw, ?_⟩
    rw [if_neg hlastCluster]
    exact hrun.trans (Emits.seen hblock hseen)

/-! ## The kernel -/

/-- The sectors of the clusters are in place `n` and the places behind it, and the places before are
as they were. -/
structure LoadedAt (v m m' : Bytes) (n : ℕ) (l : List ℕ) : Prop where
  before : ∀ a, 0x100000 ≤ a → a < 0x100000 + 512 * n → m' a = m a
  sectors : ∀ i (h : i < l.length), ∀ o < 512,
    m' (0x100000 + 512 * (n + i) + o) = v (512 * bpb.sectorOf l[i] + o)

theorem LoadsAt.loadedAt (h : LoadsAt v m m' n c) : LoadedAt v m m' n [c] where
  before a ha hlt := by rw [h a ha, if_neg (by omega)]
  sectors i hi o ho := by
    rw [List.length_singleton, Nat.lt_one_iff] at hi
    subst hi
    rw [Nat.add_zero, h _ (by omega), if_pos (by omega), List.getElem_cons_zero]
    congr 1
    omega

/-- A cluster and the clusters behind it. -/
theorem LoadsAt.cons {m₁ : Bytes} (h : LoadsAt v m m₁ n c) (hl : LoadedAt v m₁ m' (n + 1) l) :
    LoadedAt v m m' n (c :: l) where
  before a ha hlt := by rw [hl.before a ha (by omega), h a ha, if_neg (by omega)]
  sectors i hi o ho := by
    cases i with
    | zero =>
      rw [Nat.add_zero, hl.before _ (by omega) (by omega), h _ (by omega), if_pos (by omega),
        List.getElem_cons_zero]
      congr 1
      omega
    | succ i =>
      have hsector := hl.sectors i (Nat.lt_of_succ_lt_succ hi) o ho
      rw [List.getElem_cons_succ, ← hsector]
      congr 1
      omega

/-- **A chain** is loaded cluster by cluster, and the entry of each of them is asked for once. -/
theorem emits_chain {mark : ℕ} (h : ReadsSectors e.toBios v) (hprogram : e.program = .loader)
    (hl : bpb.Chain v c l mark) (hmark : mark = 0xfff)
    (hlen : n + l.length ≤ 2847) (hs : AtCluster n c s) :
    ∃ t, LoadedAt v s.mem t.mem n l ∧ Emits (loaderStep e) askedFor (.goOnLoadingFile, s)
      (l.map (BitVec.ofNat 16)) (.fileLoaded, t) := by
  induction hl generalizing n s with
  | last hc _ =>
    rw [List.length_singleton] at hlen
    obtain ⟨t, hload, -, hrun⟩ := emits_cluster h hprogram hc (by omega) hs
    rw [if_pos hmark] at hrun
    exact ⟨t, hload.loadedAt, hrun⟩
  | @next c e l hc hl ih =>
    rw [List.length_cons] at hlen
    -- the next cluster is not an end mark
    obtain ⟨-, hcluster⟩ := isCluster_iff.mp hl.isCluster
    have hnext : bpb.fatEntry v c ≠ 0xfff := by omega
    obtain ⟨t, hload, ht, hrun⟩ := emits_cluster h hprogram hc (by omega) hs
    obtain ⟨u, hloaded, hrest⟩ := ih hmark (by omega) (ht hnext)
    rw [if_neg hnext] at hrun
    exact ⟨u, hload.cons hloaded, hrun.append hrest⟩

/-- The program comes to the first cluster of the file. -/
theorem emits_firstCluster (h : ReadsSectors e.toBios v) (hprogram : e.program = .loader)
    (hds : s.ds = 0x1000) (hvars : s.vars = {}) (hi : FirstNamed v kernelFileName i) :
    ∃ t, AtCluster 0 (bpb.firstCluster v i) t ∧
      Emits (loaderStep e) askedFor (.startSearch, s) [] (.goOnLoadingFile, t) := by
  have hname : e.program.fileName = kernelFileName := by
    rw [hprogram]
    rfl
  rcases emits_startSearch h (by rw [hds, hprogram]; rfl) hvars with
    ⟨hnone, -⟩ | ⟨j, t, hj, hfound, hkept, hrun⟩
  · rw [hname] at hnone
    exact absurd hi.pass (hnone i hi.lt)
  · rw [hname] at hj
    obtain rfl := hj.unique hi
    have hstep : loaderStep e (.fileNameFound, t) = _ :=
      congrArg (goto .goOnLoadingFile) (exec_fileNameFound hfound)
    refine ⟨_, ?_, (hrun.mono fun _ _ => loaderStep_of_searchStep).trans
      (emits_loaderStep hstep (by decide))⟩
    refine ⟨hkept.ds.trans hds, ?_, ?_, (lo_withLo _ _).trans (sector_eq _), ⟨t.stack, rfl⟩, ?_⟩
    · rw [hprogram]
      rfl
    · rw [hprogram]
      rfl
    · refine hkept.offset.trans ?_
      rw [hvars]
      rfl

/-- **The kernel is loaded.**  On every volume with a file `KERNEL.BIN` whose chain of clusters ends
with `0xfff`, whatever its length, `loader.asm` comes to `Label_File_Loaded` with the sectors of the
file one after the other from `0x100000` on.  The entries of the FAT it asks for on the way are
those of the clusters of the file, in order, and no others. -/
theorem loader_loads_kernel (h : ReadsSectors e.toBios v) (hprogram : e.program = .loader)
    (hds : s.ds = 0x1000) (hvars : s.vars = {}) (hi : FirstNamed v kernelFileName i)
    (hl : bpb.Chain v (bpb.firstCluster v i) l 0xfff) :
    ∃ t, Emits (loaderStep e) askedFor (.startSearch, s) (l.map (BitVec.ofNat 16))
        (.fileLoaded, t) ∧
      ∀ i (h : i < l.length), ∀ o < 512,
        t.mem (0x100000 + 512 * i + o) = v (512 * bpb.sectorOf l[i] + o) := by
  have hlen : l.length ≤ 2847 := hl.length_le fun n hn => by
    obtain ⟨-, hlt⟩ := isCluster_iff.mp hn
    omega
  obtain ⟨t, ht, hstart⟩ := emits_firstCluster h hprogram hds hvars hi
  obtain ⟨u, hloaded, hrun⟩ := emits_chain h hprogram hl rfl (by omega) ht
  refine ⟨u, hstart.trans hrun, fun i hi o ho => ?_⟩
  have hsector := hloaded.sectors i hi o ho
  rwa [Nat.zero_add] at hsector

/-- A volume with `KERNEL.BIN` in the clusters 4, 2 and 3. -/
def kernelVolume : Bytes := threeClusters kernelFileName

/-- The clusters of the kernel are loaded in the order of the chain. -/
theorem kernelVolume_loaded :
    ∃ t, Emits (loaderStep (floppyEnv .loader kernelVolume)) askedFor
        (.startSearch, startState .loader) [4, 2, 3] (.fileLoaded, t) ∧
      ∀ i (h : i < [4, 2, 3].length), ∀ o < 512,
        t.mem (0x100000 + 512 * i + o) = kernelVolume (512 * bpb.sectorOf [4, 2, 3][i] + o) := by
  have hnamed : FirstNamed kernelVolume kernelFileName 0 :=
    ⟨Nat.le_refl 0, by decide, by decide, noneIn_self _ _⟩
  exact loader_loads_kernel (e := floppyEnv .loader kernelVolume) (s := startState .loader)
    (floppyBios_readsSectors kernelVolume) rfl rfl rfl hnamed (threeClusters_chain kernelFileName)

end Loader
end OSLib
