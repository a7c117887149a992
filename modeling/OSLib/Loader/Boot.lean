import Mathlib.Data.BitVec
import OSLib.Foundation.Align
import OSLib.Foundation.Fat12

/-!
# Loading the loader

`boot.asm` looks for `LOADER.BIN` in the root directory of the floppy it was booted from, reads the
clusters of the file to `0x10000` and jumps there.  A sector of the root directory, and the two
sectors of the FAT that hold an entry, are read to `0x8000`.

The destination is `es:bx` with `es` fixed, so it comes round to `0x10000` after 128 clusters, and
the file ends at an entry `0xfff`, not at any of the other end marks: `boot_loadsFile_iff`.

The registers have 16 bits; `mem` is addressed by `es * 16 + bx`.  The fields of the BPB and the
name are constants here: they are in the sector at `0x7c00`, where nothing is read to.  What int 13h
does is a parameter, and the output of int 10h is left out but for the number of dots.

## Memory and registers

The program itself is not in the model's memory, and the fields of its variables are arguments of
the functions: the loops here count in natural numbers where the code counts words of its own, and
`Routines` and `RootSearch` do the same code again with the registers, the stack and the variables
in place.  A read to memory that would cover the program is no concern of this file, because all
reads go to `0x8000` or to the segment `0x1000`.

The BIOS is asked for what its interface promises: the sectors that lie on one track, with the
buffer in one segment.  `ReadsSectors` is that promise and nothing else, so a BIOS that fails a call
from time to time, and is asked again, is among those covered; one that always fails leaves the
program where it is.

## The order of the results

`readOneSector_eq` turns the divisions of `Func_ReadOneSector` into the number of a sector, and from
there on a read is a write of the sector's bytes to memory.  `Loads` says what one cluster does to
memory from the segment of the loader on, and `Loaded` what a chain does; the induction is on the
chain, with the destination and the memory as they have become.  That the program stops after the
last cluster is in the equation for the run, which has the fuel that is left on its right side.
-/

namespace OSLib
namespace Loader

open Bytes Fat12

/-! ## The program -/

/-- The BPB of `boot.asm`. -/
def bpb : Bpb where
  bytesPerSec := 512
  secPerClus := 1
  rsvdSecCnt := 1
  numFATs := 2
  rootEntCnt := 224
  totSec16 := 2880
  fatSz16 := 9

/-- `BPB_SecPerTrk`. -/
def secPerTrk : ℕ := 18

/-- `BS_DrvNum`. -/
def drvNum : BitVec 8 := 0

/-- `BaseOfLoader`. -/
def baseOfLoader : BitVec 16 := 0x1000

/-- `OffsetOfLoader`. -/
def offsetOfLoader : BitVec 16 := 0x00

/-- `RootDirSectors`. -/
def rootDirSectors : ℕ := 14

/-- `SectorNumOfRootDirStart`. -/
def sectorNumOfRootDirStart : BitVec 16 := 19

/-- `SectorNumOfFAT1Start`. -/
def sectorNumOfFAT1Start : BitVec 16 := 1

/-- `SectorBalance`. -/
def sectorBalance : BitVec 16 := 17

/-- `LoaderFileName`, the 11 bytes of it that are compared: `LOADER  BIN`. -/
def loaderFileName : List (BitVec 8) :=
  [0x4c, 0x4f, 0x41, 0x44, 0x45, 0x52, 0x20, 0x20, 0x42, 0x49, 0x4e]

/-- The address `es:bx`. -/
def linear (es bx : BitVec 16) : ℕ := es.toNat * 16 + bx.toNat

/-- The disk service of the BIOS: what the call with `ah = 2`, made again while it returns with the
carry flag set, makes of memory, if it ever succeeds. -/
structure Bios where
  int13h (m : Bytes) (al ch cl dh dl : BitVec 8) (es bx : BitVec 16) : Option Bytes

/-- `Func_ReadOneSector`: `cl` sectors from sector `ax` on to `es:bx`.  The division faults when its
quotient has more than eight bits. -/
def readOneSector (bios : Bios) (m : Bytes) (ax : BitVec 16) (cl : BitVec 8) (es bx : BitVec 16) :
    Option Bytes :=
  if ax.toNat / secPerTrk < 256 then
    let al := BitVec.ofNat 8 (ax.toNat / secPerTrk)
    let ah := BitVec.ofNat 8 (ax.toNat % secPerTrk)
    bios.int13h m cl (al >>> 1) (ah + 1) (al &&& 1) drvNum es bx
  else none

/-- `Label_Cmp_FileName`: compares the rest of the name with the bytes from `di` on; `di` stays at
the first that differs. -/
def cmpFileName (m : Bytes) : List (BitVec 8) → BitVec 16 → Bool × BitVec 16
  | [], di => (true, di)
  | c :: name, di => if c = m (linear 0 di) then cmpFileName m name (di + 1) else (false, di)

/-- `Label_Search_For_LoaderBin`: the next `dx` entries from `di` on. -/
def searchForLoaderBin (m : Bytes) : ℕ → BitVec 16 → Option (BitVec 16)
  | 0, _ => none
  | dx + 1, di =>
    let r := cmpFileName m loaderFileName di
    if r.1 then some r.2 else searchForLoaderBin m dx ((r.2 &&& 0xffe0) + 0x20)

/-- Where the search for the name ends. -/
inductive Search where
  /-- At `Label_FileName_Found`, with `di` in the entry. -/
  | found (m : Bytes) (di : BitVec 16)
  /-- At `Label_No_LoaderBin`, which prints a message and goes no further. -/
  | noLoaderBin
  /-- A sector cannot be read. -/
  | stuck

/-- `Label_Search_In_Root_Dir_Begin`, with `RootDirSizeForLoop` and `SectorNo`. -/
def searchInRootDir (bios : Bios) : ℕ → BitVec 16 → Bytes → Search
  | 0, _, _ => .noLoaderBin
  | n + 1, sectorNo, m =>
    match readOneSector bios m sectorNo 1 0x0000 0x8000 with
    | none => .stuck
    | some m =>
      match searchForLoaderBin m 0x10 0x8000 with
      | some di => .found m di
      | none => searchInRootDir bios n (sectorNo + 1) m

/-- `Func_GetFATEntry`: the entry of cluster `ax`.  The first division faults when its quotient has
more than 16 bits. -/
def getFATEntry (bios : Bios) (m : Bytes) (ax : BitVec 16) : Option (Bytes × BitVec 16) :=
  let dxax := ax.toNat * 3
  if dxax / 2 < 2 ^ 16 then
    let odd := dxax % 2
    let offset := BitVec.ofNat 16 (dxax / 2)
    match readOneSector bios m (offset / 512 + sectorNumOfFAT1Start) 2 0x0000 0x8000 with
    | none => none
    | some m =>
      let ax := m.word (linear 0x0000 (0x8000 + offset % 512)) 16
      let ax := if odd = 1 then ax >>> 4 else ax
      some (m, ax &&& 0x0fff)
  else none

/-- What becomes of the program. -/
inductive Outcome where
  /-- It jumps to the loader, after that many dots. -/
  | jumps (m : Bytes) (dots : ℕ)
  | noLoaderBin
  /-- It is stuck, or still loading after as many clusters as asked for. -/
  | stuck

/-- `Label_Go_On_Loading_File`, for at most `fuel` clusters: `ax` is the cluster on top of the
stack, of which a sector is read to `es:bx`. -/
def goOnLoadingFile (bios : Bios) : ℕ → Bytes → BitVec 16 → BitVec 16 → ℕ → Outcome
  | 0, _, _, _, _ => .stuck
  | fuel + 1, m, ax, bx, dots =>
    let sector := ax + BitVec.ofNat 16 rootDirSectors + sectorBalance
    match readOneSector bios m sector 1 baseOfLoader bx with
    | none => .stuck
    | some m =>
      match getFATEntry bios m ax with
      | none => .stuck
      | some (m, ax) =>
        if ax = 0x0fff then .jumps m (dots + 1)
        else goOnLoadingFile bios fuel m ax (bx + 512) (dots + 1)

/-- The program, up to the jump to the loader. -/
def boot (bios : Bios) (fuel : ℕ) (m : Bytes) : Outcome :=
  match searchInRootDir bios rootDirSectors sectorNumOfRootDirStart m with
  | .found m di =>
    let cx := m.word (linear 0x0000 ((di &&& 0xffe0) + 0x1a)) 16
    goOnLoadingFile bios fuel m cx offsetOfLoader 0
  | .noLoaderBin => .noLoaderBin
  | .stuck => .stuck

/-! ## Reading sectors -/

/-- The number of a sector, from track, sector and head. -/
def sectorNumber (ch cl dh : BitVec 8) : ℕ :=
  (ch.toNat * 2 + dh.toNat) * secPerTrk + (cl.toNat - 1)

/-- Int 13h returns the sectors of the volume that are asked for, when they lie on one track and the
buffer in one segment. -/
def ReadsSectors (bios : Bios) (v : Bytes) : Prop :=
  ∀ (m : Bytes) (al ch cl dh : BitVec 8) (es bx : BitVec 16), 1 ≤ cl.toNat →
    cl.toNat + al.toNat ≤ secPerTrk + 1 → dh.toNat < 2 →
    sectorNumber ch cl dh + al.toNat ≤ bpb.totSec16 → bx.toNat + 512 * al.toNat ≤ 2 ^ 16 →
    bios.int13h m al ch cl dh drvNum es bx =
      some (m.apply ⟨linear es bx, 512 * al.toNat, fun o => v (512 * sectorNumber ch cl dh + o)⟩)

variable {bios : Bios} {v m m' : Bytes} {ax es bx : BitVec 16} {cl : BitVec 8}
  {a c d dots e fuel i j k n s : ℕ} {l : List ℕ}

theorem toNat_ofNat_of_lt (ha : a < 2 ^ 16) : (BitVec.ofNat 16 a).toNat = a := by
  rw [BitVec.toNat_ofNat, Nat.mod_eq_of_lt ha]

/-- **`Func_ReadOneSector` reads the sectors from `ax` on.** -/
theorem readOneSector_eq (h : ReadsSectors bios v) (m : Bytes) (ax : BitVec 16) (cl : BitVec 8)
    (es bx : BitVec 16) (htrack : ax.toNat % 18 + cl.toNat ≤ 18)
    (hlast : ax.toNat + cl.toNat ≤ 2880) (hbx : bx.toNat + 512 * cl.toNat ≤ 2 ^ 16) :
    readOneSector bios m ax cl es bx =
      some (m.apply ⟨linear es bx, 512 * cl.toNat, fun o => v (512 * ax.toNat + o)⟩) := by
  have hal : (BitVec.ofNat 8 (ax.toNat / 18)).toNat = ax.toNat / 18 := by
    rw [BitVec.toNat_ofNat, Nat.mod_eq_of_lt (by omega)]
  have hch : (BitVec.ofNat 8 (ax.toNat / 18) >>> 1).toNat = ax.toNat / 36 := by
    rw [BitVec.toNat_ushiftRight, hal, Nat.shiftRight_eq_div_pow, Nat.div_div_eq_div_mul]
  have hdh : (BitVec.ofNat 8 (ax.toNat / 18) &&& 1).toNat = ax.toNat / 18 % 2 := by
    rw [BitVec.toNat_and, hal]
    exact Nat.and_one_is_mod _
  have hcl : (BitVec.ofNat 8 (ax.toNat % 18) + 1).toNat = ax.toNat % 18 + 1 := by
    have hone : (1 : BitVec 8).toNat = 1 := rfl
    rw [BitVec.toNat_add, BitVec.toNat_ofNat, hone]
    omega
  have hsector : sectorNumber (BitVec.ofNat 8 (ax.toNat / 18) >>> 1)
      (BitVec.ofNat 8 (ax.toNat % 18) + 1) (BitVec.ofNat 8 (ax.toNat / 18) &&& 1) = ax.toNat := by
    rw [sectorNumber, hch, hdh, hcl, secPerTrk]
    omega
  have hquot : ax.toNat / secPerTrk < 256 := by
    rw [secPerTrk]
    omega
  rw [readOneSector, if_pos hquot]
  have hread := h m cl _ _ _ es bx (by rw [hcl]; omega) (by rw [hcl, secPerTrk]; omega)
    (by rw [hdh]; omega) (by rw [hsector]; exact hlast) hbx
  rw [hsector] at hread
  exact hread

/-! ## The entry of a cluster -/

theorem linear_zero (x : BitVec 16) : linear 0x0000 x = x.toNat := by
  rw [linear]
  exact Nat.zero_add _

/-- The buffer at `0x8000` is below the segment of the loader. -/
theorem apply_buffer_of_ge {data : Bytes} (hn : n ≤ 1024) (ha : 0x10000 ≤ a) :
    m.apply ⟨linear 0x0000 0x8000, n, data⟩ a = m a := by
  refine apply_of_not_covers fun h => ?_
  have hlt := h.2
  rw [linear_zero] at hlt
  have hbase : (0x8000 : BitVec 16).toNat = 0x8000 := rfl
  simp only [hbase] at hlt
  omega

/-- What was read to the buffer. -/
theorem apply_buffer {data : Bytes} {o : ℕ} (ho : o < n) :
    m.apply ⟨linear 0x0000 0x8000, n, data⟩ (0x8000 + o) = data o := by
  have hbase : linear 0x0000 0x8000 = 0x8000 := rfl
  rw [hbase, apply_of_covers ⟨Nat.le_add_right _ _, Nat.add_lt_add_left ho _⟩]
  simp only [Nat.add_sub_cancel_left]

/-- Twelve of the sixteen bits that were read. -/
theorem toNat_entry {w : ℕ} (hw : w < 2 ^ 16) (odd : ℕ) :
    ((if odd = 1 then BitVec.ofNat 16 w >>> 4 else BitVec.ofNat 16 w) &&& 0x0fff).toNat =
      if odd = 1 then w / 16 else w % 4096 := by
  have hmask : (0x0fff : BitVec 16).toNat = 2 ^ 12 - 1 := rfl
  have hofNat : (BitVec.ofNat 16 w).toNat = w := toNat_ofNat_of_lt hw
  rw [BitVec.toNat_and, hmask, Nat.and_two_pow_sub_one_eq_mod]
  split
  · rw [BitVec.toNat_ushiftRight, hofNat, Nat.shiftRight_eq_div_pow, Nat.mod_eq_of_lt (by omega)]
  · rw [hofNat]

theorem isCluster_iff : bpb.IsCluster c ↔ 2 ≤ c ∧ c < 2849 := Iff.rfl

/-- The sector with the byte of the FAT at an offset. -/
theorem toNat_fatSector (ha : a < 2 ^ 16) :
    (BitVec.ofNat 16 a / 512 + sectorNumOfFAT1Start).toNat = a / 512 + 1 := by
  have h512 : (512 : BitVec 16).toNat = 512 := rfl
  have hone : sectorNumOfFAT1Start.toNat = 1 := rfl
  rw [BitVec.toNat_add, BitVec.toNat_udiv, toNat_ofNat_of_lt ha, h512, hone,
    Nat.mod_eq_of_lt (by omega)]

/-- The place of the byte in the buffer. -/
theorem linear_fatByte (ha : a < 2 ^ 16) :
    linear 0x0000 (0x8000 + BitVec.ofNat 16 a % 512) = 0x8000 + a % 512 := by
  have h512 : (512 : BitVec 16).toNat = 512 := rfl
  have hbase : (0x8000 : BitVec 16).toNat = 0x8000 := rfl
  rw [linear_zero, BitVec.toNat_add, BitVec.toNat_umod, toNat_ofNat_of_lt ha, h512, hbase,
    Nat.mod_eq_of_lt (by omega)]

/-- Memory with two sectors of the FAT in the buffer. -/
def withFat (v m : Bytes) (a : ℕ) : Bytes :=
  m.apply ⟨linear 0x0000 0x8000, 512 * 2, fun o => v (512 * (a / 512 + 1) + o)⟩

/-- The two bytes at an offset of the FAT are in the buffer. -/
theorem leValue_withFat (v m : Bytes) (a : ℕ) :
    (withFat v m a).leValue (0x8000 + a % 512) 2 = v.leValue (512 + a) 2 := by
  refine leValue_congr fun o ho => ?_
  rw [withFat, Nat.add_assoc, apply_buffer (by omega)]
  congr 1
  omega

/-- The entries the nine sectors of the FAT have room for. -/
def fatEntries : ℕ := 3072

/-- **`Func_GetFATEntry` returns any entry of the FAT**, and reads to the buffer only. -/
theorem getFATEntry_of_lt (h : ReadsSectors bios v) (m : Bytes) (hc : c < fatEntries) :
    getFATEntry bios m (BitVec.ofNat 16 c) =
      some (withFat v m (c * 3 / 2), BitVec.ofNat 16 (bpb.fatEntry v c)) := by
  have hlt : c < 3072 := hc
  have hax : (BitVec.ofNat 16 c).toNat = c := toNat_ofNat_of_lt (by omega)
  have hoffset : c * 3 / 2 < 2 ^ 16 := by omega
  have hsector := toNat_fatSector hoffset
  have htwo : (2 : BitVec 8).toNat = 2 := rfl
  have hread := readOneSector_eq h m (BitVec.ofNat 16 (c * 3 / 2) / 512 + sectorNumOfFAT1Start) 2
    0x0000 0x8000 (by rw [hsector, htwo]; omega) (by rw [hsector, htwo]; omega) (by decide)
  rw [hsector, htwo] at hread
  rw [getFATEntry]
  simp only [hax]
  rw [if_pos hoffset, hread]
  simp only [linear_fatByte hoffset]
  refine congrArg some (congrArg (Prod.mk _) (BitVec.eq_of_toNat_eq ?_))
  have hentry : (BitVec.ofNat 16 (bpb.fatEntry v c)).toNat = bpb.fatEntry v c :=
    toNat_ofNat_of_lt (by have := bpb.fatEntry_lt v c; omega)
  have hword : (withFat v m (c * 3 / 2)).leValue (0x8000 + c * 3 / 2 % 512) 2 =
      v.leValue (512 + (c + c / 2)) 2 := by
    rw [leValue_withFat, show c * 3 / 2 = c + c / 2 by omega]
  have hodd : (c * 3 % 2 = 1) = (c % 2 = 1) := by
    rw [eq_iff_iff]
    omega
  rw [← withFat, word, hword, toNat_entry (leValue_lt _ _ 2), hentry]
  simp only [hodd]
  rfl

/-- The entry of a cluster is found, and what is read lies below the segment of the loader. -/
theorem getFATEntry_eq (h : ReadsSectors bios v) (m : Bytes) (hc : bpb.IsCluster c) :
    ∃ m', getFATEntry bios m (BitVec.ofNat 16 c) =
        some (m', BitVec.ofNat 16 (bpb.fatEntry v c)) ∧ ∀ a, 0x10000 ≤ a → m' a = m a := by
  obtain ⟨-, hlt⟩ := isCluster_iff.mp hc
  have hentries : c < fatEntries := Nat.lt_trans hlt (by decide)
  exact ⟨_, getFATEntry_of_lt h m hentries, fun a ha => apply_buffer_of_ge (by decide) ha⟩

/-! ## The search -/

theorem ofNat_add_one (a : ℕ) : BitVec.ofNat 16 a + 1 = BitVec.ofNat 16 (a + 1) :=
  (BitVec.ofNat_add a 1).symm

/-- **The comparison of a name** with the bytes from `a` on; `di` stays within its length. -/
theorem cmpFileName_eq (m : Bytes) (name : List (BitVec 8)) (ha : a + name.length < 2 ^ 16) :
    ∃ k ≤ name.length, cmpFileName m name (BitVec.ofNat 16 a) =
      (decide (∀ k (h : k < name.length), m (a + k) = name[k]), BitVec.ofNat 16 (a + k)) := by
  induction name generalizing a with
  | nil => exact ⟨0, Nat.le_refl 0, by simp [cmpFileName]⟩
  | cons c name ih =>
    rw [List.length_cons] at ha
    have hsplit : (∀ k (h : k < (c :: name).length), m (a + k) = (c :: name)[k]) ↔
        c = m a ∧ ∀ k (h : k < name.length), m (a + 1 + k) = name[k] := by
      constructor
      · intro h
        refine ⟨(h 0 (Nat.succ_pos _)).symm, fun k hk => ?_⟩
        rw [Nat.add_assoc, Nat.add_comm 1 k]
        exact h (k + 1) (Nat.succ_lt_succ hk)
      · rintro ⟨h0, h⟩ k hk
        cases k with
        | zero => exact h0.symm
        | succ k =>
          have hrest := h k (Nat.lt_of_succ_lt_succ hk)
          rwa [Nat.add_assoc, Nat.add_comm 1 k] at hrest
    rw [cmpFileName, linear_zero, toNat_ofNat_of_lt (by omega), ofNat_add_one]
    by_cases hc : c = m a
    · obtain ⟨k, hk, hcmp⟩ := ih (a := a + 1) (by omega)
      refine ⟨k + 1, Nat.succ_le_succ hk, ?_⟩
      rw [if_pos hc, hcmp, Nat.add_assoc, Nat.add_comm 1 k]
      exact congrArg (·, _) (decide_eq_decide.mpr (by rw [hsplit, and_iff_right hc]))
    · refine ⟨0, Nat.zero_le _, ?_⟩
      rw [if_neg hc, Nat.add_zero]
      refine congrArg (·, _) (Eq.symm (decide_eq_false fun h => hc (hsplit.mp h).1))

/-- The start of the entry `di` is in. -/
theorem and_entry (hj : j ≤ 16) (hk : k < 32) :
    BitVec.ofNat 16 (0x8000 + 32 * j + k) &&& 0xffe0 = BitVec.ofNat 16 (0x8000 + 32 * j) := by
  have hmask : (0xffe0 : BitVec 16) = ~~~BitVec.ofNat 16 (2 ^ 5 - 1) := rfl
  refine BitVec.eq_of_toNat_eq ?_
  rw [hmask, toNat_and_not_mask, toNat_ofNat_of_lt (by omega), toNat_ofNat_of_lt (by omega)]
  omega

/-- A sector of the root directory is in the buffer. -/
def Buffered (v m : Bytes) (s : ℕ) : Prop := ∀ o < 512, m (0x8000 + o) = v (512 * (19 + s) + o)

theorem dirEntry_eq (s j : ℕ) : bpb.dirEntry (16 * s + j) = 512 * (19 + s) + 32 * j := by
  have hstart : bpb.dirEntry (16 * s + j) = 512 * 19 + 32 * (16 * s + j) := rfl
  omega

/-- The name of an entry in the buffer. -/
theorem named_iff {name : List (BitVec 8)} (hlen : name.length = 11) (hm : Buffered v m s)
    (hj : j < 16) : bpb.Named v name (16 * s + j) ↔
      ∀ k (h : k < name.length), m (0x8000 + 32 * j + k) = name[k] := by
  refine forall₂_congr fun k hk => ?_
  rw [dirEntry_eq s j, Nat.add_assoc 0x8000, hm _ (by omega), Nat.add_assoc]

/-- **The search of a sector**, from entry `j` on: it finds the first entry with the name, or there
is none. -/
theorem searchForLoaderBin_eq (hm : Buffered v m s) (hjn : j + n = 16) :
    (searchForLoaderBin m n (BitVec.ofNat 16 (0x8000 + 32 * j)) = none ∧
      ∀ i, j ≤ i → i < 16 → ¬ bpb.Named v loaderFileName (16 * s + i)) ∨
    ∃ i di, searchForLoaderBin m n (BitVec.ofNat 16 (0x8000 + 32 * j)) = some di ∧
      di &&& 0xffe0 = BitVec.ofNat 16 (0x8000 + 32 * i) ∧ j ≤ i ∧ i < 16 ∧
      bpb.Named v loaderFileName (16 * s + i) ∧
      ∀ i', j ≤ i' → i' < i → ¬ bpb.Named v loaderFileName (16 * s + i') := by
  induction n generalizing j with
  | zero => exact Or.inl ⟨rfl, fun i h1 h2 => absurd h2 (by omega)⟩
  | succ n ih =>
    have hlen : loaderFileName.length = 11 := rfl
    obtain ⟨k, hk, hcmp⟩ := cmpFileName_eq m loaderFileName (a := 0x8000 + 32 * j) (by omega)
    have hand : BitVec.ofNat 16 (0x8000 + 32 * j + k) &&& 0xffe0 =
        BitVec.ofNat 16 (0x8000 + 32 * j) := and_entry (by omega) (by omega)
    rw [searchForLoaderBin]
    simp only [hcmp, decide_eq_true_eq, ← named_iff hlen hm (show j < 16 by omega)]
    by_cases hname : bpb.Named v loaderFileName (16 * s + j)
    · rw [if_pos hname]
      exact Or.inr ⟨j, _, rfl, hand, Nat.le_refl j, by omega, hname, fun i h1 h2 => by omega⟩
    · rw [if_neg hname, hand]
      have hnext : BitVec.ofNat 16 (0x8000 + 32 * j) + 0x20 =
          BitVec.ofNat 16 (0x8000 + 32 * (j + 1)) := (BitVec.ofNat_add _ 32).symm
      rw [hnext]
      -- the entry is not it, so the search is that of the entries behind
      have hskip {P : ℕ → Prop}
          (h : ∀ i, j + 1 ≤ i → P i → ¬ bpb.Named v loaderFileName (16 * s + i)) (i : ℕ)
          (hi : j ≤ i) (hP : P i) : ¬ bpb.Named v loaderFileName (16 * s + i) := by
        rcases Nat.eq_or_lt_of_le hi with rfl | hlt
        · exact hname
        · exact h i hlt hP
      rcases ih (j := j + 1) (by omega) with ⟨hnone, hall⟩ | ⟨i, di, hsome, hdi, h1, h2, h3, hall⟩
      · exact Or.inl ⟨hnone, hskip hall⟩
      · exact Or.inr ⟨i, di, hsome, hdi, by omega, h2, h3, hskip hall⟩

/-- The entry is the first one with the name of the loader. -/
structure RootEntry (v : Bytes) (i : ℕ) : Prop where
  lt : i < bpb.rootEntCnt
  named : bpb.Named v loaderFileName i
  first : ∀ j < i, ¬ bpb.Named v loaderFileName j

/-- A sector of the root directory is read to the buffer. -/
theorem readOneSector_root (h : ReadsSectors bios v) (m : Bytes) (hs : s < 14) :
    ∃ m', readOneSector bios m (BitVec.ofNat 16 (19 + s)) 1 0x0000 0x8000 = some m' ∧
      Buffered v m' s ∧ ∀ a, 0x10000 ≤ a → m' a = m a := by
  have hsector : (BitVec.ofNat 16 (19 + s)).toNat = 19 + s := toNat_ofNat_of_lt (by omega)
  have hone : (1 : BitVec 8).toNat = 1 := rfl
  have hread := readOneSector_eq h m (BitVec.ofNat 16 (19 + s)) 1 0x0000 0x8000
    (by rw [hsector, hone]; omega) (by rw [hsector, hone]; omega) (by decide)
  rw [hsector, hone] at hread
  exact ⟨_, hread, fun o ho => apply_buffer (by omega),
    fun a ha => apply_buffer_of_ge (by decide) ha⟩

/-- The first cluster is in the entry `di` is in. -/
theorem word_firstCluster {di : BitVec 16} (hm : Buffered v m s) (hj : j < 16)
    (hdi : di &&& 0xffe0 = BitVec.ofNat 16 (0x8000 + 32 * j)) :
    m.word (linear 0x0000 ((di &&& 0xffe0) + 0x1a)) 16 =
      BitVec.ofNat 16 (bpb.firstCluster v (16 * s + j)) := by
  have hplace : linear 0x0000 ((di &&& 0xffe0) + 0x1a) = 0x8000 + 32 * j + 26 := by
    have hadd : BitVec.ofNat 16 (0x8000 + 32 * j) + 0x1a =
        BitVec.ofNat 16 (0x8000 + 32 * j + 26) := (BitVec.ofNat_add _ 26).symm
    rw [linear_zero, hdi, hadd, toNat_ofNat_of_lt (by omega)]
  rw [hplace, word, Bpb.firstCluster, dirEntry_eq]
  refine congrArg (BitVec.ofNat 16) (leValue_congr fun o ho => ?_)
  rw [Nat.add_assoc 0x8000, Nat.add_assoc 0x8000, hm _ (by omega)]
  congr 1
  omega

/-- **The search of the root directory** ends at the entry of the loader. -/
theorem searchInRootDir_eq (h : ReadsSectors bios v) (hi : RootEntry v i) (hsn : s + n = 14)
    (hs : 16 * s ≤ i) (m : Bytes) :
    ∃ m' di, searchInRootDir bios n (BitVec.ofNat 16 (19 + s)) m = .found m' di ∧
      m'.word (linear 0x0000 ((di &&& 0xffe0) + 0x1a)) 16 =
        BitVec.ofNat 16 (bpb.firstCluster v i) ∧ ∀ a, 0x10000 ≤ a → m' a = m a := by
  induction n generalizing s m with
  | zero =>
    have hlt : i < 224 := hi.lt
    omega
  | succ n ih =>
    obtain ⟨m₁, hread, hbuf, hframe⟩ := readOneSector_root h m (show s < 14 by omega)
    have hstart : (0x8000 : BitVec 16) = BitVec.ofNat 16 (0x8000 + 32 * 0) := rfl
    -- the entry itself is not passed over
    have hpassed {j : ℕ} (hall : ∀ i', 0 ≤ i' → i' < j →
        ¬ bpb.Named v loaderFileName (16 * s + i')) : 16 * s + j ≤ i := by
      by_contra hlt
      have hno := hall (i - 16 * s) (Nat.zero_le _) (by omega)
      rw [Nat.add_sub_cancel' hs] at hno
      exact hno hi.named
    rw [searchInRootDir, hread]
    simp only
    rcases searchForLoaderBin_eq hbuf (Nat.zero_add 16) with
      ⟨hnone, hall⟩ | ⟨j, di, hsome, hdi, -, hj, hname, hall⟩
    · have hlater : 16 * (s + 1) ≤ i := hpassed hall
      rw [hstart, hnone]
      obtain ⟨m', di, hfound, hword, hframe'⟩ := ih (by omega) hlater m₁
      refine ⟨m', di, ?_, hword, fun a ha => (hframe' a ha).trans (hframe a ha)⟩
      rw [ofNat_add_one]
      exact hfound
    · have hij : i = 16 * s + j := by
        refine Nat.le_antisymm (Nat.le_of_not_lt fun hlt => ?_) (hpassed hall)
        exact hi.first _ hlt hname
      rw [hstart, hsome, hij]
      exact ⟨m₁, di, rfl, word_firstCluster hbuf hj hdi, hframe⟩

/-! ## Loading a chain -/

theorem sectorOf_eq (hc : 2 ≤ c) : bpb.sectorOf c = c + 31 := by
  have hsector : bpb.sectorOf c = 33 + (c - 2) * 1 := rfl
  omega

/-- What a cluster does to memory from the segment of the loader on: its sector is at `bx`. -/
def Loads (v m m' : Bytes) (bx c : ℕ) : Prop :=
  ∀ a, 0x10000 ≤ a → m' a =
    if 0x10000 + bx ≤ a ∧ a < 0x10000 + bx + 512 then
      v (512 * bpb.sectorOf c + (a - (0x10000 + bx)))
    else m a

/-- **One cluster.**  Its sector is read to `bx`, and then its entry of the FAT. -/
theorem goOnLoadingFile_succ (h : ReadsSectors bios v) (m : Bytes) (hc : bpb.IsCluster c)
    (hbx : bx.toNat % 512 = 0) :
    ∃ m', Loads v m m' bx.toNat c ∧ ∀ fuel dots,
      goOnLoadingFile bios (fuel + 1) m (BitVec.ofNat 16 c) bx dots =
        if bpb.fatEntry v c = 0xfff then .jumps m' (dots + 1)
        else goOnLoadingFile bios fuel m' (BitVec.ofNat 16 (bpb.fatEntry v c)) (bx + 512)
          (dots + 1) := by
  obtain ⟨hge, hlt⟩ := isCluster_iff.mp hc
  have hbxlt := bx.isLt
  have hsector : BitVec.ofNat 16 c + BitVec.ofNat 16 rootDirSectors + sectorBalance =
      BitVec.ofNat 16 (c + 31) := by
    have hconst : BitVec.ofNat 16 rootDirSectors + sectorBalance = BitVec.ofNat 16 31 := rfl
    rw [BitVec.add_assoc, hconst, ← BitVec.ofNat_add]
  have hax : (BitVec.ofNat 16 (c + 31)).toNat = c + 31 := toNat_ofNat_of_lt (by omega)
  have hone : (1 : BitVec 8).toNat = 1 := rfl
  have hread := readOneSector_eq h m (BitVec.ofNat 16 (c + 31)) 1 baseOfLoader bx
    (by rw [hax, hone]; omega) (by rw [hax, hone]; omega) (by rw [hone]; omega)
  rw [hax, hone] at hread
  obtain ⟨m', hentry, hframe⟩ := getFATEntry_eq h
    (m.apply ⟨linear baseOfLoader bx, 512 * 1, fun o => v (512 * (c + 31) + o)⟩) hc
  refine ⟨m', fun a ha => ?_, fun fuel dots => ?_⟩
  · have hbase : linear baseOfLoader bx = 0x10000 + bx.toNat := rfl
    rw [hframe a ha, sectorOf_eq hge, hbase]
    rfl
  · have hmark : BitVec.ofNat 16 (bpb.fatEntry v c) = 0x0fff ↔ bpb.fatEntry v c = 0xfff := by
      have hlt := bpb.fatEntry_lt v c
      rw [← BitVec.toNat_inj, toNat_ofNat_of_lt (by omega)]
      rfl
    rw [goOnLoadingFile]
    simp only [hsector, hread, hentry, hmark]

/-- What a chain does to memory, from `bx` on: its sectors are there one after the other, if they
fit into the segment, and nothing is written behind it. -/
structure Loaded (v m m' : Bytes) (bx : ℕ) (l : List ℕ) : Prop where
  above : ∀ a, 0x20000 ≤ a → m' a = m a
  before : bx + 512 * l.length ≤ 2 ^ 16 → ∀ a, 0x10000 ≤ a → a < 0x10000 + bx → m' a = m a
  sectors : bx + 512 * l.length ≤ 2 ^ 16 → ∀ i (h : i < l.length), ∀ o < 512,
    m' (0x10000 + bx + 512 * i + o) = v (512 * bpb.sectorOf l[i] + o)

theorem Loads.loaded (h : Loads v m m' n c) (hn : n + 512 ≤ 2 ^ 16) : Loaded v m m' n [c] where
  above a ha := by rw [h a (by omega), if_neg (by omega)]
  before _ a ha hlt := by rw [h a ha, if_neg (by omega)]
  sectors _ i hi o ho := by
    rw [List.length_singleton, Nat.lt_one_iff] at hi
    subst hi
    rw [h _ (by omega), if_pos (by omega)]
    congr 1
    have hhead : [c][0] = c := rfl
    rw [hhead]
    omega

/-- A cluster and the clusters behind it. -/
theorem Loads.cons {m₁ : Bytes} {n' : ℕ} (h : Loads v m m₁ n c) (hn : n + 512 ≤ 2 ^ 16)
    (hn' : n + 512 < 2 ^ 16 → n' = n + 512) (hl : Loaded v m₁ m' n' l) (hpos : 0 < l.length) :
    Loaded v m m' n (c :: l) where
  above a ha := by rw [hl.above a ha, h a (by omega), if_neg (by omega)]
  before hfit a ha hlt := by
    have hfit' : n + 512 + 512 * l.length ≤ 2 ^ 16 := by
      rw [List.length_cons] at hfit
      omega
    have heq := hn' (by omega)
    rw [hl.before (by omega) a ha (by omega), h a ha, if_neg (by omega)]
  sectors hfit i hi o ho := by
    have hfit' : n + 512 + 512 * l.length ≤ 2 ^ 16 := by
      rw [List.length_cons] at hfit
      omega
    have heq := hn' (by omega)
    cases i with
    | zero =>
      have hge : 0x10000 ≤ 0x10000 + n + 512 * 0 + o := by
        rw [Nat.add_assoc, Nat.add_assoc]
        exact Nat.le_add_right _ _
      rw [hl.before (by omega) _ hge (by omega), h _ hge, if_pos (by omega),
        List.getElem_cons_zero]
      congr 1
      omega
    | succ i =>
      have hi' : i < l.length := Nat.lt_of_succ_lt_succ hi
      have hsector := hl.sectors (by omega) i hi' o ho
      rw [List.getElem_cons_succ, ← hsector, heq]
      congr 1
      omega

/-- **Loading a chain.**  Its clusters are loaded one after the other; then the program jumps to the
loader if the end mark is `0xfff`, and otherwise takes the mark for one more cluster. -/
theorem goOnLoadingFile_chain (h : ReadsSectors bios v) (hl : bpb.Chain v c l e) (m : Bytes)
    {bx : BitVec 16} (hbx : bx.toNat % 512 = 0) :
    ∃ m', Loaded v m m' bx.toNat l ∧ ∀ fuel dots,
      goOnLoadingFile bios (fuel + l.length) m (BitVec.ofNat 16 c) bx dots =
        if e = 0xfff then .jumps m' (dots + l.length)
        else goOnLoadingFile bios fuel m' (BitVec.ofNat 16 e)
          (bx + BitVec.ofNat 16 (512 * l.length)) (dots + l.length) := by
  have hlt := bx.isLt
  induction hl generalizing m bx with
  | last hc _ =>
    obtain ⟨m', hload, hrun⟩ := goOnLoadingFile_succ h m hc hbx
    exact ⟨m', hload.loaded (by omega), hrun⟩
  | @next c e l hc hl ih =>
    obtain ⟨m₁, hload, hrun⟩ := goOnLoadingFile_succ h m hc hbx
    have hnext : (bx + 512).toNat = (bx.toNat + 512) % 2 ^ 16 := BitVec.toNat_add _ _
    have hbx' : (bx + 512).toNat % 512 = 0 := by
      rw [hnext]
      omega
    obtain ⟨m', hloaded, hchain⟩ := ih m₁ hbx' (bx + 512).isLt
    -- the next cluster is not an end mark
    obtain ⟨-, hcluster⟩ := isCluster_iff.mp hl.isCluster
    refine ⟨m', hload.cons (by omega) (fun hroom => ?_) hloaded hl.length_pos, fun fuel dots => ?_⟩
    · rw [hnext, Nat.mod_eq_of_lt hroom]
    have hfuel : fuel + (c :: l).length = fuel + l.length + 1 := rfl
    have hoffset : bx + 512 + BitVec.ofNat 16 (512 * l.length) =
        bx + BitVec.ofNat 16 (512 * (l.length + 1)) := by
      rw [BitVec.add_assoc, Nat.mul_succ, Nat.add_comm (512 * l.length), BitVec.ofNat_add]
      rfl
    rw [hfuel, hrun, if_neg (by omega), hchain, hoffset, List.length_cons, Nat.add_assoc dots,
      Nat.add_comm 1]

/-- With more fuel the program jumps with the same memory. -/
theorem goOnLoadingFile_mono (hrun : goOnLoadingFile bios fuel m ax bx dots = .jumps m' d) (k : ℕ) :
    goOnLoadingFile bios (fuel + k) m ax bx dots = .jumps m' d := by
  induction fuel generalizing m ax bx dots with
  | zero =>
    rw [goOnLoadingFile] at hrun
    cases hrun
  | succ fuel ih =>
    have hfuel : fuel + 1 + k = fuel + k + 1 := by omega
    rw [goOnLoadingFile] at hrun
    rw [hfuel, goOnLoadingFile]
    cases hread : readOneSector bios m (ax + BitVec.ofNat 16 rootDirSectors + sectorBalance) 1
        baseOfLoader bx with
    | none => rw [hread] at hrun; cases hrun
    | some m₁ =>
      rw [hread] at hrun
      simp only at hrun ⊢
      cases hentry : getFATEntry bios m₁ ax with
      | none => rw [hentry] at hrun; cases hrun
      | some r =>
        rw [hentry] at hrun
        simp only at hrun ⊢
        split
        · next hmark => rwa [if_pos hmark] at hrun
        · next hmark =>
          rw [if_neg hmark] at hrun
          exact ih hrun

/-- Every cluster that is loaded is a dot. -/
theorem lt_of_goOnLoadingFile (hrun : goOnLoadingFile bios fuel m ax bx dots = .jumps m' d) :
    dots < d := by
  induction fuel generalizing m ax bx dots with
  | zero =>
    rw [goOnLoadingFile] at hrun
    cases hrun
  | succ fuel ih =>
    rw [goOnLoadingFile] at hrun
    split at hrun
    · cases hrun
    · split at hrun
      · cases hrun
      · split at hrun
        · cases hrun
          exact Nat.lt_succ_self dots
        · have hlt := ih hrun
          omega

/-! ## The whole program -/

/-- The program stops after the last cluster, and the sectors of the chain are in memory one after
the other from `0x10000` on. -/
def LoadsFile (bios : Bios) (v m : Bytes) (l : List ℕ) : Prop :=
  ∃ fuel m', boot bios fuel m = .jumps m' l.length ∧
    ∀ i (h : i < l.length), ∀ o < 512, m' (0x10000 + 512 * i + o) = v (512 * bpb.sectorOf l[i] + o)

/-- **What the program does with a file.** -/
theorem boot_chain (h : ReadsSectors bios v) (hi : RootEntry v i)
    (hl : bpb.Chain v (bpb.firstCluster v i) l e) (m : Bytes) :
    ∃ m', Loaded v m m' 0 l ∧ ∀ fuel, boot bios (fuel + l.length) m =
      if e = 0xfff then .jumps m' l.length
      else goOnLoadingFile bios fuel m' (BitVec.ofNat 16 e) (BitVec.ofNat 16 (512 * l.length))
        l.length := by
  obtain ⟨m₁, di, hfound, hword, hframe⟩ := searchInRootDir_eq h hi (Nat.zero_add 14)
    (Nat.zero_le i) m
  have haligned : offsetOfLoader.toNat % 512 = 0 := rfl
  obtain ⟨m', hloaded, hchain⟩ := goOnLoadingFile_chain h hl m₁ haligned
  refine ⟨m', ⟨fun a ha => ?_, fun _ a ha hlt => ?_, hloaded.sectors⟩, fun fuel => ?_⟩
  · rw [hloaded.above a ha, hframe a (by omega)]
  · omega
  · have hrun := hchain fuel 0
    have hzero : offsetOfLoader + BitVec.ofNat 16 (512 * l.length) =
        BitVec.ofNat 16 (512 * l.length) := BitVec.zero_add _
    rw [Nat.zero_add, hzero] at hrun
    rw [boot, show rootDirSectors = 14 from rfl,
      show sectorNumOfRootDirStart = BitVec.ofNat 16 (19 + 0) from rfl, hfound]
    simp only
    rw [hword]
    exact hrun

/-- A file of at most 128 clusters with the end mark `0xfff` is loaded. -/
theorem loadsFile_of_le (h : ReadsSectors bios v) (hi : RootEntry v i)
    (hl : bpb.Chain v (bpb.firstCluster v i) l 0xfff) (hlen : l.length ≤ 128) (m : Bytes) :
    LoadsFile bios v m l := by
  obtain ⟨m', hloaded, hrun⟩ := boot_chain h hi hl m
  have hboot := hrun 0
  rw [if_pos rfl] at hboot
  refine ⟨0 + l.length, m', hboot, fun i hi o ho => ?_⟩
  have hsector := hloaded.sectors (by omega) i hi o ho
  rwa [Nat.add_zero] at hsector

theorem boot_mono (hboot : boot bios fuel m = .jumps m' d) (k : ℕ) :
    boot bios (fuel + k) m = .jumps m' d := by
  rw [boot] at hboot ⊢
  split at hboot
  · exact goOnLoadingFile_mono hboot k
  · cases hboot
  · cases hboot

/-- A file that is loaded ends with `0xfff`, and what is behind the segment of the loader is as it
was. -/
theorem mark_of_loadsFile (h : ReadsSectors bios v) (hi : RootEntry v i)
    (hl : bpb.Chain v (bpb.firstCluster v i) l e) (hload : LoadsFile bios v m l) :
    e = 0xfff ∧ ∀ i (hi : i < l.length), 128 ≤ i →
      m (0x10000 + 512 * i) = v (512 * bpb.sectorOf l[i]) := by
  obtain ⟨fuel, m', hboot, hsectors⟩ := hload
  obtain ⟨m'', hloaded, hrun⟩ := boot_chain h hi hl m
  have hmore := boot_mono hboot l.length
  rw [hrun] at hmore
  split at hmore
  · next hmark =>
    obtain ⟨rfl, -⟩ := Outcome.jumps.inj hmore
    refine ⟨hmark, fun i hi hge => ?_⟩
    have hsector := hsectors i hi 0 (by decide)
    rw [Nat.add_zero, Nat.add_zero] at hsector
    rw [← hsector, hloaded.above _ (by omega)]
  · exact absurd (lt_of_goOnLoadingFile hmore) (Nat.lt_irrefl _)

/-- **When the loader is loaded.**  For every volume of this geometry with a file `LOADER.BIN` and
its chain of clusters, whatever memory held before, the program stops after the last cluster with
the sectors of the file one after the other from `0x10000` on, exactly if the end mark is `0xfff`
and the sectors fit into 64 KiB. -/
theorem boot_loadsFile_iff (h : ReadsSectors bios v) (hi : RootEntry v i)
    (hl : bpb.Chain v (bpb.firstCluster v i) l e) :
    (∀ m, LoadsFile bios v m l) ↔ e = 0xfff ∧ 512 * l.length ≤ 0x10000 := by
  constructor
  · intro hload
    refine ⟨(mark_of_loadsFile h hi hl (hload fun _ => 0)).1, ?_⟩
    by_contra hlong
    have hlen : 128 < l.length := by omega
    -- memory that holds something else where cluster 128 belongs
    obtain ⟨-, hsame⟩ := mark_of_loadsFile h hi hl
      (hload fun _ => ~~~v (512 * bpb.sectorOf l[128]))
    exact absurd (hsame 128 hlen (Nat.le_refl 128)) (by simp)
  · rintro ⟨rfl, hlen⟩ m
    exact loadsFile_of_le h hi hl (by omega) m

/-! Two volumes. -/

/-- A BIOS with the volume in its drive. -/
def floppyBios (v : Bytes) : Bios where
  int13h m al ch cl dh _ es bx :=
    if 1 ≤ cl.toNat ∧ cl.toNat + al.toNat ≤ secPerTrk + 1 ∧ dh.toNat < 2 ∧
        sectorNumber ch cl dh + al.toNat ≤ bpb.totSec16 then
      some (m.apply ⟨linear es bx, 512 * al.toNat, fun o => v (512 * sectorNumber ch cl dh + o)⟩)
    else none

theorem floppyBios_readsSectors (v : Bytes) : ReadsSectors (floppyBios v) v :=
  fun _ _ _ _ _ _ _ hcl htrack hdh hlast _ => if_pos ⟨hcl, htrack, hdh, hlast⟩

/-- The entries of a FAT with the chain of the clusters 4, 2 and 3. -/
def chainedEntries : List (BitVec 12) := [0xff0, 0xfff, 3, 0xfff, 2]

/-- A volume with the two copies of that FAT and a file of these clusters under the name; every byte
of a sector of the data is the number of the sector. -/
def threeClusters (name : List (BitVec 8)) : Bytes := fun a =>
  if 512 ≤ a ∧ a < 512 * 19 then (Bpb.packEntries chainedEntries).getD ((a - 512) % (512 * 9)) 0
  else if 512 * 19 ≤ a ∧ a < 512 * 19 + 11 then name.getD (a - 512 * 19) 0
  else if a = 512 * 19 + 26 then 4
  else if 512 * 33 ≤ a then BitVec.ofNat 8 (a / 512)
  else 0

/-- The FAT and the first cluster do not depend on the name. -/
theorem threeClusters_chain (name : List (BitVec 8)) :
    bpb.Chain (threeClusters name) (bpb.firstCluster (threeClusters name) 0) [4, 2, 3] 0xfff := by
  have hfat : bpb.HoldsEntries (threeClusters name) chainedEntries := by
    intro o ho
    have hlt : o < 8 := ho
    have hfit : (bpb.bytesPerSec * bpb.rsvdSecCnt + o - 512) % (512 * 9) = o := by
      simp only [bpb]
      omega
    rw [threeClusters, if_pos (by simp only [bpb]; omega), hfit]
    rw [List.getD_eq_getElem?_getD, List.getElem?_eq_getElem ho, Option.getD_some]
  have hfirst : bpb.firstCluster (threeClusters name) 0 = 4 := by
    simp [Bpb.firstCluster, Bpb.dirEntry, Bpb.rootDirStart, bpb, leValue, threeClusters]
  have hentry : ∀ n (hn : n < chainedEntries.length), bpb.fatEntry (threeClusters name) n =
      chainedEntries[n].toNat := fun _ => Bpb.fatEntry_of_holdsEntries hfat
  have hfour : bpb.fatEntry (threeClusters name) 4 = 2 := hentry 4 (by decide)
  have htwo : bpb.fatEntry (threeClusters name) 2 = 3 := hentry 2 (by decide)
  have hthree : bpb.fatEntry (threeClusters name) 3 = 0xfff := hentry 3 (by decide)
  have hlast : bpb.Chain (threeClusters name) 3 [3] 0xfff := by
    rw [← hthree]
    exact .last (by decide) (by rw [hthree]; decide)
  have hsecond : bpb.Chain (threeClusters name) 2 [2, 3] 0xfff := by
    refine .next (by decide) ?_
    rwa [htwo]
  rw [hfirst]
  refine .next (by decide) ?_
  rwa [hfour]

/-- The three clusters are loaded in the order of the chain. -/
theorem threeClusters_loadsFile : RootEntry (threeClusters loaderFileName) 0 ∧
    ∀ m, LoadsFile (floppyBios (threeClusters loaderFileName)) (threeClusters loaderFileName) m
      [4, 2, 3] := by
  have hentry : RootEntry (threeClusters loaderFileName) 0 :=
    ⟨by decide, by decide, fun j hj => absurd hj (Nat.not_lt_zero j)⟩
  exact ⟨hentry, (boot_loadsFile_iff (floppyBios_readsSectors _) hentry
    (threeClusters_chain loaderFileName)).mpr ⟨rfl, by decide⟩⟩

/-- The bytes of a FAT in which cluster 2 has an end mark with the given low byte. -/
def markedFat (low : BitVec 8) : Bytes
  | 0 => 0xf0
  | 1 => 0xff
  | 2 => 0xff
  | 3 => low
  | 4 => 0x0f
  | _ => 0

/-- A volume with the two copies of that FAT and `LOADER.BIN` in cluster 2. -/
def oneCluster (low : BitVec 8) : Bytes := fun a =>
  if 512 ≤ a ∧ a < 512 * 19 then markedFat low ((a - 512) % (512 * 9))
  else if 512 * 19 ≤ a ∧ a < 512 * 19 + 11 then loaderFileName.getD (a - 512 * 19) 0
  else if a = 512 * 19 + 26 then 2
  else 0

theorem oneCluster_chain {low : BitVec 8} (hfirst : bpb.firstCluster (oneCluster low) 0 = 2)
    (hmark : bpb.fatEntry (oneCluster low) 2 = e) (he : 0xff8 ≤ e) :
    bpb.Chain (oneCluster low) (bpb.firstCluster (oneCluster low) 0) [2] e := by
  rw [hfirst, ← hmark]
  exact .last (by decide) (by rw [hmark]; exact he)

/-- **Another end mark.**  With `0xff8` it is not. -/
theorem oneCluster_not_loadsFile : ReadsSectors (floppyBios (oneCluster 0xf8)) (oneCluster 0xf8) ∧
    RootEntry (oneCluster 0xf8) 0 ∧
    bpb.Chain (oneCluster 0xf8) (bpb.firstCluster (oneCluster 0xf8) 0) [2] 0xff8 ∧
    ∀ m, ¬ LoadsFile (floppyBios (oneCluster 0xf8)) (oneCluster 0xf8) m [2] := by
  have hentry : RootEntry (oneCluster 0xf8) 0 :=
    ⟨by decide, by decide, fun j hj => absurd hj (Nat.not_lt_zero j)⟩
  have hchain : bpb.Chain (oneCluster 0xf8) (bpb.firstCluster (oneCluster 0xf8) 0) [2] 0xff8 :=
    oneCluster_chain (by decide) (by decide) (by decide)
  refine ⟨floppyBios_readsSectors _, hentry, hchain, fun m hload => ?_⟩
  exact absurd (mark_of_loadsFile (floppyBios_readsSectors _) hentry hchain hload).1 (by decide)

end Loader
end OSLib
