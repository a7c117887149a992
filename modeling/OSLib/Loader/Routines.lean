import OSLib.Foundation.RealMode
import OSLib.Loader.Boot

/-!
# The routines of the two boot programs

`boot.asm` and `loader.asm` have `Func_ReadOneSector` and `Func_GetFATEntry` in common, word for
word but for the place of their variables.  Here they are modelled with the registers and the stack.
A program is run in an environment `Env`: the BIOS, and the place where the assembler has put the
name that is looked for.

The variables of a program, the fields of its BPB and the name are in the segment it has loaded into
`ds`.  An access to them with another segment in `ds` is stuck, and so is a write to memory that
covers the program itself.

`funcReadOneSector_eq` and `funcGetFATEntry_eq` say that the routines do what `readOneSector` and
`getFATEntry` do, with `es`, `bx` and the stack as they were.

The model follows the text instruction by instruction, because what is easily wrong in it is the
stack: `bp` is a frame pointer to a byte that is pushed as part of a word, and the routine has to be
entered and left with the stack as it was.  The retry loop around int 13h is the parameter `Bios` of
`Boot`, which gives what the call returns when it succeeds.
-/

namespace OSLib
namespace Loader

open Bytes Fat12 RealMode

/-! ## Programs -/

/-- The two programs. -/
inductive Program where
  | boot
  | loader
  deriving DecidableEq

/-- The variables of a program; `boot.asm` does without the last one. -/
structure Vars where
  rootDirSizeForLoop : BitVec 16 := BitVec.ofNat 16 rootDirSectors
  sectorNo : BitVec 16 := 0
  odd : BitVec 8 := 0
  offsetOfKernelFileCount : BitVec 32 := 0x100000

/-- `KernelFileName`, the 11 bytes of it that are compared: `KERNEL  BIN`. -/
def kernelFileName : List (BitVec 8) :=
  [0x4b, 0x45, 0x52, 0x4e, 0x45, 0x4c, 0x20, 0x20, 0x42, 0x49, 0x4e]

namespace Program

/-- The segment of a program, in `cs` and `ds`. -/
def segment : Program → BitVec 16
  | .boot => 0x0000
  | .loader => baseOfLoader

/-- Where the program is in memory: the boot sector, or the segment of the loader. -/
def Occupies : Program → ℕ → Prop
  | .boot, a => 0x7c00 ≤ a ∧ a < 0x7e00
  | .loader, a => 0x10000 ≤ a ∧ a < 0x20000

/-- The name that is looked for. -/
def fileName : Program → List (BitVec 8)
  | .boot => loaderFileName
  | .loader => kernelFileName

/-- A block of `n` bytes from `a` on does not cover the program. -/
def Spares (p : Program) (a n : ℕ) : Prop := ∀ o < n, ¬ p.Occupies (a + o)

instance (p : Program) (a : ℕ) : Decidable (p.Occupies a) := by
  cases p <;> exact inferInstanceAs (Decidable (_ ∧ _))

instance (p : Program) (a n : ℕ) : Decidable (p.Spares a n) :=
  inferInstanceAs (Decidable (∀ o < n, _))

end Program

/-- The state of a program. -/
abbrev State := Cpu Vars

/-- A program with the BIOS, the offset of the name, and what a service leaves in `ax`. -/
structure Env extends Bios where
  program : Program
  fileNameOffset : BitVec 16
  axAfter : Bytes → BitVec 16 → BitVec 16

namespace Env

variable (e : Env)

/-- Read a variable or a constant in the segment of the program. -/
def get {α : Type} (f : Vars → α) (s : State) : Option α :=
  if s.ds = e.program.segment then some (f s.vars) else none

/-- Write variables. -/
def set (f : Vars → Vars) (s : State) : Option State :=
  if s.ds = e.program.segment then some { s with vars := f s.vars } else none

/-- `int 13h` with `ah = 2`, until it succeeds. -/
def readSectors (s : State) : Option State :=
  if e.program.Spares (linear s.es s.bx) (512 * s.al.toNat) then
    match e.int13h s.mem s.al s.ch s.cl s.dh s.dl s.es s.bx with
    | some m => some { s with eax := withLo s.eax (e.axAfter s.mem s.ax), mem := m }
    | none => none
  else none

end Env

/-! ## The routines -/

open Cpu

variable (e : Env)

/-- `Label_Go_On_Reading`. -/
def labelGoOnReading : List (Instr Vars) := [
  mov setAh (imm 2),
  load setAl fun s => (top s).map loByte,
  e.readSectors,
  pop fun s _ => s,
  pop setBp]

/-- `Func_ReadOneSector` before that. -/
def readOneSectorStart : List (Instr Vars) := [
  push bp,
  -- the frame is one word, with `cl` in its lower byte at `bp - 2`
  push fun s => withLoByte 0 s.cl,
  push bx,
  load setBl (e.get fun _ => BitVec.ofNat 8 secPerTrk),
  divByte bl,
  mov setAh fun s => s.ah + 1,
  mov setCl ah,
  mov setDh al,
  mov setAl fun s => s.al >>> 1,
  mov setCh al,
  mov setDh fun s => s.dh &&& 1,
  pop setBx,
  load setDl (e.get fun _ => drvNum)]

/-- `Func_ReadOneSector`. -/
def funcReadOneSector : Instr Vars := exec (readOneSectorStart e ++ labelGoOnReading e)

/-- `Label_Even_2`. -/
def labelEven2 : List (Instr Vars) := [
  mov setAx fun s => s.ax &&& 0x0fff,
  pop setBx,
  pop setEs]

/-- `Label_Even`, up to the call. -/
def labelEven : List (Instr Vars) := [
  mov setDx (imm 0),
  load setBx (e.get fun _ => BitVec.ofNat 16 bpb.bytesPerSec),
  div bx,
  push dx,
  mov setBx (imm 0x8000),
  mov setAx fun s => s.ax + sectorNumOfFAT1Start,
  mov setCl (imm 2)]

/-- The call, and what follows it up to `Label_Even_2`. -/
def readFATSectors : List (Instr Vars) := [
  call (funcReadOneSector e),
  pop setDx,
  mov setBx fun s => s.bx + s.dx,
  mov setAx fun s => s.mem.word (linear s.es s.bx) 16,
  fun s => (e.get Vars.odd s).map fun (odd : BitVec 8) =>
    if odd = 1 then s.setAx (s.ax >>> 4) else s]

/-- The offset of the entry, up to `Label_Even`. -/
def entryOffset : List (Instr Vars) := [
  mul bx,
  mov setBx (imm 2),
  div bx,
  fun s => if s.dx = 0 then some s else e.set (fun v => { v with odd := 1 }) s]

/-- The start of `Func_GetFATEntry`. -/
def getFATEntryStart : List (Instr Vars) := [
  push es,
  push bx,
  push ax,
  mov setAx (imm 0),
  mov setEs ax,
  pop setAx,
  e.set fun v => { v with odd := 0 },
  mov setBx (imm 3)]

/-- `Func_GetFATEntry`. -/
def funcGetFATEntry : Instr Vars :=
  exec (getFATEntryStart e ++ (entryOffset e ++ ((labelEven e ++ readFATSectors e) ++ labelEven2)))

/-! ## Reading sectors -/

variable {e} {s : State} {m : Bytes} {w b : BitVec 16} {r : List Slot}

/-- Before `Label_Go_On_Reading` the arguments of int 13h are ready. -/
theorem exec_readOneSectorStart (hds : s.ds = e.program.segment)
    (hquot : s.ax.toNat / secPerTrk < 256) :
    ∃ w, exec (readOneSectorStart e) s = some { s with
      eax := withLo s.eax w
      cx := (BitVec.ofNat 8 (s.ax.toNat / secPerTrk) >>> 1) ++
        (BitVec.ofNat 8 (s.ax.toNat % secPerTrk) + 1)
      dx := (BitVec.ofNat 8 (s.ax.toNat / secPerTrk) &&& 1) ++ drvNum
      stack := .word (withLoByte 0 s.cl) :: .word s.bp :: s.stack } := by
  have htrk : secPerTrk = 18 := rfl
  have hquot' : (lo s.eax).toNat / 18 < 256 := hquot
  simp [readOneSectorStart, Env.get, hds, divByte, htrk, hquot', withHiByte, withLoByte]

theorem readSectors_eq (hspares : e.program.Spares (linear s.es s.bx) (512 * s.al.toNat))
    (hread : e.int13h s.mem s.al s.ch s.cl s.dh s.dl s.es s.bx = some m) :
    e.readSectors s = some { s with eax := withLo s.eax (e.axAfter s.mem s.ax), mem := m } := by
  rw [Env.readSectors, if_pos hspares, hread]

/-- The frame is dropped after the sectors have been read. -/
theorem exec_labelGoOnReading
    (hspares : e.program.Spares (linear s.es s.bx) (512 * (loByte w).toNat))
    (hread : e.int13h s.mem (loByte w) s.ch s.cl s.dh s.dl s.es s.bx = some m) :
    ∃ x, exec (labelGoOnReading e) { s with stack := .word w :: .word b :: r } =
      some { s with eax := withLo s.eax x, bp := b, stack := r, mem := m } := by
  have hal : Cpu.al { s with
      eax := withLo s.eax (withLoByte (withHiByte s.ax 2#8) (loByte w))
      stack := .word w :: .word b :: r } = loByte w := by simp
  have hservice := readSectors_eq (e := e) (s := { s with
      eax := withLo s.eax (withLoByte (withHiByte s.ax 2#8) (loByte w))
      stack := .word w :: .word b :: r }) (by rw [hal]; exact hspares) (by rw [hal]; exact hread)
  simp only [lo_withLo, Cpu.ax, withLo_withLo] at hservice
  simp [labelGoOnReading, hservice]

/-- **`Func_ReadOneSector`** reads what `readOneSector` reads; `ax`, `cx` and `dx` are lost. -/
theorem funcReadOneSector_eq (hds : s.ds = e.program.segment)
    (hspares : e.program.Spares (linear s.es s.bx) (512 * s.cl.toNat))
    (hread : readOneSector e.toBios s.mem s.ax s.cl s.es s.bx = some m) :
    ∃ x cx dx, funcReadOneSector e s =
      some { s with eax := withLo s.eax x, cx := cx, dx := dx, mem := m } := by
  rw [readOneSector] at hread
  split at hread
  · next hquot =>
    obtain ⟨x, hstart⟩ := exec_readOneSectorStart hds hquot
    obtain ⟨y, hservice⟩ := exec_labelGoOnReading (e := e) (w := withLoByte 0 s.cl) (b := s.bp)
      (r := s.stack) (m := m) (s := { s with
        eax := withLo s.eax x
        cx := (BitVec.ofNat 8 (s.ax.toNat / secPerTrk) >>> 1) ++
          (BitVec.ofNat 8 (s.ax.toNat % secPerTrk) + 1)
        dx := (BitVec.ofNat 8 (s.ax.toNat / secPerTrk) &&& 1) ++ drvNum })
      (by rw [loByte_withLoByte]; exact hspares) (by simpa [drvNum] using hread)
    rw [withLo_withLo] at hservice
    exact ⟨y, _, _, (exec_append hstart).trans hservice⟩
  · cases hread

/-- The routine, called. -/
theorem call_funcReadOneSector (hds : s.ds = e.program.segment)
    (hspares : e.program.Spares (linear s.es s.bx) (512 * s.cl.toNat))
    (hread : readOneSector e.toBios s.mem s.ax s.cl s.es s.bx = some m) :
    ∃ x cx dx, call (funcReadOneSector e) s =
      some { s with eax := withLo s.eax x, cx := cx, dx := dx, mem := m } := by
  obtain ⟨x, cx, dx, heq⟩ := funcReadOneSector_eq (e := e)
    (s := { s with stack := .ret :: s.stack }) hds hspares hread
  exact ⟨x, cx, dx, call_eq heq rfl⟩

/-! ## Entries of the FAT -/

theorem exec_getFATEntryStart (hds : s.ds = e.program.segment) :
    exec (getFATEntryStart e) s = some { s with
      bx := 3
      es := 0
      stack := .word s.bx :: .word s.es :: s.stack
      vars := { s.vars with odd := 0 } } := by
  simp [getFATEntryStart, Env.set, hds]

/-- Before `Label_Even` the offset of the entry is in `ax`, and `Odd` says whether it starts in the
middle of its first byte. -/
theorem exec_entryOffset (hds : s.ds = e.program.segment) (hbx : s.bx = 3)
    (hodd : s.vars.odd = 0) (hquot : s.ax.toNat * 3 / 2 < 2 ^ 16) :
    ∃ dx, exec (entryOffset e) s = some { s with
      eax := withLo s.eax (BitVec.ofNat 16 (s.ax.toNat * 3 / 2))
      bx := 2
      dx := dx
      vars := { s.vars with odd := if s.ax.toNat * 3 % 2 = 1 then 1 else 0 } } := by
  have hax := s.ax.isLt
  have hmul := mul_eq bx (d := 3) (s := s) (by rw [hbx]; rfl)
  have hdiv := div_eq bx (n := s.ax.toNat * 3) (d := 2) (s := { s with
    eax := withLo s.eax (BitVec.ofNat 16 (s.ax.toNat * 3))
    bx := 2
    dx := BitVec.ofNat 16 (s.ax.toNat * 3 / 2 ^ 16) })
    (lo_withLo _ _) rfl (by omega) rfl (by decide) hquot
  refine ⟨BitVec.ofNat 16 (s.ax.toNat * 3 % 2), ?_⟩
  rw [entryOffset, exec_cons_of_eq hmul, exec_cons_of_eq (i := mov setBx (imm 2)) rfl]
  refine (exec_cons_of_eq hdiv).trans ?_
  rcases Nat.mod_two_eq_zero_or_one ((lo s.eax).toNat * 3) with hparity | hparity
  · simp [hparity, ← hodd]
  · simp [Env.set, hds, hparity]

/-- The sector is in `ax`, and the place in it on the stack. -/
theorem exec_labelEven (hds : s.ds = e.program.segment) :
    exec (labelEven e) s = some { s with
      eax := withLo s.eax (s.ax / 512 + sectorNumOfFAT1Start)
      bx := 0x8000
      cx := withLoByte s.cx 2
      dx := s.ax % 512
      stack := .word (s.ax % 512) :: s.stack } := by
  have hbytes : bpb.bytesPerSec = 512 := rfl
  have hquot : (lo s.eax).toNat / 512 < 65536 := by omega
  have h512 : (512#16).toNat = 512 := rfl
  have hdiv : BitVec.ofNat 16 ((lo s.eax).toNat / 512) = lo s.eax / 512#16 := by
    refine BitVec.eq_of_toNat_eq ?_
    rw [toNat_ofNat_of_lt hquot, BitVec.toNat_udiv, h512]
  have hmod : BitVec.ofNat 16 ((lo s.eax).toNat % 512) = lo s.eax % 512#16 := by
    refine BitVec.eq_of_toNat_eq ?_
    rw [toNat_ofNat_of_lt (by omega), BitVec.toNat_umod, h512]
  simp [labelEven, Env.get, hds, hbytes, div, hquot, hdiv, hmod]

/-- The two bytes of the entry are read, and shifted if it starts in the middle of the first. -/
theorem exec_labelEven_readFATSectors {offset : BitVec 16} (hds : s.ds = e.program.segment)
    (hax : s.ax = offset) (hes : s.es = 0x0000) (hspares : e.program.Spares 0x8000 1024)
    (hread : readOneSector e.toBios s.mem (offset / 512 + sectorNumOfFAT1Start) 2 0x0000 0x8000 =
      some m) :
    ∃ bx cx dx, exec (labelEven e ++ readFATSectors e) s = some { s with
      eax := withLo s.eax (if s.vars.odd = 1
        then m.word (linear 0x0000 (0x8000 + offset % 512)) 16 >>> 4
        else m.word (linear 0x0000 (0x8000 + offset % 512)) 16)
      bx := bx
      cx := cx
      dx := dx
      mem := m } := by
  subst hax
  obtain ⟨x, cx, dx, hcall⟩ := call_funcReadOneSector (e := e) (m := m) (s := { s with
    eax := withLo s.eax (s.ax / 512 + sectorNumOfFAT1Start)
    bx := 0x8000
    cx := withLoByte s.cx 2
    dx := s.ax % 512
    stack := .word (s.ax % 512) :: s.stack }) hds
    (by simpa [hes, linear] using hspares) (by simpa [hes] using hread)
  refine ⟨0x8000 + s.ax % 512, cx, s.ax % 512, ?_⟩
  rw [exec_append (exec_labelEven hds), readFATSectors, exec_cons_of_eq hcall]
  by_cases hodd : s.vars.odd = 1#8
  · simp [Env.get, hds, hodd, hes]
  · simp [Env.get, hds, hodd, hes]

/-- **`Func_GetFATEntry`** finds what `getFATEntry` finds; `es` and `bx` are as before. -/
theorem funcGetFATEntry_eq (hds : s.ds = e.program.segment) (hspares : e.program.Spares 0x8000 1024)
    (hentry : getFATEntry e.toBios s.mem s.ax = some (m, w)) :
    ∃ cx dx odd, funcGetFATEntry e s = some { s with
      eax := withLo s.eax w
      cx := cx
      dx := dx
      mem := m
      vars := { s.vars with odd := odd } } := by
  rw [getFATEntry] at hentry
  simp only at hentry
  split at hentry
  · next hquot =>
    obtain ⟨dx, hoffset⟩ := exec_entryOffset (e := e) (s := { s with
      bx := 3
      es := 0
      stack := .word s.bx :: .word s.es :: s.stack
      vars := { s.vars with odd := 0 } }) hds rfl rfl hquot
    split at hentry
    · cases hentry
    · next hread =>
      obtain ⟨rfl, rfl⟩ := Prod.mk.inj (Option.some.inj hentry)
      obtain ⟨bx, cx, dx, heven⟩ := exec_labelEven_readFATSectors (e := e) (s := { s with
        eax := withLo s.eax (BitVec.ofNat 16 (s.ax.toNat * 3 / 2))
        bx := 2
        dx := dx
        es := 0
        stack := .word s.bx :: .word s.es :: s.stack
        vars := { s.vars with odd := if s.ax.toNat * 3 % 2 = 1 then 1 else 0 } }) hds
        (lo_withLo _ _) rfl hspares hread
      rw [funcGetFATEntry, exec_append (exec_getFATEntryStart hds), exec_append hoffset]
      refine ⟨cx, dx, if s.ax.toNat * 3 % 2 = 1 then 1 else 0, (exec_append heven).trans ?_⟩
      rcases Nat.mod_two_eq_zero_or_one ((lo s.eax).toNat * 3) with hodd | hodd
      · simp [labelEven2, hodd]
      · simp [labelEven2, hodd]
  · cases hentry

/-- The buffer at `0x8000` is in neither program. -/
theorem spares_buffer (p : Program) : p.Spares 0x8000 1024 := by
  intro o ho
  cases p with
  | boot =>
    rintro ⟨-, hlt⟩
    omega
  | loader =>
    rintro ⟨hge, -⟩
    omega

/-- The routine, called for an entry the FAT has room for. -/
theorem call_funcGetFATEntry {v : Bytes} {c : ℕ} (h : ReadsSectors e.toBios v)
    (hds : s.ds = e.program.segment) (hax : s.ax = BitVec.ofNat 16 c) (hc : c < fatEntries) :
    ∃ cx dx odd, call (funcGetFATEntry e) s = some { s with
      eax := withLo s.eax (BitVec.ofNat 16 (bpb.fatEntry v c))
      cx := cx
      dx := dx
      mem := withFat v s.mem (c * 3 / 2)
      vars := { s.vars with odd := odd } } := by
  have hentry := getFATEntry_of_lt h s.mem hc
  rw [← hax] at hentry
  obtain ⟨cx, dx, odd, heq⟩ := funcGetFATEntry_eq (e := e)
    (s := { s with stack := .ret :: s.stack }) hds (spares_buffer e.program) hentry
  exact ⟨cx, dx, odd, call_eq heq rfl⟩

/-- **What is packed is found.**  For every list of entries that fills the nine sectors of the FAT,
and every one of them, `Func_GetFATEntry` of either program returns it, with `es` and `bx` as they
were. -/
theorem funcGetFATEntry_packed {v : Bytes} (h : ReadsSectors e.toBios v)
    {entries : List (BitVec 12)} (hlen : entries.length = fatEntries)
    (hfat : bpb.HoldsEntries v entries) {n : ℕ} (hn : n < entries.length)
    (hds : s.ds = e.program.segment) (hax : s.ax = BitVec.ofNat 16 n) :
    ∃ t, call (funcGetFATEntry e) s = some t ∧ t.ax = entries[n].setWidth 16 ∧ t.es = s.es ∧
      t.bx = s.bx ∧ t.stack = s.stack := by
  obtain ⟨cx, dx, odd, hcall⟩ := call_funcGetFATEntry h hds hax (Nat.lt_of_lt_of_eq hn hlen)
  refine ⟨_, hcall, ?_, rfl, rfl, rfl⟩
  rw [Cpu.ax, lo_withLo, bpb.fatEntry_of_holdsEntries hfat hn]
  exact BitVec.eq_of_toNat_eq (by rw [BitVec.toNat_ofNat, BitVec.toNat_setWidth])

/-- A program with a floppy in the drive. -/
def floppyEnv (p : Program) (v : Bytes) : Env where
  toBios := floppyBios v
  program := p
  fileNameOffset := 0
  axAfter _ ax := ax

/-- The state a program starts to search in. -/
def startState (p : Program) : State where
  eax := 0
  bx := 0
  cx := 0
  dx := 0
  esi := 0
  edi := 0
  bp := 0
  ds := p.segment
  es := p.segment
  fs := 0
  stack := []
  mem _ := 0
  vars := {}

/-- A FAT that has each number in its own entry. -/
def countingEntries : List (BitVec 12) := (List.range fatEntries).map (BitVec.ofNat 12)

/-- A volume with that FAT. -/
def countingFat : Bytes := fun a => (Bpb.packEntries countingEntries).getD (a - 512) 0

theorem countingFat_holdsEntries : bpb.HoldsEntries countingFat countingEntries := by
  intro o ho
  have hplace : bpb.bytesPerSec * bpb.rsvdSecCnt + o - 512 = o := Nat.add_sub_cancel_left _ _
  rw [countingFat, hplace, List.getD_eq_getElem?_getD, List.getElem?_eq_getElem ho,
    Option.getD_some]

/-- The loader finds entry 341, whose bytes are in two sectors. -/
theorem countingFat_packed : ∃ t, call (funcGetFATEntry (floppyEnv .loader countingFat))
    ((startState .loader).setAx 341) = some t ∧ t.ax = 341 ∧ t.es = 0x1000 ∧ t.bx = 0 := by
  have hlen : countingEntries.length = fatEntries := by
    rw [countingEntries, List.length_map, List.length_range]
  have hn : 341 < countingEntries.length := by
    rw [hlen]
    decide
  obtain ⟨t, hcall, hax, hes, hbx, -⟩ := funcGetFATEntry_packed
    (e := floppyEnv .loader countingFat) (s := (startState .loader).setAx 341)
    (floppyBios_readsSectors countingFat) hlen countingFat_holdsEntries hn rfl rfl
  have hentry : countingEntries[341] = 341 := by
    simp only [countingEntries, List.getElem_map, List.getElem_range]
    rfl
  refine ⟨t, hcall, ?_, hes, hbx⟩
  rw [hax, hentry]
  rfl

end Loader
end OSLib
