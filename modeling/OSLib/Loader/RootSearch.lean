import OSLib.Foundation.Emits
import OSLib.Foundation.FirstFound
import OSLib.Loader.Routines

/-!
# The search of the root directory

The loops of `boot.asm` and `loader.asm` from `Label_Start_Search` to `Label_FileName_Found`, again
the same in both programs but for the name.  A label is a block of code, and `searchStep` runs a
block to the next label; it has no value where the search ends, at `Label_FileName_Found` and where
the message is printed that the file is missing.

The loop over the characters of a name is `cmpFileName` (`emits_cmpFileName`).  From a difference at
any character the loop over the entries goes on at the next entry (`emits_searchForBin`), and from
the last entry of a sector the loop over the sectors goes on at the next sector
(`emits_searchInRootDir`).

A block between two labels is one step, since within it nothing is read that another step writes.
That the search ends is shown with the counters that the code keeps, `RootDirSizeForLoop` and the
two registers that count entries and characters, and the end it comes to is then the only one,
because the steps are a function.

What the search keeps is said once (`SearchKept`): the segment of the data, the stack, and where the
kernel is to go.  The loops are nested as in the text, and each has a lemma that runs it from any of
its iterations to its end, so that the loop around it uses that lemma for one step of its own.
-/

namespace OSLib
namespace Loader

open Bytes Fat12 RealMode Cpu

/-! ## The blocks -/

/-- The labels of the programs; the last ones are those of the loading.  `bin` is `LoaderBin` in
`boot.asm` and `KernelBin` in `loader.asm`, and `movKernelEnd` and `getFATEntry` are the places
behind the loop `Label_Mov_Kernel` and at the call of `Func_GetFATEntry`. -/
inductive Label where
  | startSearch | searchInRootDirBegin | searchForBin | cmpFileName | goOn | different
  | gotoNextSectorInRootDir | noBin | fileNameFound
  | goOnLoadingFile | movKernel | movKernelEnd | getFATEntry | fileLoaded
  deriving DecidableEq

/-- A label that has been reached, and the state there. -/
abbrev Config := Label × State

/-- Go on at a label. -/
def goto (l : Label) (s : Option State) : Option Config := s.map (l, ·)

variable (e : Env)

/-- The byte `ds:si`, which has to be one of the name. -/
def Env.nameByte (s : State) : Option (BitVec 8) :=
  (e.get (fun _ => e.program.fileName) s).bind fun name => name[(s.si - e.fileNameOffset).toNat]?

/-- `Label_Search_In_Root_Dir_Begin`, where there is another sector, up to the call. -/
def readRootSector : List (Instr Vars) := [
  e.set fun v => { v with rootDirSizeForLoop := v.rootDirSizeForLoop - 1 },
  mov setAx (imm 0x00),
  mov setEs ax,
  mov setBx (imm 0x8000),
  load setAx (e.get Vars.sectorNo),
  mov setCl (imm 1)]

/-- The call, and what follows it up to the next label. -/
def searchInRootDirBegin : List (Instr Vars) := readRootSector e ++ [
  call (funcReadOneSector e),
  mov setSi (imm e.fileNameOffset),
  mov setDi (imm 0x8000),
  mov setDx (imm 0x10)]

/-- `Label_Cmp_FileName`, up to the comparison. -/
def cmpFileNameStart : List (Instr Vars) := [
  mov setCx fun s => s.cx - 1,
  load setAl e.nameByte,
  mov setSi fun s => s.si + 1]

/-- `Label_Different`. -/
def different : List (Instr Vars) := [
  mov setDi fun s => s.di &&& 0xffe0,
  mov setDi fun s => s.di + 0x20,
  mov setSi (imm e.fileNameOffset)]

/-- One block of the search. -/
def searchStep : Config → Option Config
  | (.startSearch, s) =>
    goto .searchInRootDirBegin (e.set (fun v => { v with sectorNo := sectorNumOfRootDirStart }) s)
  | (.searchInRootDirBegin, s) =>
    (e.get Vars.rootDirSizeForLoop s).bind fun (n : BitVec 16) =>
      if n = 0 then some (.noBin, s) else goto .searchForBin (exec (searchInRootDirBegin e) s)
  | (.searchForBin, s) =>
    if s.dx = 0 then some (.gotoNextSectorInRootDir, s)
    else goto .cmpFileName (exec [mov setDx fun s => s.dx - 1, mov setCx (imm 11)] s)
  | (.cmpFileName, s) =>
    if s.cx = 0 then some (.fileNameFound, s)
    else (exec (cmpFileNameStart e) s).map fun s =>
      (if s.al = s.mem (linear s.es s.di) then .goOn else .different, s)
  | (.goOn, s) => some (.cmpFileName, s.setDi (s.di + 1))
  | (.different, s) => goto .searchForBin (exec (different e) s)
  | (.gotoNextSectorInRootDir, s) =>
    goto .searchInRootDirBegin (e.set (fun v => { v with sectorNo := v.sectorNo + 1 }) s)
  | _ => none

/-- Where the sectors of the file are read to. -/
def Program.base : Program → BitVec 16
  | .boot => baseOfLoader
  | .loader => 0x00

/-- The first offset there. -/
def Program.offset : Program → BitVec 16
  | .boot => offsetOfLoader
  | .loader => 0x7e00

/-- `Label_FileName_Found`. -/
def fileNameFound : List (Instr Vars) := [
  mov setAx (imm (BitVec.ofNat 16 rootDirSectors)),
  mov setDi fun s => s.di &&& 0xffe0,
  mov setDi fun s => s.di + 0x1a,
  mov setCx fun s => s.mem.word (linear s.es s.di) 16,
  push cx,
  mov setCx fun s => s.cx + s.ax,
  mov setCx fun s => s.cx + sectorBalance,
  mov setAx (imm e.program.base),
  mov setEs ax,
  mov setBx (imm e.program.offset),
  mov setAx cx]

/-- The number of the cluster whose entry is asked for, where `Func_GetFATEntry` is called. -/
def askedFor : Config → Option (BitVec 16)
  | (.getFATEntry, s) => some s.ax
  | _ => none

/-! ## The characters of a name -/

variable {e} {s t : State} {v m : Bytes} {i j k n : ℕ} {c : BitVec 8} {p q : List (BitVec 8)}

/-- A variable or a constant is read. -/
theorem get_eq {α : Type} (f : Vars → α) (hds : s.ds = e.program.segment) :
    e.get f s = some (f s.vars) := if_pos hds

/-- A variable is written. -/
theorem set_eq (f : Vars → Vars) (hds : s.ds = e.program.segment) :
    e.set f s = some { s with vars := f s.vars } := if_pos hds

theorem length_fileName (program : Program) : program.fileName.length = 11 := by
  cases program <;> rfl

theorem nameByte_eq (hname : e.program.fileName = p ++ c :: q)
    (hds : s.ds = e.program.segment)
    (hsi : s.si = e.fileNameOffset + BitVec.ofNat 16 p.length) : e.nameByte s = some c := by
  have hlen : p.length < 2 ^ 16 := by
    have h11 := length_fileName e.program
    rw [hname, List.length_append] at h11
    omega
  have hindex : (s.si - e.fileNameOffset).toNat = p.length := by
    rw [hsi, BitVec.add_comm, BitVec.add_sub_cancel, toNat_ofNat_of_lt hlen]
  rw [Env.nameByte, get_eq _ hds, Option.bind_some, hindex, hname,
    List.getElem?_append_right (Nat.le_refl _), Nat.sub_self]
  rfl

theorem exec_cmpFileNameStart (h : e.nameByte s = some c) :
    exec (cmpFileNameStart e) s = some { s with
      cx := s.cx - 1
      eax := withLo s.eax (withLoByte s.ax c)
      esi := withLo s.esi (s.si + 1) } := by
  have hbyte : e.nameByte { s with cx := s.cx - 1#16 } = some c := h
  simp [cmpFileNameStart, hbyte]

/-- A step of the search, of which nothing is seen. -/
theorem emits_step {a b : Config} (h : searchStep e a = some b) :
    Emits (searchStep e) askedFor a [] b := by
  refine .silent h ?_
  obtain ⟨l, s⟩ := a
  cases l
  case getFATEntry => cases h
  all_goals rfl

/-- A character is compared. -/
theorem searchStep_cmpFileName (hcx : s.cx ≠ 0) (hes : s.es = 0x0000)
    (hbyte : e.nameByte s = some c) : searchStep e (.cmpFileName, s) =
      some (if c = s.mem (linear 0x0000 s.di) then .goOn else .different, { s with
        cx := s.cx - 1
        eax := withLo s.eax (withLoByte s.ax c)
        esi := withLo s.esi (s.si + 1) }) := by
  have hal : loByte (lo (withLo s.eax (withLoByte s.ax c))) = c := by
    rw [lo_withLo, loByte_withLoByte]
  rw [searchStep, if_neg hcx, exec_cmpFileNameStart hbyte, Option.map_some]
  simp only [Cpu.al, Cpu.ax] at hal ⊢
  simp only [hal, hes]
  rfl

/-- **The loop over the characters** is `cmpFileName`. -/
theorem emits_cmpFileName (hname : e.program.fileName = p ++ q)
    (hds : s.ds = e.program.segment) (hes : s.es = 0x0000)
    (hcx : s.cx = BitVec.ofNat 16 q.length)
    (hsi : s.si = e.fileNameOffset + BitVec.ofNat 16 p.length) :
    ∃ eax cx esi, Emits (searchStep e) askedFor (.cmpFileName, s) []
      (if (cmpFileName s.mem q s.di).1 then .fileNameFound else .different,
        { s with eax := eax, cx := cx, esi := esi,
                 edi := withLo s.edi (cmpFileName s.mem q s.di).2 }) := by
  induction q generalizing p s with
  | nil =>
    have hstep : searchStep e (.cmpFileName, s) = some (.fileNameFound, s) := if_pos hcx
    refine ⟨s.eax, s.cx, s.esi, ?_⟩
    rw [cmpFileName, if_pos rfl, Cpu.di, withLo_lo]
    exact emits_step hstep
  | cons c q ih =>
    have hlen : q.length + 1 < 2 ^ 16 := by
      have h11 := length_fileName e.program
      rw [hname, List.length_append, List.length_cons] at h11
      omega
    have hcx0 : s.cx ≠ 0 := by
      intro h
      have hzero := congrArg BitVec.toNat (hcx.symm.trans h)
      rw [List.length_cons, toNat_ofNat_of_lt hlen] at hzero
      exact Nat.succ_ne_zero _ hzero
    have hstep := searchStep_cmpFileName hcx0 hes (nameByte_eq hname hds hsi)
    rw [cmpFileName]
    by_cases hc : c = s.mem (linear 0x0000 s.di)
    · rw [if_pos hc] at hstep ⊢
      have hone : e.fileNameOffset + BitVec.ofNat 16 (p ++ [c]).length = s.si + 1 := by
        rw [hsi, List.length_append, List.length_singleton, BitVec.ofNat_add, BitVec.add_assoc]
        rfl
      have hgoOn : searchStep e (.goOn, { s with
          cx := s.cx - 1
          eax := withLo s.eax (withLoByte s.ax c)
          esi := withLo s.esi (s.si + 1) }) = some (.cmpFileName, { s with
          cx := s.cx - 1
          eax := withLo s.eax (withLoByte s.ax c)
          esi := withLo s.esi (s.si + 1)
          edi := withLo s.edi (s.di + 1) }) := rfl
      obtain ⟨eax, cx, esi, hrest⟩ := ih (p := p ++ [c]) (s := { s with
          cx := s.cx - 1
          eax := withLo s.eax (withLoByte s.ax c)
          esi := withLo s.esi (s.si + 1)
          edi := withLo s.edi (s.di + 1) })
        (by rw [hname, List.append_assoc]; rfl) hds hes
        (by rw [hcx, List.length_cons, BitVec.ofNat_add]; exact BitVec.add_sub_cancel _ _)
        (by rw [hone]; exact lo_withLo _ _)
      have hdi : Cpu.di { s with
          cx := s.cx - 1
          eax := withLo s.eax (withLoByte s.ax c)
          esi := withLo s.esi (s.si + 1)
          edi := withLo s.edi (s.di + 1) } = s.di + 1 := lo_withLo _ _
      rw [hdi, withLo_withLo] at hrest
      exact ⟨eax, cx, esi, (emits_step hstep).trans ((emits_step hgoOn).trans hrest)⟩
    · rw [if_neg hc] at hstep ⊢
      refine ⟨withLo s.eax (withLoByte s.ax c), s.cx - 1, withLo s.esi (s.si + 1), ?_⟩
      rw [Cpu.di, withLo_lo]
      exact emits_step hstep

/-! ## The entries of a sector -/

/-- The state where entry `j` of a sector is next, of `n` that are left. -/
structure AtEntry (e : Env) (j n : ℕ) (s : State) : Prop where
  ds : s.ds = e.program.segment
  es : s.es = 0x0000
  dx : s.dx = BitVec.ofNat 16 n
  di : s.di = BitVec.ofNat 16 (0x8000 + 32 * j)
  si : s.si = e.fileNameOffset

/-- The comparison has stopped in entry `j`. -/
structure InEntry (j : ℕ) (s : State) : Prop where
  es : s.es = 0x0000
  di : s.di &&& 0xffe0 = BitVec.ofNat 16 (0x8000 + 32 * j)

/-- What the search of a sector leaves alone. -/
structure SectorKept (s t : State) : Prop where
  ds : t.ds = s.ds
  es : t.es = s.es
  stack : t.stack = s.stack
  mem : t.mem = s.mem
  vars : t.vars = s.vars

theorem SectorKept.trans {u : State} (h : SectorKept s t) (h' : SectorKept t u) :
    SectorKept s u :=
  ⟨h'.ds.trans h.ds, h'.es.trans h.es, h'.stack.trans h.stack, h'.mem.trans h.mem,
    h'.vars.trans h.vars⟩

/-- After a difference the next entry is the one behind the entry `di` is in. -/
theorem searchStep_different (hds : s.ds = e.program.segment) (hes : s.es = 0x0000)
    (hdx : s.dx = BitVec.ofNat 16 n)
    (hentry : s.di &&& 0xffe0 = BitVec.ofNat 16 (0x8000 + 32 * j)) :
    ∃ t, AtEntry e (j + 1) n t ∧ SectorKept s t ∧
      searchStep e (.different, s) = some (.searchForBin, t) := by
  have hdi : (s.di &&& 0xffe0) + 0x20 = BitVec.ofNat 16 (0x8000 + 32 * (j + 1)) := by
    rw [hentry]
    exact (BitVec.ofNat_add _ 32).symm
  refine ⟨{ s with
    edi := withLo s.edi ((s.di &&& 0xffe0) + 0x20)
    esi := withLo s.esi e.fileNameOffset }, ?_, ⟨rfl, rfl, rfl, rfl, rfl⟩, ?_⟩
  · exact ⟨hds, hes, hdx, (lo_withLo _ _).trans hdi, lo_withLo _ _⟩
  · simp [searchStep, different, goto]

/-- **One entry**: the search is over in it, or goes on at the next one. -/
theorem emits_entry (hm : Buffered v s.mem k) (hjn : j + (n + 1) = 16) (h : AtEntry e j (n + 1) s) :
    (bpb.Named v e.program.fileName (16 * k + j) ∧ ∃ t, InEntry j t ∧ SectorKept s t ∧
      Emits (searchStep e) askedFor (.searchForBin, s) [] (.fileNameFound, t)) ∨
    (¬ bpb.Named v e.program.fileName (16 * k + j) ∧ ∃ t, AtEntry e (j + 1) n t ∧ SectorKept s t ∧
      Emits (searchStep e) askedFor (.searchForBin, s) [] (.searchForBin, t)) := by
  have hlen := length_fileName e.program
  have hdx : s.dx ≠ 0 := by
    intro h0
    have hzero := congrArg BitVec.toNat (h.dx.symm.trans h0)
    rw [toNat_ofNat_of_lt (by omega)] at hzero
    exact Nat.succ_ne_zero _ hzero
  have hnext : s.dx - 1 = BitVec.ofNat 16 n := by
    rw [h.dx, BitVec.ofNat_add]
    exact BitVec.add_sub_cancel _ _
  have hstep : searchStep e (.searchForBin, s) =
      some (.cmpFileName, { s with dx := s.dx - 1, cx := 11 }) := if_neg hdx
  obtain ⟨eax, cx, esi, hcmp⟩ := emits_cmpFileName (e := e) (p := []) (q := e.program.fileName)
    (s := { s with dx := s.dx - 1, cx := 11 }) rfl h.ds h.es (by rw [hlen]; rfl)
    (by rw [List.length_nil]; exact h.si.trans (BitVec.add_zero _).symm)
  obtain ⟨i, hi, heq⟩ := cmpFileName_eq s.mem e.program.fileName (a := 0x8000 + 32 * j) (by omega)
  have hand : BitVec.ofNat 16 (0x8000 + 32 * j + i) &&& 0xffe0 =
      BitVec.ofNat 16 (0x8000 + 32 * j) := and_entry (by omega) (by omega)
  have hdi : Cpu.di { s with dx := s.dx - 1, cx := 11 } = BitVec.ofNat 16 (0x8000 + 32 * j) := h.di
  rw [hdi, heq] at hcmp
  simp only [decide_eq_true_eq, ← named_iff hlen hm (show j < 16 by omega)] at hcmp
  by_cases hname : bpb.Named v e.program.fileName (16 * k + j)
  · rw [if_pos hname] at hcmp
    refine .inl ⟨hname, _, ?_, ?_, (emits_step hstep).trans hcmp⟩
    · exact ⟨h.es, (congrArg (· &&& 0xffe0) (lo_withLo _ _)).trans hand⟩
    · exact ⟨rfl, rfl, rfl, rfl, rfl⟩
  · rw [if_neg hname] at hcmp
    obtain ⟨t, ht, hkept, hdifferent⟩ := searchStep_different (e := e) (j := j) (n := n)
      (s := { s with
        eax := eax
        cx := cx
        dx := s.dx - 1
        esi := esi
        edi := withLo s.edi (BitVec.ofNat 16 (0x8000 + 32 * j + i)) })
      h.ds h.es hnext ((congrArg (· &&& 0xffe0) (lo_withLo _ _)).trans hand)
    refine .inr ⟨hname, t, ht, ⟨hkept.ds, hkept.es, hkept.stack, hkept.mem, hkept.vars⟩, ?_⟩
    exact (emits_step hstep).trans (hcmp.trans (emits_step hdifferent))

/-- **The loop over the entries** finds the first one with the name, or comes to the end of the
sector. -/
theorem emits_searchForBin (hm : Buffered v s.mem k) (hjn : j + n = 16) (h : AtEntry e j n s) :
    (NoneIn (bpb.Named v e.program.fileName) (16 * k + j) (16 * k + 16) ∧ ∃ t, SectorKept s t ∧
      Emits (searchStep e) askedFor (.searchForBin, s) [] (.gotoNextSectorInRootDir, t)) ∨
    ∃ i t, FirstIn (bpb.Named v e.program.fileName) (16 * k + j) (16 * k + 16) (16 * k + i) ∧
      InEntry i t ∧ SectorKept s t ∧
      Emits (searchStep e) askedFor (.searchForBin, s) [] (.fileNameFound, t) := by
  induction n generalizing j s with
  | zero =>
    obtain rfl : j = 16 := hjn
    have hstep : searchStep e (.searchForBin, s) = some (.gotoNextSectorInRootDir, s) := if_pos h.dx
    exact .inl ⟨noneIn_self _ _, s, ⟨rfl, rfl, rfl, rfl, rfl⟩, emits_step hstep⟩
  | succ n ih =>
    rcases emits_entry hm hjn h with ⟨hname, t, ht, hkept, hrun⟩ | ⟨hname, t, ht, hkept, hrun⟩
    · exact .inr ⟨j, t, ⟨Nat.le_refl _, by omega, hname, noneIn_self _ _⟩, ht, hkept, hrun⟩
    · have hskip := noneIn_singleton hname
      rw [← hkept.mem] at hm
      rcases ih hm (by omega) ht with ⟨hnone, u, hkept', hrest⟩ | ⟨i, u, hi, hu, hkept', hrest⟩
      · exact .inl ⟨hskip.append hnone, u, hkept.trans hkept', hrun.trans hrest⟩
      · exact .inr ⟨i, u, hskip.firstIn (Nat.le_succ _) hi, hu, hkept.trans hkept',
          hrun.trans hrest⟩

/-! ## The sectors of the directory -/

/-- What the search of the directory leaves alone. -/
structure SearchKept (s t : State) : Prop where
  ds : t.ds = s.ds
  stack : t.stack = s.stack
  offset : t.vars.offsetOfKernelFileCount = s.vars.offsetOfKernelFileCount

theorem SearchKept.trans {u : State} (h : SearchKept s t) (h' : SearchKept t u) :
    SearchKept s u :=
  ⟨h'.ds.trans h.ds, h'.stack.trans h.stack, h'.offset.trans h.offset⟩

theorem SectorKept.searchKept (h : SectorKept s t) : SearchKept s t :=
  ⟨h.ds, h.stack, congrArg Vars.offsetOfKernelFileCount h.vars⟩

/-- The state where sector `k` of the directory is next, of `n` that are left. -/
structure AtSector (e : Env) (k n : ℕ) (s : State) : Prop where
  ds : s.ds = e.program.segment
  left : s.vars.rootDirSizeForLoop = BitVec.ofNat 16 n
  sectorNo : s.vars.sectorNo = BitVec.ofNat 16 (19 + k)

/-- The comparison has stopped in entry `i` of the directory. -/
structure Found (v : Bytes) (i : ℕ) (s : State) : Prop where
  es : s.es = 0x0000
  cluster : s.mem.word (linear 0x0000 ((s.di &&& 0xffe0) + 0x1a)) 16 =
    BitVec.ofNat 16 (bpb.firstCluster v i)

theorem exec_readRootSector (hds : s.ds = e.program.segment) :
    exec (readRootSector e) s = some { s with
      eax := withLo s.eax s.vars.sectorNo
      bx := 0x8000
      cx := withLoByte s.cx 1
      es := 0x0000
      vars := { s.vars with rootDirSizeForLoop := s.vars.rootDirSizeForLoop - 1 } } := by
  simp [readRootSector, get_eq, set_eq, hds]

/-- A sector is read to the buffer. -/
theorem exec_searchInRootDirBegin (hds : s.ds = e.program.segment)
    (hread : readOneSector e.toBios s.mem s.vars.sectorNo 1 0x0000 0x8000 = some m) :
    ∃ eax cx, exec (searchInRootDirBegin e) s = some { s with
      eax := eax
      bx := 0x8000
      cx := cx
      dx := 0x10
      esi := withLo s.esi e.fileNameOffset
      edi := withLo s.edi 0x8000
      es := 0x0000
      mem := m
      vars := { s.vars with rootDirSizeForLoop := s.vars.rootDirSizeForLoop - 1 } } := by
  have hbuffer : e.program.Spares 0x8000 512 := fun o ho => spares_buffer e.program o (by omega)
  obtain ⟨eax, cx, dx, hcall⟩ := call_funcReadOneSector (e := e) (m := m) (s := { s with
    eax := withLo s.eax s.vars.sectorNo
    bx := 0x8000
    cx := withLoByte s.cx 1
    es := 0x0000
    vars := { s.vars with rootDirSizeForLoop := s.vars.rootDirSizeForLoop - 1 } }) hds
    (by simpa [linear] using hbuffer) (by simpa using hread)
  rw [searchInRootDirBegin, exec_append (exec_readRootSector hds), exec_cons_of_eq hcall]
  exact ⟨_, _, rfl⟩

/-- A sector is read, and the search of it begins. -/
theorem searchStep_searchInRootDirBegin (h : ReadsSectors e.toBios v) (hkn : k + (n + 1) = 14)
    (hs : AtSector e k (n + 1) s) :
    ∃ t, AtEntry e 0 16 t ∧ Buffered v t.mem k ∧ SearchKept s t ∧
      t.vars.rootDirSizeForLoop = BitVec.ofNat 16 n ∧ t.vars.sectorNo = s.vars.sectorNo ∧
      searchStep e (.searchInRootDirBegin, s) = some (.searchForBin, t) := by
  obtain ⟨m, hread, hbuf, -⟩ := readOneSector_root h s.mem (show k < 14 by omega)
  have hnext : s.vars.rootDirSizeForLoop - 1 = BitVec.ofNat 16 n := by
    rw [hs.left, BitVec.ofNat_add]
    exact BitVec.add_sub_cancel _ _
  have hne : s.vars.rootDirSizeForLoop ≠ 0 := by
    intro h0
    have hzero := congrArg BitVec.toNat (hs.left.symm.trans h0)
    rw [toNat_ofNat_of_lt (by omega)] at hzero
    exact Nat.succ_ne_zero _ hzero
  rw [← hs.sectorNo] at hread
  obtain ⟨eax, cx, hexec⟩ := exec_searchInRootDirBegin hs.ds hread
  have hblock : searchStep e (.searchInRootDirBegin, s) =
      goto .searchForBin (exec (searchInRootDirBegin e) s) := by
    rw [searchStep, get_eq _ hs.ds, Option.bind_some, if_neg hne]
  refine ⟨_, ?_, ?_, ?_, ?_, ?_, hblock.trans (congrArg (goto .searchForBin) hexec)⟩
  · exact ⟨hs.ds, rfl, rfl, lo_withLo _ _, lo_withLo _ _⟩
  · exact hbuf
  · exact ⟨rfl, rfl, rfl⟩
  · exact hnext
  · rfl

/-- After the last entry of a sector the next sector is the one behind it. -/
theorem searchStep_gotoNextSectorInRootDir (hds : s.ds = e.program.segment)
    (hleft : s.vars.rootDirSizeForLoop = BitVec.ofNat 16 n)
    (hsector : s.vars.sectorNo = BitVec.ofNat 16 (19 + k)) :
    ∃ t, AtSector e (k + 1) n t ∧ SearchKept s t ∧
      searchStep e (.gotoNextSectorInRootDir, s) = some (.searchInRootDirBegin, t) := by
  have hnext : s.vars.sectorNo + 1 = BitVec.ofNat 16 (19 + (k + 1)) := by
    rw [hsector]
    exact ofNat_add_one _
  refine ⟨{ s with vars := { s.vars with sectorNo := s.vars.sectorNo + 1 } },
    ⟨hds, hleft, hnext⟩, ⟨rfl, rfl, rfl⟩, ?_⟩
  rw [searchStep, set_eq _ hds]
  rfl

/-- **The loop over the sectors** finds the first entry with the name, or there is none. -/
theorem emits_searchInRootDir (h : ReadsSectors e.toBios v) (hkn : k + n = 14)
    (hs : AtSector e k n s) :
    (NoneIn (bpb.Named v e.program.fileName) (16 * k) bpb.rootEntCnt ∧ ∃ t, SearchKept s t ∧
      Emits (searchStep e) askedFor (.searchInRootDirBegin, s) [] (.noBin, t)) ∨
    ∃ i t, FirstIn (bpb.Named v e.program.fileName) (16 * k) bpb.rootEntCnt i ∧ Found v i t ∧
      SearchKept s t ∧
      Emits (searchStep e) askedFor (.searchInRootDirBegin, s) [] (.fileNameFound, t) := by
  induction n generalizing k s with
  | zero =>
    obtain rfl : k = 14 := hkn
    have hstep : searchStep e (.searchInRootDirBegin, s) = some (.noBin, s) := by
      rw [searchStep, get_eq _ hs.ds, Option.bind_some]
      exact if_pos hs.left
    exact .inl ⟨noneIn_self _ _, s, ⟨rfl, rfl, rfl⟩, emits_step hstep⟩
  | succ n ih =>
    obtain ⟨t, ht, hbuf, hkept, hleft, hsector, hstep⟩ := searchStep_searchInRootDirBegin h hkn hs
    have hend : 16 * k + 16 ≤ bpb.rootEntCnt := by
      have hcnt : bpb.rootEntCnt = 224 := rfl
      omega
    rcases emits_searchForBin hbuf (Nat.zero_add 16) ht with
      ⟨hnone, u, hu, hrun⟩ | ⟨i, u, hi, hentry, hu, hrun⟩
    · obtain ⟨w, hw, hkept', hnext⟩ := searchStep_gotoNextSectorInRootDir (e := e) (k := k) (n := n)
        (((hu.ds.trans hkept.ds).trans hs.ds)) (by rw [hu.vars]; exact hleft)
        (by rw [hu.vars, hsector, hs.sectorNo])
      have hblock := (emits_step hstep).trans (hrun.trans (emits_step hnext))
      have hpassed := (hkept.trans hu.searchKept).trans hkept'
      rcases ih (by omega) hw with ⟨hnone', x, hx, hrest⟩ | ⟨i, x, hi, hfound, hx, hrest⟩
      · exact .inl ⟨hnone.append hnone', x, hpassed.trans hx, hblock.trans hrest⟩
      · exact .inr ⟨i, x, hnone.firstIn (by omega) hi, hfound, hpassed.trans hx,
          hblock.trans hrest⟩
    · have hi16 : i < 16 := by
        have hlt := hi.lt
        omega
      rw [← hu.mem] at hbuf
      exact .inr ⟨16 * k + i, u, hi.mono hend, ⟨hentry.es, word_firstCluster hbuf hi16 hentry.di⟩,
        hkept.trans hu.searchKept, (emits_step hstep).trans hrun⟩

/-- Entry `i` of the directory is the first one with the name. -/
def FirstNamed (v : Bytes) (name : List (BitVec 8)) : ℕ → Prop :=
  FirstIn (bpb.Named v name) 0 bpb.rootEntCnt

/-- **The search**, from `Label_Start_Search` on. -/
theorem emits_startSearch (h : ReadsSectors e.toBios v) (hds : s.ds = e.program.segment)
    (hvars : s.vars = {}) :
    ((∀ i < bpb.rootEntCnt, ¬ bpb.Named v e.program.fileName i) ∧ ∃ t, SearchKept s t ∧
      Emits (searchStep e) askedFor (.startSearch, s) [] (.noBin, t)) ∨
    ∃ i t, FirstNamed v e.program.fileName i ∧ Found v i t ∧ SearchKept s t ∧
      Emits (searchStep e) askedFor (.startSearch, s) [] (.fileNameFound, t) := by
  have hstart : searchStep e (.startSearch, s) = some (.searchInRootDirBegin,
      { s with vars := { s.vars with sectorNo := sectorNumOfRootDirStart } }) := by
    rw [searchStep, set_eq _ hds]
    rfl
  have hsector : AtSector e 0 14
      { s with vars := { s.vars with sectorNo := sectorNumOfRootDirStart } } :=
    ⟨hds, congrArg Vars.rootDirSizeForLoop hvars, rfl⟩
  rcases emits_searchInRootDir h (Nat.zero_add 14) hsector with
    ⟨hnone, t, hkept, hrun⟩ | ⟨i, t, hi, hfound, hkept, hrun⟩
  · exact .inl ⟨fun i => hnone i (Nat.zero_le i), t, ⟨hkept.ds, hkept.stack, hkept.offset⟩,
      (emits_step hstart).trans hrun⟩
  · exact .inr ⟨i, t, hi, hfound, ⟨hkept.ds, hkept.stack, hkept.offset⟩,
      (emits_step hstart).trans hrun⟩

/-! ## What is found -/

/-- The number of the first cluster is pushed, and its sector is in `ax`. -/
theorem exec_fileNameFound (hs : Found v i s) :
    exec (fileNameFound e) s = some { s with
      eax := withLo s.eax (BitVec.ofNat 16 (bpb.firstCluster v i) + BitVec.ofNat 16 rootDirSectors +
        sectorBalance)
      bx := e.program.offset
      cx := BitVec.ofNat 16 (bpb.firstCluster v i) + BitVec.ofNat 16 rootDirSectors + sectorBalance
      edi := withLo s.edi ((s.di &&& 0xffe0) + 0x1a)
      es := e.program.base
      stack := .word (BitVec.ofNat 16 (bpb.firstCluster v i)) :: s.stack } := by
  have hword : s.mem.word (linear 0#16 ((lo s.edi &&& 0xffe0#16) + 0x1a#16)) 16 =
      BitVec.ofNat 16 (bpb.firstCluster v i) := hs.cluster
  simp [fileNameFound, hs.es, hword]

/-- **The search ends where it should.**  Whatever is in the root directory, the search of either
program comes to `Label_FileName_Found` exactly if one of the 224 entries has the name, and to the
message that the file is missing exactly if none has.  What is pushed then as the first cluster is
that of the first entry with the name. -/
theorem search_ends (h : ReadsSectors e.toBios v) (hds : s.ds = e.program.segment)
    (hvars : s.vars = {}) :
    (∃ c, Arrives (searchStep e) (.startSearch, s) c ∧ searchStep e c = none) ∧
    ((∃ t, Arrives (searchStep e) (.startSearch, s) (.fileNameFound, t)) ↔
      ∃ i < bpb.rootEntCnt, bpb.Named v e.program.fileName i) ∧
    ((∃ t, Arrives (searchStep e) (.startSearch, s) (.noBin, t)) ↔
      ¬ ∃ i < bpb.rootEntCnt, bpb.Named v e.program.fileName i) ∧
    ∀ t, Arrives (searchStep e) (.startSearch, s) (.fileNameFound, t) →
      ∃ i u, FirstNamed v e.program.fileName i ∧ exec (fileNameFound e) t = some u ∧
        u.stack = .word (BitVec.ofNat 16 (bpb.firstCluster v i)) :: s.stack := by
  rcases emits_startSearch h hds hvars with
    ⟨hnone, t, hkept, hrun⟩ | ⟨i, t, hi, hfound, hkept, hrun⟩
  · have hends : ∀ u, ¬ Arrives (searchStep e) (.startSearch, s) (.fileNameFound, u) := by
      intro u hu
      cases hrun.arrives.unique hu rfl rfl
    have hno : ¬ ∃ i < bpb.rootEntCnt, bpb.Named v e.program.fileName i := by
      rintro ⟨i, hi, hname⟩
      exact hnone i hi hname
    refine ⟨⟨_, hrun.arrives, rfl⟩, ⟨fun ⟨u, hu⟩ => absurd hu (hends u), fun hex => absurd hex hno⟩,
      ⟨fun _ => hno, fun _ => ⟨t, hrun.arrives⟩⟩, fun u hu => absurd hu (hends u)⟩
  · have hends : ∀ u, ¬ Arrives (searchStep e) (.startSearch, s) (.noBin, u) := by
      intro u hu
      cases hrun.arrives.unique hu rfl rfl
    have hex : ∃ i < bpb.rootEntCnt, bpb.Named v e.program.fileName i := ⟨i, hi.lt, hi.pass⟩
    refine ⟨⟨_, hrun.arrives, rfl⟩, ⟨fun _ => hex, fun _ => ⟨t, hrun.arrives⟩⟩,
      ⟨fun ⟨u, hu⟩ => absurd hu (hends u), fun hno => absurd hex hno⟩, fun u hu => ?_⟩
    cases hrun.arrives.unique hu rfl rfl
    refine ⟨i, _, hi, exec_fileNameFound hfound, ?_⟩
    rw [hkept.stack]

/-- `LOADER.BIN` is found on a volume that has it. -/
theorem oneCluster_search_ends :
    ∃ t, Arrives (searchStep (floppyEnv .boot (oneCluster 0xff))) (.startSearch, startState .boot)
      (.fileNameFound, t) := by
  have hends := search_ends (e := floppyEnv .boot (oneCluster 0xff)) (s := startState .boot)
    (floppyBios_readsSectors (oneCluster 0xff)) rfl rfl
  exact hends.2.1.mpr ⟨0, by decide, by decide⟩

end Loader
end OSLib
