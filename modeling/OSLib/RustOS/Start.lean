import OSLib.Foundation.ProtectedMode
import OSLib.RustOS.PageTables
import Mathlib.Tactic.IntervalCases

/-!
# `start`: from the boot loader to 64-bit code

`boot.asm` is entered in protected mode.  It checks that a multiboot loader has called it and that
the processor has `cpuid` and long mode, sets up the page tables, turns paging on and jumps to
`long_mode_start` through the descriptor of a 64-bit code segment.  A check that fails ends in
`error`, which shows its number on the screen.

The routines are called: return addresses and flags go through a stack of 64 bytes that lies right
behind the tables, and after paging is on every access goes through the tables that the code has
just made.  `start_ends` says how a run ends: at the first check that fails, with its number on the
screen, or in 64-bit code, with the first GiB mapped to itself.

## What is left out

A comparison is taken together with the jump behind it, and the arithmetic flags it goes through are
not kept: no other instruction reads them, and what `pushfd` stores of them only comes back through
`popfd`.  The result therefore speaks of the other flags only (`arithmeticFlags`).

The processor writes to memory of its own accord.  It marks the descriptor that it loads into `cs`
as accessed, in the byte `gdt64 + 21`, and it marks the entries of the tables that it uses as
accessed and dirty.  Neither changes what the descriptor and the entries say, and the model leaves
both out; the result says nothing of that byte and of the bytes of the tables but for what they map
(`Started.mem`).

## The order of the results

`Keeps` is what the checks leave alone, and `Checks` the shape that all three of them have: called,
they either return with everything kept or come to `error` with their number.  The tables are those
of `PageTables`, made here by a routine that is called and returns.  Then paging is turned on by a
block that is fetched through no table and followed by one that is fetched through the new ones,
which `Flat` makes the same place.
-/

namespace OSLib
namespace RustOS

open Paging LongMode

/-! ## The code -/

/-- The places control comes to: the labels, what follows each call, and what follows the moment
when paging is on. -/
inductive StartLabel where
  | start | multibootChecked | cpuidChecked | longModeChecked | tablesSetUp | pagingEnabled
  | checkMultiboot | noMultiboot | checkCpuid | noCpuid | checkLongMode | noLongMode
  | tables (l : PageTablesLabel)
  | enablePaging | pagingOn
  | error | errorHlt
  | longModeStart | okayHlt
  deriving DecidableEq

/-- Where the linker put the code, `.rodata` and `.bss`. -/
structure Layout where
  addr : StartLabel → BitVec 32
  gdt64 : BitVec 32
  p4Table : BitVec 32

namespace Layout

variable (p : Processor) (x : Layout) (s : Cpu32)

/-- The three tables of `.bss`. -/
def pageTables : Tables := ⟨x.p4Table, x.p4Table + 4096, x.p4Table + 8192⟩

/-- `stack_top`, 64 bytes behind the tables. -/
@[irreducible] def stackTop : BitVec 32 := x.p4Table + 12352

/-- `gdt64.code`: the label stands behind two descriptors, so it is the selector of the third. -/
def gdt64Code : ℕ := 16

/-- `gdt64.pointer`, behind three descriptors. -/
def gdt64Pointer : BitVec 32 := x.gdt64 + 24

/-- What follows each call. -/
def returnPoints : List StartLabel :=
  [.multibootChecked, .cpuidChecked, .longModeChecked, .tablesSetUp, .pagingEnabled]

/-- The code as the linker placed it. -/
def text : Text StartLabel := ⟨x.addr, returnPoints⟩

/-- The registers `set_up_page_tables` uses. -/
def toBoot32 : Boot32 := ⟨s.eax, s.ecx, s.edx, s.mem⟩

/-- The state with those registers. -/
def withBoot32 (b : Boot32) : Cpu32 :=
  { s with eax := b.eax, ecx := b.ecx, edx := b.edx, mem := b.mem }

/-- `check_multiboot`. -/
def checkMultiboot : Option (StartLabel × Cpu32) :=
  if s.eax ≠ 0x36d76289 then some (.noMultiboot, s) else x.text.ret s

/-- `check_cpuid`. -/
def checkCpuid : Option (StartLabel × Cpu32) := do
  let s ← s.pushfd
  let s ← s.popEax
  let s := { s with ecx := s.eax }
  let s := { s with eax := s.eax ^^^ 1#32 <<< 21 }
  let s ← s.push s.eax
  let s ← s.popfd p
  let s ← s.pushfd
  let s ← s.popEax
  let s ← s.push s.ecx
  let s ← s.popfd p
  if s.eax = s.ecx then return (.noCpuid, s) else x.text.ret s

/-- `check_long_mode`. -/
def checkLongMode : Option (StartLabel × Cpu32) :=
  let s := { s with eax := 0x80000000 }
  let s := s.cpuid p
  if s.eax < 0x80000001 then some (.noLongMode, s)
  else
    let s := { s with eax := 0x80000001 }
    let s := s.cpuid p
    if s.edx &&& 1#32 <<< 29 = 0 then some (.noLongMode, s) else x.text.ret s

/-- `error`, up to `hlt`. -/
def error : Option (StartLabel × Cpu32) := do
  let s ← s.storeAt 0xb8000 0x4f524f45#32
  let s ← s.storeAt 0xb8004 0x4f3a4f52#32
  let s ← s.storeAt 0xb8008 0x4f204f20#32
  let s ← s.storeAt 0xb800a (s.eax.setWidth 8)
  return (.errorHlt, s)

/-- `enable_paging`, until `mov cr0, eax` takes effect. -/
def enablePaging : Option (StartLabel × Cpu32) := do
  let s := { s with eax := x.p4Table }
  let s := { s with ctl := { s.ctl with cr3 := s.eax.setWidth 64 } }
  let s := { s with eax := s.ctl.cr4 }
  let s := { s with eax := s.eax ||| 1#32 <<< 5 }
  let s := { s with ctl := { s.ctl with cr4 := s.eax } }
  let s := { s with ecx := 0xC0000080 }
  let s ← s.rdmsr
  let s := { s with eax := s.eax ||| 1#32 <<< 8 }
  let s ← s.wrmsr
  let s := { s with eax := s.ctl.cr0 }
  let s := { s with eax := s.eax ||| 1#32 <<< 31 }
  let s := { s with ctl := { s.ctl with cr0 := s.eax } }
  return (.pagingOn, s)

/-- The end of `start`: `lgdt [gdt64.pointer]` and the jump to `gdt64.code:long_mode_start`. -/
def jumpToLongMode : Option (StartLabel × Cpu32) := do
  let s ← s.lgdt x.gdt64Pointer
  let d ← s.ctl.codeDescriptor s.mem s.gdtr gdt64Code
  return (.longModeStart, { s with cs := d })

/-- `long_mode_start`, which is 64-bit code.  The null selector it loads into the registers of the
data segments is allowed there. -/
def longModeStart : Option (StartLabel × Cpu32) :=
  if s.ctl.Runs64 s.cs then
    -- `mov rax, 0x2f592f412f4b2f4f`, of which `eax` is the lower half
    ({ s with eax := 0x2f4b2f4f }.storeAt 0xb8000 0x2f592f412f4b2f4f#64).map fun s => (.okayHlt, s)
  else none

/-- The code at a label. -/
def block : StartLabel → Cpu32 → Option (StartLabel × Cpu32)
  | .start, s => x.text.call { s with esp := x.stackTop } .checkMultiboot .multibootChecked
  | .multibootChecked, s => x.text.call s .checkCpuid .cpuidChecked
  | .cpuidChecked, s => x.text.call s .checkLongMode .longModeChecked
  | .longModeChecked, s => x.text.call s (.tables .setUpPageTables) .tablesSetUp
  | .tablesSetUp, s => x.text.call s .enablePaging .pagingEnabled
  | .pagingEnabled, s => x.jumpToLongMode s
  | .checkMultiboot, s => x.checkMultiboot s
  | .noMultiboot, s => some (.error, s.setAl 0x30)
  | .checkCpuid, s => x.checkCpuid p s
  | .noCpuid, s => some (.error, s.setAl 0x31)
  | .checkLongMode, s => x.checkLongMode p s
  | .noLongMode, s => some (.error, s.setAl 0x32)
  | .tables .ret, s => x.text.ret s
  | .tables l, s =>
    -- paging is off here, so the addresses are physical
    if s.ctl.PagingOn then none
    else (x.pageTables.pageTablesStep (l, toBoot32 s)).map fun r => (.tables r.1, withBoot32 s r.2)
  | .enablePaging, s => x.enablePaging s
  | .pagingOn, s => x.text.ret s
  | .error, s => error s
  | .longModeStart, s => longModeStart s
  | .errorHlt, _ => none
  | .okayHlt, _ => none

/-- The code goes on where the translation leaves it in its place. -/
def step : StartLabel × Cpu32 → Option (StartLabel × Cpu32)
  | (l, s) =>
    if s.ctl.translate s.mem ((x.addr l).setWidth 64) = some (x.addr l).toNat then x.block p l s
    else none

end Layout

/-! ## The layout -/

variable {p : Processor} {x : Layout} {s s' s'' : Cpu32} {m : Bytes} {a b : ℕ}

namespace Layout

/-- What the linker script and the sections say of the addresses: everything is loaded from 1 MiB on
and in the first GiB, `.bss` is page-aligned, and `.rodata` lies elsewhere. -/
structure Linked (x : Layout) : Prop where
  aligned : x.p4Table.toNat % 4096 = 0
  bss_above : 0x100000 ≤ x.p4Table.toNat
  bss_below : x.p4Table.toNat + 12352 ≤ 2 ^ 30
  gdt_above : 0x100000 ≤ x.gdt64.toNat
  gdt_below : x.gdt64.toNat + 34 ≤ 2 ^ 30
  gdt_apart : x.gdt64.toNat + 34 ≤ x.p4Table.toNat ∨ x.p4Table.toNat + 12352 ≤ x.gdt64.toNat
  code_below : ∀ l, (x.addr l).toNat < 2 ^ 30
  addr_injective : ∀ l ∈ returnPoints, ∀ l' ∈ returnPoints, x.addr l = x.addr l' → l = l'

/-- The part of the stack that is used: a return address, and a word above it. -/
def OnStack (x : Layout) (a : ℕ) : Prop := x.stackTop.toNat - 8 ≤ a ∧ a < x.stackTop.toNat

/-- A routine has been called. -/
abbrev Called (x : Layout) (back : StartLabel) (s : Cpu32) : Prop :=
  x.text.Called x.stackTop back s

/-- The state in which a routine is entered. -/
abbrev entered (x : Layout) (back : StartLabel) (s : Cpu32) : Cpu32 :=
  x.text.entered s x.stackTop back

/-- What the checks leave as it is. -/
structure Keeps (x : Layout) (s s' : Cpu32) : Prop where
  ctl : s'.ctl = s.ctl
  eflags : s'.eflags = s.eflags
  mem : ∀ a, ¬ x.OnStack a → s'.mem a = s.mem a

theorem Keeps.refl (s : Cpu32) : x.Keeps s s := ⟨rfl, rfl, fun _ _ => rfl⟩

theorem Keeps.trans (h : x.Keeps s s') (h' : x.Keeps s' s'') : x.Keeps s s'' :=
  ⟨h'.ctl.trans h.ctl, h'.eflags.trans h.eflags, fun a ha => (h'.mem a ha).trans (h.mem a ha)⟩

variable {l back : StartLabel}

/-- An address in `.bss`. -/
theorem Linked.toNat_add (hx : x.Linked) {k : ℕ} (hk : k ≤ 12352) :
    (x.p4Table + BitVec.ofNat 32 k).toNat = x.p4Table.toNat + k := by
  have h := hx.bss_below
  rw [BitVec.toNat_add, BitVec.toNat_ofNat]
  omega

theorem Linked.toNat_stackTop (hx : x.Linked) :
    x.stackTop.toNat = x.p4Table.toNat + 12352 := by
  unfold stackTop
  exact hx.toNat_add (Nat.le_refl _)

theorem Linked.toNat_p3Table (hx : x.Linked) :
    x.pageTables.p3Table.toNat = x.p4Table.toNat + 4096 := hx.toNat_add (by decide)

theorem Linked.toNat_p2Table (hx : x.Linked) :
    x.pageTables.p2Table.toNat = x.p4Table.toNat + 8192 := hx.toNat_add (by decide)

theorem Linked.toNat_below (hx : x.Linked) : (x.stackTop - 4).toNat = x.stackTop.toNat - 4 := by
  have h := hx.toNat_stackTop
  have hlt := x.stackTop.isLt
  have h4 : (4 : BitVec 32).toNat = 4 := rfl
  rw [BitVec.toNat_sub, h4]
  omega

theorem Linked.text (hx : x.Linked) : x.text.Linked (2 ^ 30) :=
  ⟨hx.code_below, hx.addr_injective⟩

/-- Where the translation is flat the code goes on. -/
theorem Linked.step_of_flat (hx : x.Linked) (hflat : s.ctl.Flat s.mem (2 ^ 30)) :
    x.step p (l, s) = x.block p l s := if_pos (hx.text.translate_addr hflat)

theorem Linked.step_of_not_pagingOn (hx : x.Linked) (hp : ¬ s.ctl.PagingOn) :
    x.step p (l, s) = x.block p l s := hx.step_of_flat (Controls.flat_of_not_pagingOn hp)

/-- A call. -/
theorem Linked.call_eq (hx : x.Linked) (hflat : s.ctl.Flat s.mem (2 ^ 30))
    (hesp : s.esp = x.stackTop) : x.text.call s l back = some (l, x.entered back s) := by
  have htop := hx.toNat_stackTop
  have hbelow := hx.bss_below
  exact Text.call_eq hflat hesp (by omega) (by omega)

/-- The return from it. -/
theorem Linked.ret_eq (hx : x.Linked) (hflat : s.ctl.Flat s.mem (2 ^ 30)) (h : x.Called back s)
    (hback : back ∈ returnPoints) : x.text.ret s = some (back, { s with esp := x.stackTop }) := by
  have htop := hx.toNat_stackTop
  have hbelow := hx.bss_below
  exact Text.ret_eq hx.text hflat h (by omega) (by omega) hback

/-! ## The checks -/

/-- A check that is started at `l` ends behind its call if it succeeds, and otherwise in `error`
with its number in `al`. -/
def Checks (p : Processor) (x : Layout) (l back : StartLabel) (ok : Prop) (code : BitVec 8)
    (s : Cpu32) : Prop :=
  ∃ s', x.Keeps s s' ∧ (ok → s'.esp = x.stackTop ∧ Arrives (x.step p) (l, s) (back, s')) ∧
    (¬ ok → s'.eax.setWidth 8 = code ∧ Arrives (x.step p) (l, s) (.error, s'))

theorem Linked.keeps_entered (hx : x.Linked) : x.Keeps s (x.entered back s) := by
  have htop := hx.toNat_stackTop
  refine ⟨rfl, rfl, fun a ha => ?_⟩
  unfold OnStack at ha
  exact Text.mem_entered (by omega) (by omega)

/-- The end of a check that compares and returns. -/
theorem checks_of_called {ok : Prop} {code : BitVec 8} {callee no : StartLabel} {t : Cpu32}
    (hx : x.Linked) (hp : ¬ s.ctl.PagingOn) (hback : back ∈ returnPoints)
    (hkeeps : x.Keeps s t) (hcalled : x.Called back t)
    (hrun : Arrives (x.step p) (l, s) (callee, x.entered back s))
    (hok : ok → x.block p callee (x.entered back s) = x.text.ret t)
    (hno : ¬ ok → x.block p callee (x.entered back s) = some (no, t))
    (herror : ∀ t, x.block p no t = some (.error, t.setAl code)) : x.Checks p l back ok code s := by
  have hpt : ¬ t.ctl.PagingOn := by rwa [hkeeps.ctl]
  have hpe : ¬ (x.entered back s).ctl.PagingOn := hp
  by_cases h : ok
  · refine ⟨{ t with esp := x.stackTop }, ⟨hkeeps.ctl, hkeeps.eflags, hkeeps.mem⟩,
      fun _ => ⟨rfl, hrun.trans (Arrives.single ?_)⟩, fun hn => absurd h hn⟩
    rw [hx.step_of_not_pagingOn hpe, hok h,
      hx.ret_eq (Controls.flat_of_not_pagingOn hpt) hcalled hback]
  · refine ⟨t.setAl code, ⟨hkeeps.ctl, hkeeps.eflags, hkeeps.mem⟩, fun ho => absurd ho h,
      fun _ => ⟨Cpu32.setAl_al code,
        hrun.trans (Arrives.head (b := (no, t)) ?_ (Arrives.single ?_))⟩⟩
    · rw [hx.step_of_not_pagingOn hpe, hno h]
    · rw [hx.step_of_not_pagingOn hpt, herror]

/-- `check_multiboot`. -/
theorem checkMultiboot_checks (hx : x.Linked) (hp : ¬ s.ctl.PagingOn) :
    x.Checks p .start .multibootChecked (s.eax = 0x36d76289) 0x30 s := by
  have hcall : Arrives (x.step p) (.start, s)
      (.checkMultiboot, x.entered .multibootChecked { s with esp := x.stackTop }) := by
    refine Arrives.single ?_
    rw [hx.step_of_not_pagingOn hp]
    exact hx.call_eq (Controls.flat_of_not_pagingOn hp) rfl
  refine checks_of_called hx hp (by decide) hx.keeps_entered Text.called_entered hcall
    (fun h => if_neg (not_not.mpr h)) (fun h => if_pos h) fun _ => rfl

/-- What `check_cpuid` compares: the flags after the attempt to turn the ID flag over, and those
before it. -/
theorem checkCpuid_eq (hx : x.Linked) (hp : ¬ s.ctl.PagingOn) (hesp : s.esp = x.stackTop - 4) :
    ∃ t : Cpu32, x.checkCpuid p s = (if t.eax = t.ecx then some (.noCpuid, t) else x.text.ret t) ∧
      (t.eax = t.ecx ↔ ¬ p.HasCpuid) ∧ t.ctl = s.ctl ∧ t.eflags = s.eflags ∧ t.esp = s.esp ∧
      ∀ a, a < x.stackTop.toNat - 8 ∨ x.stackTop.toNat - 4 ≤ a → t.mem a = s.mem a := by
  have htop := hx.toNat_stackTop
  have hbelow := hx.bss_below
  have hnat : s.esp.toNat = x.stackTop.toNat - 4 := by rw [hesp, hx.toNat_below]
  have h4 : 4 ≤ s.esp.toNat := by omega
  have hle : s.esp.toNat ≤ 2 ^ 30 := by omega
  let f := Processor.flagsImage s.eflags
  let g := Processor.flagsImage (p.popfd s.eflags (f ^^^ 1#32 <<< 21))
  let a := s.esp.toNat - 4
  have hrun : x.checkCpuid p s =
      let t := { s with
        eax := g, ecx := f,
        mem := (((s.mem.putWord a f).putWord a (f ^^^ 1#32 <<< 21)).putWord a g).putWord a f }
      if t.eax = t.ecx then some (.noCpuid, t) else x.text.ret t := by
    rw [checkCpuid, Cpu32.pushfd, Cpu32.popEax_push hp h4 hle, Cpu32.popfd_push ?_ ?_ ?_,
      Cpu32.pushfd, Cpu32.popEax_push ?_ ?_ ?_, Cpu32.popfd_push ?_ ?_ ?_]
    · simp only [popfd_flagsImage]
      rfl
    all_goals first | exact hp | exact h4 | exact hle
  have hword : g = f ↔ ¬ p.HasCpuid := by
    have hflip : f ^^^ 1#32 <<< 21 ≠ f := by
      intro h
      have hbit := congrArg (fun v => v.getLsbD 21) h
      rw [BitVec.getLsbD_xor, getLsbD_idFlag] at hbit
      cases f.getLsbD 21 <;> simp at hbit
    rw [show g = _ from flagsImage_popfd_flip p s.eflags]
    by_cases hid : p.HasCpuid
    · rw [if_pos hid]
      exact iff_of_false hflip (not_not.mpr hid)
    · rw [if_neg hid]
      exact iff_of_true rfl hid
  refine ⟨_, hrun, hword, rfl, rfl, rfl, fun b hb => ?_⟩
  have hout : b < a ∨ a + 4 ≤ b := by
    show b < s.esp.toNat - 4 ∨ s.esp.toNat - 4 + 4 ≤ b
    omega
  exact (Bytes.putWord_of_apart hout).trans ((Bytes.putWord_of_apart hout).trans
    ((Bytes.putWord_of_apart hout).trans (Bytes.putWord_of_apart hout)))

/-- `check_cpuid`. -/
theorem checkCpuid_checks (hx : x.Linked) (hp : ¬ s.ctl.PagingOn) (hesp : s.esp = x.stackTop) :
    x.Checks p .multibootChecked .cpuidChecked p.HasCpuid 0x31 s := by
  have hflat := Controls.flat_of_not_pagingOn hp (m := s.mem) (n := 2 ^ 30)
  have hcall : Arrives (x.step p) (.multibootChecked, s)
      (.checkCpuid, x.entered .cpuidChecked s) :=
    Arrives.single ((hx.step_of_not_pagingOn hp).trans (hx.call_eq hflat hesp))
  obtain ⟨t, hrun, heq, hctl, hflags, htesp, hmem⟩ :=
    checkCpuid_eq (p := p) (s := x.entered .cpuidChecked s) hx hp rfl
  have hback : t.mem.word (x.stackTop.toNat - 4) 32 = x.addr .cpuidChecked :=
    (Bytes.word_congr fun a ha _ => hmem a (.inr ha)).trans Text.called_entered.word
  have hkeeps : x.Keeps (x.entered .cpuidChecked s) t := by
    refine ⟨hctl, hflags, fun a ha => hmem a ?_⟩
    unfold OnStack at ha
    omega
  refine checks_of_called hx hp (by decide) (hx.keeps_entered.trans hkeeps) ⟨htesp, hback⟩ hcall
    (fun h => hrun.trans (if_neg fun he => heq.mp he h)) (fun h => hrun.trans (if_pos (heq.mpr h)))
    fun _ => rfl

/-- What `check_long_mode` asks. -/
theorem checkLongMode_eq (x : Layout) (p : Processor) (s : Cpu32) :
    ∃ t : Cpu32,
      x.checkLongMode p s = (if p.HasLongMode then x.text.ret t else some (.noLongMode, t)) ∧
      t.ctl = s.ctl ∧ t.eflags = s.eflags ∧ t.esp = s.esp ∧ t.mem = s.mem := by
  rw [checkLongMode]
  by_cases hleaf : (p.cpuid 0x80000000).eax < 0x80000001
  · have hno : ¬ p.HasLongMode := fun h => absurd (BitVec.not_le.mpr hleaf) (not_not.mpr h.1)
    refine ⟨({ s with eax := 0x80000000 } : Cpu32).cpuid p, ?_, rfl, rfl, rfl, rfl⟩
    rw [if_neg hno]
    exact if_pos hleaf
  · have hle : 0x80000001 ≤ (p.cpuid 0x80000000).eax := BitVec.not_lt.mp hleaf
    refine ⟨({ ({ s with eax := 0x80000000 } : Cpu32).cpuid p with eax := 0x80000001 }).cpuid p,
      ?_, rfl, rfl, rfl, rfl⟩
    refine (if_neg hleaf).trans ?_
    by_cases hbit : (p.cpuid 0x80000001).edx.getLsbD 29 = true
    · rw [if_pos (show p.HasLongMode from ⟨hle, hbit⟩)]
      refine if_neg fun hzero => ?_
      have hclear : (p.cpuid 0x80000001).edx.getLsbD 29 = false :=
        (and_bit_eq_zero_iff _ 29 (by decide)).mp hzero
      exact Bool.noConfusion (hbit.symm.trans hclear)
    · rw [if_neg fun h : p.HasLongMode => hbit h.2]
      exact if_pos ((and_bit_eq_zero_iff _ 29 (by decide)).mpr (Bool.not_eq_true _ ▸ hbit))

/-- `check_long_mode`. -/
theorem checkLongMode_checks (hx : x.Linked) (hp : ¬ s.ctl.PagingOn) (hesp : s.esp = x.stackTop) :
    x.Checks p .cpuidChecked .longModeChecked p.HasLongMode 0x32 s := by
  have hflat := Controls.flat_of_not_pagingOn hp (m := s.mem) (n := 2 ^ 30)
  have hcall : Arrives (x.step p) (.cpuidChecked, s)
      (.checkLongMode, x.entered .longModeChecked s) :=
    Arrives.single ((hx.step_of_not_pagingOn hp).trans (hx.call_eq hflat hesp))
  obtain ⟨t, hrun, hctl, hflags, htesp, hmem⟩ :=
    checkLongMode_eq x p (x.entered .longModeChecked s)
  have hcalled : x.Called .longModeChecked t :=
    ⟨htesp.trans Text.called_entered.esp, hmem ▸ Text.called_entered.word⟩
  refine checks_of_called hx hp (by decide)
    (hx.keeps_entered.trans ⟨hctl, hflags, fun a _ => congrFun hmem a⟩) hcalled hcall
    (fun h => hrun.trans (if_pos h)) (fun h => hrun.trans (if_neg h)) fun _ => rfl

end Layout

/-! ## The tables -/

theorem linkTables_mem (t : Tables) (b : Boot32) :
    (t.linkTables b).mem =
      Bytes.putWord (b.mem.putWord t.p4Table.toNat (t.p3Table ||| 0b11)) t.p3Table.toNat
        (t.p2Table ||| 0b11) := rfl

/-- The counter of the loop is in range. -/
def CountsPages : PageTablesLabel × Boot32 → Prop
  | (.mapP2Table, b) => b.ecx.toNat < 512
  | _ => True

namespace Layout

theorem Linked.placed (hx : x.Linked) : x.pageTables.Placed := by
  have h4 := hx.aligned
  have h3 := hx.toNat_p3Table
  have h2 := hx.toNat_p2Table
  have hne : ∀ q r : BitVec 32, q.toNat ≠ r.toNat → q ≠ r := fun q r h heq =>
    h (congrArg BitVec.toNat heq)
  exact ⟨h4, by omega, by omega, hne _ _ (by show x.p4Table.toNat ≠ _; omega),
    hne _ _ (by show x.p4Table.toNat ≠ _; omega), hne _ _ (by omega)⟩

/-- The bytes of the tables. -/
def InTables (x : Layout) (a : ℕ) : Prop :=
  x.p4Table.toNat ≤ a ∧ a < x.p4Table.toNat + 12288

/-- A step of `set_up_page_tables` stores into the tables. -/
theorem Linked.pageTablesStep_mem (hx : x.Linked) {r r' : PageTablesLabel × Boot32}
    (hr : CountsPages r) (hstep : x.pageTables.pageTablesStep r = some r') :
    CountsPages r' ∧ ∀ a, ¬ x.InTables a → r'.2.mem a = r.2.mem a := by
  have h3 := hx.toNat_p3Table
  have h2 := hx.toNat_p2Table
  obtain ⟨l, b⟩ := r
  cases l with
  | setUpPageTables =>
    obtain rfl := Option.some.inj hstep
    have h4 : x.pageTables.p4Table.toNat = x.p4Table.toNat := rfl
    refine ⟨(by decide : 0 < 512), fun a ha => ?_⟩
    unfold InTables at ha
    show (x.pageTables.linkTables b).mem a = b.mem a
    rw [linkTables_mem, Bytes.putWord_of_apart (by omega), Bytes.putWord_of_apart (by omega)]
  | mapP2Table =>
    have hlt : b.ecx.toNat < 512 := hr
    have hecx : b.ecx = BitVec.ofNat 32 b.ecx.toNat := by
      rw [BitVec.ofNat_toNat, BitVec.setWidth_eq]
    obtain ⟨hnext, hmem⟩ := mapEntry_eq hx.placed hlt hecx
    obtain rfl := Option.some.inj hstep
    refine ⟨?_, fun a ha => ?_⟩
    · by_cases hend : (x.pageTables.mapEntry b).ecx ≠ 512
      · rw [if_pos hend]
        show (x.pageTables.mapEntry b).ecx.toNat < 512
        have hne : (x.pageTables.mapEntry b).ecx.toNat ≠ 512 := fun h =>
          hend (BitVec.eq_of_toNat_eq h)
        rw [hnext, BitVec.toNat_ofNat] at hne ⊢
        omega
      · rw [if_neg hend]
        trivial
    · unfold InTables at ha
      show (x.pageTables.mapEntry b).mem a = b.mem a
      rw [hmem]
      exact Bytes.putWord_of_apart (w := 32) (by omega)
  | ret => exact absurd hstep (by simp [Tables.pageTablesStep])

/-- The pages of the tables, before they are filled. -/
theorem zeroPage_of_zero {q : BitVec 32} (h : ∀ a, x.InTables a → m a = 0)
    (hlow : x.p4Table.toNat ≤ q.toNat) (hhigh : q.toNat + 4096 ≤ x.p4Table.toNat + 12288) :
    ZeroPage m q := fun o ho => h _ ⟨by omega, by omega⟩

/-- **`set_up_page_tables`**, called with the tables empty. -/
theorem tables_arrives (hx : x.Linked) (hp : ¬ s.ctl.PagingOn)
    (hzero : ∀ a, x.InTables a → s.mem a = 0) :
    ∃ b : Boot32, Arrives (x.step p) (.tables .setUpPageTables, s)
        (.tables .ret, withBoot32 s b) ∧
      x.pageTables.Mapped b.mem 512 ∧ ∀ a, ¬ x.InTables a → b.mem a = s.mem a := by
  have h3 := hx.toNat_p3Table
  have h2 := hx.toNat_p2Table
  have hlinked := mapped_linkTables (s := toBoot32 s) hx.placed
    (zeroPage_of_zero hzero (Nat.le_refl _) (Nat.add_le_add_left (by decide) _))
    (zeroPage_of_zero hzero (by omega) (by omega)) (zeroPage_of_zero hzero (by omega) (by omega))
  obtain ⟨b, hloop, hmapped⟩ := mapP2Table_arrives hx.placed (n := 511) (i := 0) rfl rfl hlinked
  have hrun : Arrives x.pageTables.pageTablesStep (.setUpPageTables, toBoot32 s) (.ret, b) :=
    Arrives.head rfl hloop
  have hkept := Emits.invariant
    (P := fun r => CountsPages r ∧ ∀ a, ¬ x.InTables a → r.2.mem a = s.mem a)
    (fun r r' hr hstep => by
      obtain ⟨hcount, hmem⟩ := hx.pageTablesStep_mem hr.1 hstep
      exact ⟨hcount, fun a ha => (hmem a ha).trans (hr.2 a ha)⟩)
    hrun ⟨trivial, fun _ _ => rfl⟩
  refine ⟨b, ?_, hmapped, hkept.2⟩
  refine Emits.map (fun r => (StartLabel.tables r.1, withBoot32 s r.2)) ?_ hrun
  rintro ⟨l, c⟩ r' hstep
  have hpc : ¬ (withBoot32 s c).ctl.PagingOn := hp
  rw [hx.step_of_not_pagingOn hpc]
  cases l with
  | ret => exact absurd hstep (by simp [Tables.pageTablesStep])
  | setUpPageTables =>
    refine (if_neg hpc).trans ?_
    show (x.pageTables.pageTablesStep (.setUpPageTables, c)).map _ = _
    rw [hstep, Option.map_some]
    rfl
  | mapP2Table =>
    refine (if_neg hpc).trans ?_
    show (x.pageTables.pageTablesStep (.mapP2Table, c)).map _ = _
    rw [hstep, Option.map_some]
    rfl

/-! ## The screen -/

/-- The text at the top of the screen, all of it with one attribute. -/
def Shows (m : Bytes) (attr : BitVec 8) (text : List (BitVec 8)) : Prop :=
  ∀ i < 2 * text.length, m (0xb8000 + i) = (text.flatMap fun c => [c, attr]).getD i 0

/-- The stores of `error`. -/
def errorWrites (code : BitVec 8) : List Bytes.Write :=
  [⟨0xb8000, 4, Bytes.byteOf 0x4f524f45#32⟩, ⟨0xb8004, 4, Bytes.byteOf 0x4f3a4f52#32⟩,
    ⟨0xb8008, 4, Bytes.byteOf 0x4f204f20#32⟩, ⟨0xb800a, 1, Bytes.byteOf code⟩]

/-- `ERR: ` and the number of the check. -/
def errorText (code : BitVec 8) : List (BitVec 8) := [0x45, 0x52, 0x52, 0x3a, 0x20, code]

theorem error_eq (hp : ¬ s.ctl.PagingOn) :
    error s = some (.errorHlt,
      { s with mem := Bytes.applyAll s.mem (errorWrites (s.eax.setWidth 8)) }) := by
  have hflat : ∀ m, s.ctl.Flat m (2 ^ 30) := fun _ => Controls.flat_of_not_pagingOn hp
  simp only [error, Option.bind_eq_bind]
  rw [Cpu32.storeAt_eq ?_ ?_ ?_, Option.bind_some, Cpu32.storeAt_eq ?_ ?_ ?_, Option.bind_some,
    Cpu32.storeAt_eq ?_ ?_ ?_, Option.bind_some, Cpu32.storeAt_eq ?_ ?_ ?_, Option.bind_some]
  · rfl
  all_goals first | exact hflat _ | decide

theorem shows_errorWrites (m : Bytes) (code : BitVec 8) :
    Shows (Bytes.applyAll m (errorWrites code)) 0x4f (errorText code) := by
  intro i hi
  have hlt : i < 12 := hi
  rw [Bytes.applyAll_eq]
  interval_cases i <;>
    simp [errorWrites, Bytes.written, Bytes.Write.Covers, Bytes.byteOf, errorText]

theorem errorWrites_kept (m : Bytes) (code : BitVec 8) (h : a < 0xb8000 ∨ 0xb800c ≤ a) :
    Bytes.applyAll m (errorWrites code) a = m a := by
  rw [Bytes.applyAll_eq, Bytes.written_eq_none]
  · rfl
  · intro w hw hcov
    simp only [errorWrites, List.mem_cons, List.not_mem_nil, or_false] at hw
    unfold Bytes.Write.Covers at hcov
    rcases hw with rfl | rfl | rfl | rfl <;> simp only at hcov <;> omega

/-! ## Paging -/

/-- The tables hold after changes elsewhere. -/
theorem Linked.mapped_congr (hx : x.Linked) {m' : Bytes} (h : x.pageTables.Mapped m 512)
    (hmem : ∀ a, x.InTables a → m' a = m a) : x.pageTables.Mapped m' 512 := by
  have h4 : x.pageTables.p4Table.toNat = x.p4Table.toNat := rfl
  have h3 := hx.toNat_p3Table
  have h2 := hx.toNat_p2Table
  have hword : ∀ a, x.p4Table.toNat ≤ a → a + 8 ≤ x.p4Table.toNat + 12288 →
      m'.word a 64 = m.word a 64 := fun a hlow hhigh =>
    Bytes.word_congr fun b hb hlt => hmem b ⟨by omega, by omega⟩
  exact ⟨fun k hk => (hword _ (by omega) (by omega)).trans (h.p4 k hk),
    fun k hk => (hword _ (by omega) (by omega)).trans (h.p3 k hk),
    fun k hk => (hword _ (by omega) (by omega)).trans (h.p2 k hk)⟩

/-- **With the tables in `cr3` the first GiB stays where it is.** -/
theorem Linked.flat_of_mapped (hx : x.Linked) {c : Controls} (hactive : c.Active)
    (hcr3 : c.cr3 = x.p4Table.setWidth 64) (h : x.pageTables.Mapped m 512) :
    c.Flat m (2 ^ 30) := by
  intro va hva
  have haligned := hx.aligned
  have hlt := x.p4Table.isLt
  have hframe : Paging.frame 12 c.cr3 = x.p4Table.toNat := by
    rw [Paging.frame, hcr3, BitVec.toNat_setWidth]
    omega
  rw [Controls.translate_of_active hactive, hframe]
  exact (h.mapsWritable hx.placed hva).1

/-- **`enable_paging`** makes long mode active. -/
theorem enablePaging_eq (hprotected : s.ctl.cr0.getLsbD 0 = true) :
    ∃ t : Cpu32, x.enablePaging s = some (.pagingOn, t) ∧ t.ctl.Active ∧
      t.ctl.cr3 = x.p4Table.setWidth 64 ∧ t.esp = s.esp ∧ t.eflags = s.eflags ∧ t.mem = s.mem := by
  refine ⟨_, rfl, ⟨?_, ?_, ?_, ?_⟩, rfl, rfl, rfl, rfl⟩
  · show (s.ctl.cr0 ||| 1#32 <<< 31).getLsbD 0 = true
    rw [BitVec.getLsbD_or, hprotected, Bool.true_or]
  · exact getLsbD_or_bit _ 31 (by decide)
  · exact getLsbD_or_bit _ 5 (by decide)
  · show (s.ctl.efer.extractLsb' 32 32 ++ (s.ctl.efer.setWidth 32 ||| 1#32 <<< 8)).getLsbD 8 = true
    rw [BitVec.getLsbD_append]
    exact getLsbD_or_bit _ 8 (by decide)

/-! ## The 64-bit segment -/

/-- The descriptor of the code segment. -/
def codeSegment : BitVec 64 := 1#64 <<< 43 ||| 1#64 <<< 44 ||| 1#64 <<< 47 ||| 1#64 <<< 53

/-- `.rodata`. -/
structure Rodata (x : Layout) (m : Bytes) : Prop where
  null : m.word x.gdt64.toNat 64 = 0
  code : m.word (x.gdt64.toNat + 8) 64 = codeSegment
  code' : m.word (x.gdt64.toNat + 16) 64 = codeSegment
  limit : m.word (x.gdt64.toNat + 24) 16 = 23
  base : m.word (x.gdt64.toNat + 26) 64 = x.gdt64.setWidth 64

/-- The bytes of `.rodata`. -/
def InRodata (x : Layout) (a : ℕ) : Prop := x.gdt64.toNat ≤ a ∧ a < x.gdt64.toNat + 34

theorem Rodata.congr {m' : Bytes} (h : x.Rodata m) (hmem : ∀ a, x.InRodata a → m' a = m a) :
    x.Rodata m' := by
  have hword : ∀ k w, k + w / 8 ≤ 34 →
      m'.word (x.gdt64.toNat + k) w = m.word (x.gdt64.toNat + k) w := fun k w hk =>
    Bytes.word_congr fun b hb hlt => hmem b ⟨by omega, by omega⟩
  exact ⟨(hword 0 64 (by decide)).trans h.null, (hword 8 64 (by decide)).trans h.code,
    (hword 16 64 (by decide)).trans h.code', (hword 24 16 (by decide)).trans h.limit,
    (hword 26 64 (by decide)).trans h.base⟩

/-- The code stores nothing into `.rodata`. -/
theorem Linked.not_inRodata (hx : x.Linked) (h : x.InTables a ∨ x.OnStack a) : ¬ x.InRodata a := by
  have htop := hx.toNat_stackTop
  have hapart := hx.gdt_apart
  unfold InTables OnStack at h
  unfold InRodata
  omega

/-- **The jump to 64-bit code.** -/
theorem jumpToLongMode_eq (hx : x.Linked) (hflat : s.ctl.Flat s.mem (2 ^ 30))
    (hdata : x.Rodata s.mem) :
    ∃ t : Cpu32, x.jumpToLongMode s = some (.longModeStart, t) ∧ t.cs = codeSegment ∧
      t.ctl = s.ctl ∧ t.esp = s.esp ∧ t.eflags = s.eflags ∧ t.mem = s.mem := by
  have habove := hx.gdt_above
  have hbelow := hx.gdt_below
  have haddr : ∀ k ≤ 34, ((x.gdt64 + BitVec.ofNat 32 k).setWidth 64).toNat = x.gdt64.toNat + k := by
    intro k hk
    rw [BitVec.toNat_setWidth, BitVec.toNat_add, BitVec.toNat_ofNat]
    omega
  have hlimit : s.ctl.load s.mem (x.gdt64Pointer.setWidth 64) 16 = some 23 := by
    have ha := haddr 24 (by decide)
    have hload : s.ctl.load s.mem ((x.gdt64 + BitVec.ofNat 32 24).setWidth 64) 16 =
        some (s.mem.word ((x.gdt64 + BitVec.ofNat 32 24).setWidth 64).toNat 16) :=
      hflat.load (by decide) (by omega) (by decide)
    rwa [ha, hdata.limit] at hload
  have hbase : s.ctl.load s.mem ((x.gdt64Pointer + 2).setWidth 64) 32 = some x.gdt64 := by
    have ha := haddr 26 (by decide)
    have hload : s.ctl.load s.mem ((x.gdt64 + BitVec.ofNat 32 26).setWidth 64) 32 =
        some (s.mem.word ((x.gdt64 + BitVec.ofNat 32 26).setWidth 64).toNat 32) :=
      hflat.load (by decide) (by omega) (by decide)
    have hadd : x.gdt64Pointer + 2 = x.gdt64 + BitVec.ofNat 32 26 := BitVec.add_assoc _ _ _
    rw [hadd, hload, ha, ← Bytes.word_setWidth, hdata.base]
    refine congrArg some (BitVec.eq_of_toNat_eq ?_)
    rw [BitVec.toNat_setWidth, BitVec.toNat_setWidth]
    omega
  have hdescriptor : s.ctl.codeDescriptor s.mem ⟨23, x.gdt64.setWidth 64⟩ gdt64Code =
      some codeSegment := by
    refine Controls.codeDescriptor_eq ?_ (by decide)
    have ha : (x.gdt64.setWidth 64 + BitVec.ofNat 64 16).toNat = x.gdt64.toNat + 16 := by
      rw [BitVec.toNat_add, BitVec.toNat_setWidth, BitVec.toNat_ofNat]
      omega
    have hload : s.ctl.load s.mem (x.gdt64.setWidth 64 + BitVec.ofNat 64 16) 64 =
        some (s.mem.word (x.gdt64.setWidth 64 + BitVec.ofNat 64 16).toNat 64) :=
      hflat.load (by decide) (by omega) (by decide)
    rw [ha, hdata.code'] at hload
    exact (if_pos (by decide : 16 + 7 ≤ (23 : BitVec 16).toNat)).trans hload
  refine ⟨{ s with gdtr := ⟨23, x.gdt64.setWidth 64⟩, cs := codeSegment }, ?_, rfl, rfl, rfl, rfl,
    rfl⟩
  simp only [jumpToLongMode, Cpu32.lgdt, hlimit, hbase, hdescriptor, Option.bind_eq_bind,
    Option.bind_some, Option.pure_def]

/-! ## The run -/

/-- `start` is entered in protected mode without paging, with the program in memory. -/
structure Entered (x : Layout) (s : Cpu32) : Prop where
  protected_mode : s.ctl.cr0.getLsbD 0 = true
  not_paging : ¬ s.ctl.PagingOn
  bss : ∀ a, x.InTables a → s.mem a = 0
  rodata : x.Rodata s.mem

/-- The number of the first check that fails. -/
def firstFailure (p : Processor) (eax : BitVec 32) : Option (BitVec 8) :=
  if eax ≠ 0x36d76289 then some 0x30
  else if ¬ p.HasCpuid then some 0x31
  else if ¬ p.HasLongMode then some 0x32
  else none

/-- A run that has failed: the message is on the screen, and nothing else has changed but the
stack. -/
structure Failed (x : Layout) (code : BitVec 8) (s s' : Cpu32) : Prop where
  screen : Shows s'.mem 0x4f (errorText code)
  ctl : s'.ctl = s.ctl
  mem : ∀ a, ¬ x.OnStack a → a < 0xb8000 ∨ 0xb800c ≤ a → s'.mem a = s.mem a

/-- `CF`, `PF`, `AF`, `ZF`, `SF` and `OF`. -/
def arithmeticFlags : BitVec 32 := 0x8d5

/-- A run that has reached 64-bit code: the first GiB is mapped to itself and nothing else is, the
flags but the arithmetic ones are as before, and besides the stack, the tables and the byte with the
accessed bit of the descriptor in `cs` only the screen has changed. -/
structure Started (x : Layout) (s s' : Cpu32) : Prop where
  runs64 : s'.ctl.Runs64 s'.cs
  cr3 : s'.ctl.cr3 = x.p4Table.setWidth 64
  low : ∀ va : BitVec 64, va.toNat < 2 ^ 30 →
    MapsWritable (quads s'.mem) x.p4Table.toNat va va.toNat
  high : ∀ va : BitVec 64, 2 ^ 30 ≤ va.toNat → walk (quads s'.mem) x.p4Table.toNat va = none
  esp : s'.esp = x.stackTop
  eflags : s'.eflags &&& ~~~arithmeticFlags = s.eflags &&& ~~~arithmeticFlags
  screen : Shows s'.mem 0x2f [0x4f, 0x4b, 0x41, 0x59]
  mem : ∀ a, ¬ x.OnStack a → ¬ x.InTables a → a ≠ x.gdt64.toNat + gdt64Code + 5 →
    a < 0xb8000 ∨ 0xb8008 ≤ a → s'.mem a = s.mem a

/-- `error` ends the run. -/
theorem error_arrives {code : BitVec 8} (hx : x.Linked) (hp : ¬ s.ctl.PagingOn)
    (hcode : s.eax.setWidth 8 = code) :
    ∃ s', Arrives (x.step p) (.error, s) (.errorHlt, s') ∧ s'.ctl = s.ctl ∧
      s'.mem = Bytes.applyAll s.mem (errorWrites code) := by
  refine ⟨{ s with mem := Bytes.applyAll s.mem (errorWrites code) }, Arrives.single ?_, rfl, rfl⟩
  rw [hx.step_of_not_pagingOn hp, ← hcode]
  exact error_eq hp

/-- A check that fails, with what has been kept until then. -/
theorem Checks.failed {ok : Prop} {code : BitVec 8} {s₀ : Cpu32} (hx : x.Linked)
    (hp : ¬ s.ctl.PagingOn) (hkept : x.Keeps s₀ s) (h : x.Checks p l back ok code s)
    (hno : ¬ ok) :
    ∃ s', Arrives (x.step p) (l, s) (.errorHlt, s') ∧ x.Failed code s₀ s' := by
  obtain ⟨t, hkeeps, -, hfail⟩ := h
  obtain ⟨hal, hrun⟩ := hfail hno
  have hpt : ¬ t.ctl.PagingOn := by rwa [hkeeps.ctl]
  obtain ⟨s', herror, hctl, hmem⟩ := error_arrives (p := p) hx hpt hal
  have hall := hkept.trans hkeeps
  refine ⟨s', hrun.trans herror, ?_, hctl.trans hall.ctl, fun a ha hout => ?_⟩
  · rw [hmem]
    exact shows_errorWrites _ _
  · rw [hmem, errorWrites_kept _ _ hout]
    exact hall.mem a ha

/-- The used part of the stack lies behind the tables. -/
theorem Linked.not_inTables (hx : x.Linked) (h : x.OnStack a) : ¬ x.InTables a := by
  have htop := hx.toNat_stackTop
  unfold OnStack at h
  unfold InTables
  omega

/-- The call of `set_up_page_tables`, and the return from it. -/
theorem tablesSetUp_arrives (hx : x.Linked) (hp : ¬ s.ctl.PagingOn) (hesp : s.esp = x.stackTop)
    (hzero : ∀ a, x.InTables a → s.mem a = 0) :
    ∃ t : Cpu32, Arrives (x.step p) (.longModeChecked, s) (.tablesSetUp, t) ∧
      x.pageTables.Mapped t.mem 512 ∧ t.ctl = s.ctl ∧ t.eflags = s.eflags ∧ t.esp = x.stackTop ∧
      ∀ a, ¬ x.OnStack a → ¬ x.InTables a → t.mem a = s.mem a := by
  have hflat : ∀ m, s.ctl.Flat m (2 ^ 30) := fun _ => Controls.flat_of_not_pagingOn hp
  have hkeeps : x.Keeps s (x.entered .tablesSetUp s) := hx.keeps_entered
  have hcall : Arrives (x.step p) (.longModeChecked, s)
      (.tables .setUpPageTables, x.entered .tablesSetUp s) :=
    Arrives.single ((hx.step_of_not_pagingOn hp).trans (hx.call_eq (hflat _) hesp))
  obtain ⟨b, hrun, hmapped, hmem⟩ := tables_arrives (p := p) (s := x.entered .tablesSetUp s) hx hp
    fun a ha => (hkeeps.mem a fun hon => hx.not_inTables hon ha).trans (hzero a ha)
  have hcalled : x.Called .tablesSetUp (withBoot32 (x.entered .tablesSetUp s) b) := by
    have htop := hx.toNat_stackTop
    have hword : b.mem.word (x.stackTop.toNat - 4) 32 =
        (x.entered .tablesSetUp s).mem.word (x.stackTop.toNat - 4) 32 :=
      Bytes.word_congr fun a ha hlt => hmem a (hx.not_inTables ⟨by omega, by omega⟩)
    exact ⟨rfl, hword.trans Text.called_entered.word⟩
  refine ⟨{ withBoot32 (x.entered .tablesSetUp s) b with esp := x.stackTop },
    (hcall.trans hrun).trans (Arrives.single ?_), hmapped, rfl, rfl, rfl,
    fun a hon hin => (hmem a hin).trans (hkeeps.mem a hon)⟩
  have hpb : ¬ (withBoot32 (x.entered .tablesSetUp s) b).ctl.PagingOn := hp
  exact (hx.step_of_not_pagingOn hpb).trans (hx.ret_eq (hflat _) hcalled (by decide))

/-- The call of `enable_paging`, and the return from it through the new tables. -/
theorem pagingEnabled_arrives (hx : x.Linked) (hp : ¬ s.ctl.PagingOn) (hesp : s.esp = x.stackTop)
    (hprotected : s.ctl.cr0.getLsbD 0 = true) (hmapped : x.pageTables.Mapped s.mem 512) :
    ∃ t : Cpu32, Arrives (x.step p) (.tablesSetUp, s) (.pagingEnabled, t) ∧
      x.pageTables.Mapped t.mem 512 ∧ t.ctl.Active ∧ t.ctl.cr3 = x.p4Table.setWidth 64 ∧
      t.eflags = s.eflags ∧ t.esp = x.stackTop ∧ ∀ a, ¬ x.OnStack a → t.mem a = s.mem a := by
  have hkeeps : x.Keeps s (x.entered .pagingEnabled s) := hx.keeps_entered
  have hcall : x.step p (.tablesSetUp, s) = some (.enablePaging, x.entered .pagingEnabled s) :=
    (hx.step_of_not_pagingOn hp).trans (hx.call_eq (Controls.flat_of_not_pagingOn hp) hesp)
  obtain ⟨t, hrun, hactive, hcr3, htesp, hflags, hmem⟩ :=
    enablePaging_eq (x := x) (s := x.entered .pagingEnabled s) hprotected
  have hstays : x.pageTables.Mapped t.mem 512 := by
    rw [hmem]
    exact hx.mapped_congr hmapped fun a ha => hkeeps.mem a fun hon => hx.not_inTables hon ha
  have hflat := hx.flat_of_mapped hactive hcr3 hstays
  have hcalled : x.Called .pagingEnabled t :=
    ⟨htesp.trans Text.called_entered.esp, hmem ▸ Text.called_entered.word⟩
  have hpe : ¬ (x.entered .pagingEnabled s).ctl.PagingOn := hp
  refine ⟨{ t with esp := x.stackTop }, Arrives.head hcall
      (Arrives.head ((hx.step_of_not_pagingOn hpe).trans hrun) (Arrives.single ?_)),
    hstays, hactive, hcr3, hflags, rfl, fun a hon => (congrFun hmem a).trans (hkeeps.mem a hon)⟩
  exact (hx.step_of_flat hflat).trans (hx.ret_eq hflat hcalled (by decide))

/-- The store of `long_mode_start`. -/
def okayWrite : Bytes.Write := ⟨0xb8000, 8, Bytes.byteOf 0x2f592f412f4b2f4f#64⟩

theorem shows_okayWrite (m : Bytes) :
    Shows (m.apply okayWrite) 0x2f [0x4f, 0x4b, 0x41, 0x59] := by
  intro i hi
  have hlt : i < 8 := hi
  interval_cases i <;> simp [okayWrite, Bytes.apply, Bytes.Write.Covers, Bytes.byteOf]

theorem okayWrite_kept (m : Bytes) (h : a < 0xb8000 ∨ 0xb8008 ≤ a) : m.apply okayWrite a = m a :=
  Bytes.apply_of_not_covers fun hcov => by
    have hlow : 0xb8000 ≤ a := hcov.1
    have hhigh : a < 0xb8000 + 8 := hcov.2
    omega

/-- The jump to 64-bit code, and that code. -/
theorem okay_arrives (hx : x.Linked) (hactive : s.ctl.Active)
    (hcr3 : s.ctl.cr3 = x.p4Table.setWidth 64) (hmapped : x.pageTables.Mapped s.mem 512)
    (hdata : x.Rodata s.mem) :
    ∃ t : Cpu32, Arrives (x.step p) (.pagingEnabled, s) (.okayHlt, t) ∧ t.cs = codeSegment ∧
      t.ctl = s.ctl ∧ t.esp = s.esp ∧ t.eflags = s.eflags ∧ t.mem = s.mem.apply okayWrite := by
  have hflat := hx.flat_of_mapped hactive hcr3 hmapped
  obtain ⟨t, hjump, hcs, hctl, hesp, hflags, hmem⟩ := jumpToLongMode_eq hx hflat hdata
  have hflat' : t.ctl.Flat t.mem (2 ^ 30) := by rwa [hctl, hmem]
  have hruns : t.ctl.Runs64 t.cs := by
    rw [hctl, hcs]
    exact ⟨hactive, by decide⟩
  have hokay : longModeStart t = some (.okayHlt,
      { t with eax := 0x2f4b2f4f, mem := t.mem.apply okayWrite }) := by
    have hstore : ({ t with eax := 0x2f4b2f4f } : Cpu32).storeAt 0xb8000 0x2f592f412f4b2f4f#64 =
        some { t with eax := 0x2f4b2f4f, mem := t.mem.apply okayWrite } :=
      Cpu32.storeAt_eq hflat' (by decide) (by decide)
    exact (if_pos hruns).trans (congrArg (Option.map _) hstore)
  refine ⟨_, Arrives.head ((hx.step_of_flat hflat).trans hjump)
    (Arrives.single ((hx.step_of_flat hflat').trans hokay)), hcs, hctl, hesp, hflags, ?_⟩
  show t.mem.apply okayWrite = _
  rw [hmem]

/-- After the checks the run reaches 64-bit code. -/
theorem longModeChecked_starts {s₀ : Cpu32} (hx : x.Linked) (hs : x.Entered s₀)
    (hkept : x.Keeps s₀ s) (hesp : s.esp = x.stackTop) :
    ∃ s', Arrives (x.step p) (.longModeChecked, s) (.okayHlt, s') ∧ x.Started s₀ s' := by
  have hp : ¬ s.ctl.PagingOn := by
    rw [hkept.ctl]
    exact hs.not_paging
  obtain ⟨t, hrunt, hmappedt, hctlt, hflagst, hespt, hmemt⟩ := tablesSetUp_arrives (p := p) hx hp
    hesp fun a ha => (hkept.mem a fun hon => hx.not_inTables hon ha).trans (hs.bss a ha)
  obtain ⟨u, hrunu, hmappedu, hactive, hcr3, hflagsu, hespu, hmemu⟩ :=
    pagingEnabled_arrives (p := p) hx (by rwa [hctlt]) hespt
      (by rw [hctlt, hkept.ctl]; exact hs.protected_mode) hmappedt
  have hmem : ∀ a, ¬ x.OnStack a → ¬ x.InTables a → u.mem a = s₀.mem a :=
    fun a hon hin => (hmemu a hon).trans ((hmemt a hon hin).trans (hkept.mem a hon))
  have hdata : x.Rodata u.mem := hs.rodata.congr fun a ha =>
    hmem a (fun hon => hx.not_inRodata (.inr hon) ha) fun hin => hx.not_inRodata (.inl hin) ha
  obtain ⟨s', hrun, hcs, hctl, hesp', hflags, hend⟩ :=
    okay_arrives (p := p) hx hactive hcr3 hmappedu hdata
  have hmapped : x.pageTables.Mapped s'.mem 512 := by
    have habove := hx.bss_above
    rw [hend]
    refine hx.mapped_congr hmappedu fun a ha => okayWrite_kept _ (.inr ?_)
    unfold InTables at ha
    omega
  refine ⟨s', hrunt.trans (hrunu.trans hrun), ?_, by rw [hctl, hcr3],
    fun va hva => hmapped.mapsWritable hx.placed hva,
    fun va hva => hmapped.walk_eq_none hx.placed hva, by rw [hesp', hespu],
    by rw [hflags, hflagsu, hflagst, hkept.eflags], ?_, ?_⟩
  · rw [hctl, hcs]
    exact ⟨hactive, by decide⟩
  · rw [hend]
    exact shows_okayWrite _
  · intro a hon hin _ hout
    rw [hend, okayWrite_kept _ hout]
    exact hmem a hon hin

/-- A run that has ended, as the first check that fails says. -/
def Ends (p : Processor) (x : Layout) (s : Cpu32) : Option (BitVec 8) → StartLabel × Cpu32 → Prop
  | some code, (l, s') => l = .errorHlt ∧ x.Failed code s s' ∧ x.step p (l, s') = none
  | none, (l, s') => l = .okayHlt ∧ x.Started s s' ∧ x.step p (l, s') = none

/-- **How `start` ends.**  On every processor and from every state a boot loader may leave, the run
of `start` stops.  If one of the checks fails it stops in `error`, with the number of the first one
that does on the screen, and nothing is changed but the stack and the screen.  Otherwise it stops at
the end of `long_mode_start`, in 64-bit code with the first GiB mapped to itself and nothing else
mapped, and besides the text on the screen only the stack, the tables, the arithmetic flags and the
accessed bit of the code segment's descriptor may have changed. -/
theorem start_ends (p : Processor) (hx : x.Linked) (hs : x.Entered s) :
    ∃ r, Arrives (x.step p) (.start, s) r ∧ x.Ends p s (firstFailure p s.eax) r := by
  have hstops : ∀ {l : StartLabel} {t : Cpu32}, (∀ s, x.block p l s = none) →
      x.step p (l, t) = none := fun h => by
    rw [step, h, ite_self]
  have hpaging : ∀ {t : Cpu32}, x.Keeps s t → ¬ t.ctl.PagingOn := fun h => by
    rw [h.ctl]
    exact hs.not_paging
  have hends : ∀ {l back : StartLabel} {t : Cpu32} {ok : Prop} {code : BitVec 8},
      x.Keeps s t → x.Checks p l back ok code t → ¬ ok → Arrives (x.step p) (.start, s) (l, t) →
        ∃ r, Arrives (x.step p) (.start, s) r ∧ x.Ends p s (some code) r :=
    fun hkept hcheck hno hrun => by
      obtain ⟨s', hrest, hfailed⟩ := hcheck.failed hx (hpaging hkept) hkept hno
      exact ⟨(.errorHlt, s'), hrun.trans hrest, rfl, hfailed, hstops fun _ => rfl⟩
  have hmulti := checkMultiboot_checks (p := p) hx hs.not_paging
  unfold firstFailure
  split
  · next hmagic => exact hends (Keeps.refl s) hmulti hmagic (.refl _)
  next hmagic =>
  obtain ⟨t, hkeptt, hok, -⟩ := hmulti
  obtain ⟨hespt, hrunt⟩ := hok (not_not.mp hmagic)
  have hcpuid := checkCpuid_checks (p := p) hx (hpaging hkeptt) hespt
  split
  · next hid => exact hends hkeptt hcpuid hid hrunt
  next hid =>
  obtain ⟨u, hkeepsu, hok, -⟩ := hcpuid
  obtain ⟨hespu, hrunu⟩ := hok (not_not.mp hid)
  have hkeptu := hkeptt.trans hkeepsu
  have hlong := checkLongMode_checks (p := p) hx (hpaging hkeptu) hespu
  split
  · next hlm => exact hends hkeptu hlong hlm (hrunt.trans hrunu)
  next hlm =>
  obtain ⟨v, hkeepsv, hok, -⟩ := hlong
  obtain ⟨hespv, hrunv⟩ := hok (not_not.mp hlm)
  obtain ⟨s', hrun, hstarted⟩ :=
    longModeChecked_starts (p := p) hx hs (hkeptu.trans hkeepsv) hespv
  exact ⟨(.okayHlt, s'), (hrunt.trans hrunu).trans (hrunv.trans hrun), rfl, hstarted,
    hstops fun _ => rfl⟩

/-! ## An image at 1 MiB -/

/-- The code at 1 MiB, `.rodata` at `0x101000` and `.bss` behind it. -/
def image : Layout where
  addr l := 0x100030 + BitVec.ofNat 32 (returnPoints.idxOf l)
  gdt64 := 0x101000
  p4Table := 0x102000

/-- The stores that load `.rodata`. -/
def imageWrites : List Bytes.Write :=
  [⟨0x101008, 8, Bytes.byteOf codeSegment⟩, ⟨0x101010, 8, Bytes.byteOf codeSegment⟩,
    ⟨0x101018, 2, Bytes.byteOf 23#16⟩, ⟨0x10101a, 8, Bytes.byteOf 0x101000#64⟩]

/-- The state a multiboot loader leaves. -/
def loaded : Cpu32 where
  eax := 0x36d76289
  ecx := 0
  edx := 0
  mem := Bytes.applyAll (fun _ => 0) imageWrites
  ebx := 0
  esp := 0
  eflags := 0x2
  ctl := ⟨0x11, 0, 0, 0⟩
  gdtr := ⟨0, 0⟩
  cs := 0

/-- A processor with long mode. -/
def amd64 : Processor := ⟨fun _ => ⟨0x80000008, 0, 0, 0x20000000⟩, 0x00200000⟩

theorem image_linked : image.Linked where
  aligned := by decide
  bss_above := by decide
  bss_below := by decide
  gdt_above := by decide
  gdt_below := by decide
  gdt_apart := by decide
  code_below l := by
    have hidx := List.idxOf_le_length (l := returnPoints) (a := l)
    have hlen : returnPoints.length = 5 := rfl
    show (0x100030 + BitVec.ofNat 32 (returnPoints.idxOf l)).toNat < 2 ^ 30
    rw [BitVec.toNat_add, BitVec.toNat_ofNat]
    have h : (0x100030 : BitVec 32).toNat = 0x100030 := rfl
    omega
  addr_injective := by decide

theorem loaded_entered : image.Entered loaded where
  protected_mode := by decide
  not_paging := by decide
  bss a ha := by
    have hlow : 0x102000 ≤ a := ha.1
    show Bytes.applyAll (fun _ => 0) imageWrites a = 0
    rw [Bytes.applyAll_eq, Bytes.written_eq_none]
    · rfl
    · intro w hw hcov
      simp only [imageWrites, List.mem_cons, List.not_mem_nil, or_false] at hw
      unfold Bytes.Write.Covers at hcov
      rcases hw with rfl | rfl | rfl | rfl <;> simp only at hcov <;> omega
  rodata := ⟨by decide +kernel, by decide +kernel, by decide +kernel, by decide +kernel,
    by decide +kernel⟩

/-- The image is started. -/
theorem image_starts :
    firstFailure amd64 loaded.eax = none ∧
      ∃ r, Arrives (image.step amd64) (.start, loaded) r ∧
        image.Ends amd64 loaded (firstFailure amd64 loaded.eax) r :=
  ⟨by decide, start_ends amd64 image_linked loaded_entered⟩

end Layout

end RustOS
end OSLib
