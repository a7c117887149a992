import OSLib.Foundation.LongMode

/-!
# 32-bit code that leads to long mode

The registers of 32-bit code and the instructions it is made of, as far as boot code uses them.
Each access goes through the translation that is on, and an instruction without a translation has no
value.  Return addresses are words on the stack: a `Text` says where the linker has put each label,
and a `ret` goes to the one whose address it pops.

`Cpu32.pop_push` and its two variants are for words that are pushed and popped at once;
`Text.call_eq` and `Text.ret_eq` are a call and its return, between which the callee may use the
stack below.

The value of an instruction is an `Option`, where none is a fault that the code is not prepared for:
a missing translation, or a selector of something that is no data segment.  So a run that is shown
has not faulted, and nothing has to be said about handlers there are not.

The arithmetic flags in `eflags` are not kept up: where a program branches on them, the comparison
and the jump are one step.  `pushfd` stores the others, and `flagsImage` is what it stores.
-/

namespace OSLib
namespace LongMode

/-! ## The state -/

/-- The registers of the code, and memory.  Of the flags the arithmetic ones are not kept up: a
comparison is modelled with the jump that reads its flags. -/
structure Cpu32 where
  eax : BitVec 32
  ebx : BitVec 32
  ecx : BitVec 32
  edx : BitVec 32
  esp : BitVec 32
  eflags : BitVec 32
  ctl : Controls
  gdtr : Gdtr
  cs : BitVec 64
  mem : Bytes

namespace Cpu32

variable (p : Processor) (s : Cpu32)

/-- A store. -/
def storeAt {w : ℕ} (a : BitVec 64) (v : BitVec w) : Option Cpu32 :=
  (s.ctl.store s.mem a v).map fun mem => { s with mem := mem }

/-- `push`. -/
def push (v : BitVec 32) : Option Cpu32 :=
  { s with esp := s.esp - 4 }.storeAt ((s.esp - 4).setWidth 64) v

/-- `pop`, and the word. -/
def pop : Option (BitVec 32 × Cpu32) :=
  (s.ctl.load s.mem (s.esp.setWidth 64) 32).map fun v => (v, { s with esp := s.esp + 4 })

/-- `pop eax`. -/
def popEax : Option Cpu32 := s.pop.map fun r => { r.2 with eax := r.1 }

/-- `pushfd`. -/
def pushfd : Option Cpu32 := s.push (Processor.flagsImage s.eflags)

/-- `popfd`. -/
def popfd : Option Cpu32 := s.pop.map fun r => { r.2 with eflags := p.popfd r.2.eflags r.1 }

/-- `cpuid`. -/
def cpuid : Cpu32 :=
  let leaf := p.cpuid s.eax
  { s with eax := leaf.eax, ebx := leaf.ebx, ecx := leaf.ecx, edx := leaf.edx }

/-- `mov al, v`. -/
def setAl (v : BitVec 8) : Cpu32 := { s with eax := s.eax.extractLsb' 8 24 ++ v }

/-- `rdmsr`, for `EFER`. -/
def rdmsr : Option Cpu32 :=
  if s.ecx = 0xC0000080 then
    some { s with eax := s.ctl.efer.setWidth 32, edx := s.ctl.efer.extractLsb' 32 32 }
  else none

/-- `wrmsr`, for `EFER`. -/
def wrmsr : Option Cpu32 :=
  if s.ecx = 0xC0000080 then some { s with ctl := { s.ctl with efer := s.edx ++ s.eax } }
  else none

/-- `lgdt`: in 32-bit code the base has 32 bits. -/
def lgdt (a : BitVec 32) : Option Cpu32 := do
  let limit ← s.ctl.load s.mem (a.setWidth 64) 16
  let base ← s.ctl.load s.mem ((a + 2).setWidth 64) 32
  return { s with gdtr := ⟨limit, base.setWidth 64⟩ }

/-- `lgdt` with an operand size of 16 bits, which leaves 24 bits of the base. -/
def lgdt16 (a : BitVec 32) : Option Cpu32 := do
  let limit ← s.ctl.load s.mem (a.setWidth 64) 16
  let base ← s.ctl.load s.mem ((a + 2).setWidth 64) 32
  return { s with gdtr := ⟨limit, (base &&& 0x00ffffff).setWidth 64⟩ }

/-- Loads of data segment registers with one selector. -/
def loadData (selector : ℕ) : Option Cpu32 :=
  (s.ctl.dataDescriptor s.mem s.gdtr selector).map fun _ => s

variable {p s} {v : BitVec 32} {w : ℕ}

theorem storeAt_eq {va : BitVec 64} {u : BitVec w} (hflat : s.ctl.Flat s.mem (2 ^ 30))
    (hw : va.toNat + w / 8 ≤ 2 ^ 30) (h0 : 0 < w / 8) :
    s.storeAt va u = some { s with mem := s.mem.putWord va.toNat u } := by
  rw [storeAt, hflat.store (by decide) hw h0, Option.map_some]

theorem setAl_al (c : BitVec 8) : (s.setAl c).eax.setWidth 8 = c := by
  refine BitVec.eq_of_toNat_eq ?_
  have hc := c.isLt
  rw [setAl, BitVec.toNat_setWidth, Bytes.toNat_append_eq]
  omega

/-! ## The stack -/

/-- Where the stack pointer is after a push. -/
theorem toNat_pushed (h : 4 ≤ s.esp.toNat) : ((s.esp - 4).setWidth 64).toNat = s.esp.toNat - 4 := by
  have hlt := s.esp.isLt
  have h4 : (4 : BitVec 32).toNat = 4 := rfl
  rw [BitVec.toNat_setWidth, BitVec.toNat_sub, h4]
  omega

theorem push_eq (hflat : s.ctl.Flat s.mem (2 ^ 30)) (h4 : 4 ≤ s.esp.toNat)
    (htop : s.esp.toNat ≤ 2 ^ 30) :
    s.push v = some { s with esp := s.esp - 4, mem := s.mem.putWord (s.esp.toNat - 4) v } := by
  have ha := toNat_pushed h4
  rw [push, storeAt, Controls.Flat.store hflat (by decide) (by rw [ha]; omega) (by decide), ha]
  rfl

theorem pop_eq (hflat : s.ctl.Flat s.mem (2 ^ 30)) (htop : s.esp.toNat + 4 ≤ 2 ^ 30) :
    s.pop = some (s.mem.word s.esp.toNat 32, { s with esp := s.esp + 4 }) := by
  have hlt := s.esp.isLt
  have ha : (s.esp.setWidth 64).toNat = s.esp.toNat := by
    rw [BitVec.toNat_setWidth]
    omega
  rw [pop, Controls.Flat.load hflat (by decide) (by rw [ha]; omega) (by decide), ha]
  rfl

variable {β : Type}

/-- A word that is pushed and popped again. -/
theorem pop_push (hp : ¬ s.ctl.PagingOn) (h4 : 4 ≤ s.esp.toNat) (htop : s.esp.toNat ≤ 2 ^ 30)
    (f : BitVec 32 × Cpu32 → Option β) :
    (s.push v >>= fun s => s.pop >>= f) =
      f (v, { s with mem := s.mem.putWord (s.esp.toNat - 4) v }) := by
  have ha : (s.esp - 4).toNat = s.esp.toNat - 4 := by
    have h := toNat_pushed h4
    have hlt := (s.esp - 4).isLt
    rw [BitVec.toNat_setWidth] at h
    omega
  have hword : (s.mem.putWord (s.esp.toNat - 4) v).word (s.esp.toNat - 4) 32 = v :=
    Bytes.word_putWord (n := 4)
  have hpop := pop_eq (s := { s with esp := s.esp - 4, mem := s.mem.putWord (s.esp.toNat - 4) v })
    (Controls.flat_of_not_pagingOn hp) (show (s.esp - 4).toNat + 4 ≤ 2 ^ 30 by omega)
  simp only [ha, hword, BitVec.sub_add_cancel] at hpop
  rw [push_eq (Controls.flat_of_not_pagingOn hp) h4 htop, Option.bind_eq_bind, Option.bind_some,
    hpop, Option.bind_eq_bind, Option.bind_some]

theorem popEax_push (hp : ¬ s.ctl.PagingOn) (h4 : 4 ≤ s.esp.toNat) (htop : s.esp.toNat ≤ 2 ^ 30)
    (f : Cpu32 → Option β) :
    (s.push v >>= fun s => s.popEax >>= f) =
      f { s with eax := v, mem := s.mem.putWord (s.esp.toNat - 4) v } := by
  have h := pop_push hp h4 htop (v := v) fun r => f { r.2 with eax := r.1 }
  rw [← h]
  refine congrArg _ (funext fun t => ?_)
  rw [popEax]
  cases t.pop <;> rfl

theorem popfd_push (hp : ¬ s.ctl.PagingOn) (h4 : 4 ≤ s.esp.toNat) (htop : s.esp.toNat ≤ 2 ^ 30)
    (f : Cpu32 → Option β) :
    (s.push v >>= fun s => s.popfd p >>= f) =
      f { s with eflags := p.popfd s.eflags v, mem := s.mem.putWord (s.esp.toNat - 4) v } := by
  have h := pop_push hp h4 htop (v := v) fun r => f { r.2 with eflags := p.popfd r.2.eflags r.1 }
  rw [← h]
  refine congrArg _ (funext fun t => ?_)
  rw [popfd]
  cases t.pop <;> rfl

end Cpu32

/-! ## Calls -/

/-- Where the linker put the labels, and which of them follow a call. -/
structure Text (L : Type) where
  addr : L → BitVec 32
  returns : List L

namespace Text

variable {L : Type} (x : Text L) (s : Cpu32)

/-- `call`. -/
def call (callee back : L) : Option (L × Cpu32) := (s.push (x.addr back)).map fun s => (callee, s)

/-- `ret`, to what follows one of the calls. -/
def ret : Option (L × Cpu32) := do
  let (a, s) ← s.pop
  let back ← x.returns.find? fun l => x.addr l = a
  return (back, s)

/-- The code is below `n`, and the addresses behind the calls are distinct. -/
structure Linked (n : ℕ) : Prop where
  below : ∀ l, (x.addr l).toNat < n
  injective : ∀ l ∈ x.returns, ∀ l' ∈ x.returns, x.addr l = x.addr l' → l = l'

/-- A routine has been called with the stack at `top`, and its return address is on the stack. -/
structure Called (top : BitVec 32) (back : L) (s : Cpu32) : Prop where
  esp : s.esp = top - 4
  word : s.mem.word (top.toNat - 4) 32 = x.addr back

/-- The state in which it is entered. -/
def entered (top : BitVec 32) (back : L) : Cpu32 :=
  { s with esp := top - 4, mem := s.mem.putWord (top.toNat - 4) (x.addr back) }

variable {x s} {top : BitVec 32} {l back : L} {a : ℕ}

/-- A call leaves the control registers alone. -/
theorem ctl_entered : (x.entered s top back).ctl = s.ctl := rfl

theorem called_entered : x.Called top back (x.entered s top back) := by
  refine ⟨rfl, ?_⟩
  simp only [entered]
  exact Bytes.word_putWord (n := 4)

/-- A call changes the four bytes below the top of the stack. -/
theorem mem_entered (h : a < top.toNat - 4 ∨ top.toNat ≤ a) (h4 : 4 ≤ top.toNat) :
    (x.entered s top back).mem a = s.mem a := by
  simp only [entered]
  exact Bytes.putWord_of_apart (by omega)

/-- **A call.** -/
theorem call_eq (hflat : s.ctl.Flat s.mem (2 ^ 30)) (hesp : s.esp = top) (h4 : 4 ≤ top.toNat)
    (htop : top.toNat ≤ 2 ^ 30) : x.call s l back = some (l, x.entered s top back) := by
  subst hesp
  rw [call, Cpu32.push_eq hflat h4 htop, Option.map_some]
  simp only [entered]

/-- **The return from it.** -/
theorem ret_eq {n : ℕ} (hx : x.Linked n) (hflat : s.ctl.Flat s.mem (2 ^ 30))
    (h : x.Called top back s) (h4 : 4 ≤ top.toNat) (htop : top.toNat ≤ 2 ^ 30)
    (hback : back ∈ x.returns) :
    x.ret s = some (back, { s with esp := top }) := by
  have hesp : s.esp.toNat = top.toNat - 4 := by
    have hlt := top.isLt
    have hc : (4 : BitVec 32).toNat = 4 := rfl
    rw [h.esp, BitVec.toNat_sub, hc]
    omega
  have hfind : x.returns.find? (fun l => decide (x.addr l = x.addr back)) = some back := by
    cases hres : x.returns.find? (fun l => decide (x.addr l = x.addr back)) with
    | none =>
      have hno := List.find?_eq_none.mp hres back hback
      exact absurd (decide_eq_true rfl) hno
    | some l =>
      have hl := List.find?_some hres
      rw [hx.injective l (List.mem_of_find?_eq_some hres) back hback (of_decide_eq_true hl)]
  rw [ret, Cpu32.pop_eq hflat (by omega), hesp, h.word, h.esp, BitVec.sub_add_cancel]
  show (x.returns.find? _ >>= _) = _
  rw [hfind]
  rfl

/-- The address of a label as a number. -/
theorem toNat_addr : ((x.addr l).setWidth 64).toNat = (x.addr l).toNat := by
  have hlt := (x.addr l).isLt
  rw [BitVec.toNat_setWidth]
  omega

/-- Where the translation is flat the code of a label is where it is. -/
theorem Linked.translate_addr {n : ℕ} (hx : x.Linked n) (hflat : s.ctl.Flat s.mem n) :
    s.ctl.translate s.mem ((x.addr l).setWidth 64) = some (x.addr l).toNat := by
  have hcode := hx.below l
  rw [hflat _ (by rwa [toNat_addr]), toNat_addr]

end Text
end LongMode
end OSLib
