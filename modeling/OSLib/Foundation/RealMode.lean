import OSLib.Foundation.Bytes
import Mathlib.Data.BitVec

/-!
# Real-mode code

The registers of a CPU in real mode, as far as boot code uses them, and the instructions that touch
more than one of them.  `eax`, `esi` and `edi` have 32 bits; the 16-bit instructions leave the upper
half of them alone.  An instruction is a function of the state without a value where the code would
be stuck: a division faults, or what lies on top of the stack is not what is popped.  `exec` runs
the instructions of a block.

A return address is a mark on the stack, so that a `ret` goes back to its caller only if the routine
has popped what it pushed (`call`).  The variables of a program are a part of the state of their
own; the program says which segment they are in.

A program over these instructions takes a block between two labels as one step, because such a block
is straight and its calls return.  The stack is a list: boot code has a stack that it shares with
nobody, and what it pushes it pops in the same routine, so only the order matters and not the
address.  Flags live within a block, from the comparison to the jump behind it.
-/

namespace OSLib
namespace RealMode

/-! ## Parts of registers -/

/-- The lower half of a register. -/
def lo (r : BitVec 32) : BitVec 16 := r.setWidth 16

/-- The upper half. -/
def hi (r : BitVec 32) : BitVec 16 := r.extractLsb' 16 16

/-- The register after its lower half is loaded. -/
def withLo (r : BitVec 32) (w : BitVec 16) : BitVec 32 := hi r ++ w

/-- The lower byte of a 16-bit register. -/
def loByte (w : BitVec 16) : BitVec 8 := w.setWidth 8

/-- The upper byte. -/
def hiByte (w : BitVec 16) : BitVec 8 := w.extractLsb' 8 8

/-- The register after its lower byte is loaded. -/
def withLoByte (w : BitVec 16) (b : BitVec 8) : BitVec 16 := hiByte w ++ b

/-- The register after its upper byte is loaded. -/
def withHiByte (w : BitVec 16) (b : BitVec 8) : BitVec 16 := b ++ loByte w

section Parts

theorem setWidth_append_self {v w : ℕ} (x : BitVec w) (y : BitVec v) : (x ++ y).setWidth v = y := by
  rw [BitVec.setWidth_append, dif_pos (Nat.le_refl v), BitVec.setWidth_eq]

variable (r : BitVec 32) (w w' : BitVec 16) (b b' : BitVec 8)

@[simp] theorem lo_withLo : lo (withLo r w) = w := setWidth_append_self _ _

@[simp] theorem hi_withLo : hi (withLo r w) = hi r := BitVec.extractLsb'_append_eq_left

@[simp] theorem withLo_withLo : withLo (withLo r w) w' = withLo r w' := by
  rw [withLo, hi_withLo, withLo]

/-- A register is its halves. -/
theorem hi_append_lo : hi r ++ lo r = r := by
  refine BitVec.eq_of_toNat_eq ?_
  rw [Bytes.toNat_append_eq, hi, lo, BitVec.extractLsb'_toNat, BitVec.toNat_setWidth,
    Nat.shiftRight_eq_div_pow]
  omega

@[simp] theorem withLo_lo : withLo r (lo r) = r := hi_append_lo r

@[simp] theorem loByte_withLoByte : loByte (withLoByte w b) = b := setWidth_append_self _ _

@[simp] theorem loByte_append : loByte (b ++ b') = b' := setWidth_append_self _ _

@[simp] theorem hiByte_append : hiByte (b ++ b') = b := BitVec.extractLsb'_append_eq_left

end Parts

/-! ## The state -/

/-- What lies on the stack: a word that was pushed, or the return address of a call. -/
inductive Slot where
  | word (w : BitVec 16)
  | ret
  deriving DecidableEq

/-- The registers, the stack, the memory and the variables of the program. -/
structure Cpu (V : Type) where
  eax : BitVec 32
  bx : BitVec 16
  cx : BitVec 16
  dx : BitVec 16
  esi : BitVec 32
  edi : BitVec 32
  bp : BitVec 16
  ds : BitVec 16
  es : BitVec 16
  fs : BitVec 16
  stack : List Slot
  mem : Bytes
  vars : V

namespace Cpu

variable {V : Type} (s : Cpu V) (b : BitVec 8) (w : BitVec 16)

def ax : BitVec 16 := lo s.eax

def al : BitVec 8 := loByte s.ax

def ah : BitVec 8 := hiByte s.ax

def bl : BitVec 8 := loByte s.bx

def cl : BitVec 8 := loByte s.cx

def ch : BitVec 8 := hiByte s.cx

def dl : BitVec 8 := loByte s.dx

def dh : BitVec 8 := hiByte s.dx

def si : BitVec 16 := lo s.esi

def di : BitVec 16 := lo s.edi

def setEax (v : BitVec 32) : Cpu V := { s with eax := v }

def setAx : Cpu V := { s with eax := withLo s.eax w }

def setAl : Cpu V := s.setAx (withLoByte s.ax b)

def setAh : Cpu V := s.setAx (withHiByte s.ax b)

def setBx : Cpu V := { s with bx := w }

def setBl : Cpu V := { s with bx := withLoByte s.bx b }

def setCx : Cpu V := { s with cx := w }

def setCl : Cpu V := { s with cx := withLoByte s.cx b }

def setCh : Cpu V := { s with cx := withHiByte s.cx b }

def setDx : Cpu V := { s with dx := w }

def setDl : Cpu V := { s with dx := withLoByte s.dx b }

def setDh : Cpu V := { s with dx := withHiByte s.dx b }

def setEsi (v : BitVec 32) : Cpu V := { s with esi := v }

def setSi : Cpu V := { s with esi := withLo s.esi w }

def setEdi (v : BitVec 32) : Cpu V := { s with edi := v }

def setDi : Cpu V := { s with edi := withLo s.edi w }

def setBp : Cpu V := { s with bp := w }

def setDs : Cpu V := { s with ds := w }

def setEs : Cpu V := { s with es := w }

def setFs : Cpu V := { s with fs := w }

end Cpu

/-! ## Instructions -/

/-- An instruction, or a piece of code that is left at its end. -/
abbrev Instr (V : Type) := Cpu V → Option (Cpu V)

/-- Instructions one after the other. -/
def exec {V : Type} : List (Instr V) → Instr V
  | [], s => some s
  | i :: is, s => (i s).bind (exec is)

section Instr

variable {V : Type} {α : Type}

/-- An immediate operand. -/
def imm (v : α) : Cpu V → α := fun _ => v

/-- Load a register. -/
def mov (dst : Cpu V → α → Cpu V) (src : Cpu V → α) : Instr V := fun s => some (dst s (src s))

/-- Load a register with an operand that may be out of reach. -/
def load (dst : Cpu V → α → Cpu V) (src : Cpu V → Option α) : Instr V := fun s =>
  (src s).map (dst s)

/-- Push a word. -/
def push (src : Cpu V → BitVec 16) : Instr V := fun s =>
  some { s with stack := .word (src s) :: s.stack }

/-- Pop a word. -/
def pop (dst : Cpu V → BitVec 16 → Cpu V) : Instr V := fun s =>
  match s.stack with
  | .word w :: rest => some (dst { s with stack := rest } w)
  | _ => none

/-- Push 32 bits: the lower half comes to lie on top. -/
def push32 (src : Cpu V → BitVec 32) : Instr V := fun s =>
  some { s with stack := .word (lo (src s)) :: .word (hi (src s)) :: s.stack }

/-- Pop 32 bits. -/
def pop32 (dst : Cpu V → BitVec 32 → Cpu V) : Instr V := fun s =>
  match s.stack with
  | .word l :: .word h :: rest => some (dst { s with stack := rest } (h ++ l))
  | _ => none

/-- The word on top of the stack. -/
def top (s : Cpu V) : Option (BitVec 16) :=
  match s.stack with
  | .word w :: _ => some w
  | _ => none

/-- Call a routine: it has to find the return address where it was pushed. -/
def call (routine : Instr V) : Instr V := fun s =>
  match routine { s with stack := .ret :: s.stack } with
  | some t =>
    match t.stack with
    | .ret :: rest => some { t with stack := rest }
    | _ => none
  | none => none

/-- `mul` with a word. -/
def mul (src : Cpu V → BitVec 16) : Instr V := fun s =>
  some ((s.setAx (BitVec.ofNat 16 (s.ax.toNat * (src s).toNat))).setDx
    (BitVec.ofNat 16 (s.ax.toNat * (src s).toNat / 2 ^ 16)))

/-- `div` with a word: it faults when the quotient has more than 16 bits. -/
def div (src : Cpu V → BitVec 16) : Instr V := fun s =>
  let dxax := s.dx.toNat * 2 ^ 16 + s.ax.toNat
  if src s ≠ 0 ∧ dxax / (src s).toNat < 2 ^ 16 then
    some ((s.setAx (BitVec.ofNat 16 (dxax / (src s).toNat))).setDx
      (BitVec.ofNat 16 (dxax % (src s).toNat)))
  else none

/-- `div` with a byte: it faults when the quotient has more than eight bits. -/
def divByte (src : Cpu V → BitVec 8) : Instr V := fun s =>
  if src s ≠ 0 ∧ s.ax.toNat / (src s).toNat < 2 ^ 8 then
    some (s.setAx (BitVec.ofNat 8 (s.ax.toNat % (src s).toNat) ++
      BitVec.ofNat 8 (s.ax.toNat / (src s).toNat)))
  else none

/-! The simp set that runs a block. -/

attribute [simp] Cpu.ax Cpu.al Cpu.ah Cpu.bl Cpu.cl Cpu.ch Cpu.dl Cpu.dh Cpu.si Cpu.di
  Cpu.setEax Cpu.setAx Cpu.setAl Cpu.setAh Cpu.setBx Cpu.setBl Cpu.setCx Cpu.setCl Cpu.setCh
  Cpu.setDx Cpu.setDl Cpu.setDh Cpu.setEsi Cpu.setSi Cpu.setEdi Cpu.setDi Cpu.setBp Cpu.setDs
  Cpu.setEs Cpu.setFs exec imm mov load push pop push32 pop32 top

variable {s t : Cpu V} {is : List (Instr V)}

theorem exec_cons_of_eq {i : Instr V} (h : i s = some t) : exec (i :: is) s = exec is t := by
  rw [exec, h, Option.bind_some]

theorem exec_append {is' : List (Instr V)} (h : exec is s = some t) :
    exec (is ++ is') s = exec is' t := by
  induction is generalizing s with
  | nil =>
    obtain rfl := Option.some.inj h
    rfl
  | cons i is ih =>
    rw [exec] at h
    obtain ⟨u, hu, hrest⟩ := Option.bind_eq_some_iff.mp h
    rw [List.cons_append, exec_cons_of_eq hu, ih hrest]

/-- A multiplication leaves the product in `dx:ax`. -/
theorem mul_eq (src : Cpu V → BitVec 16) {d : ℕ} (hd : (src s).toNat = d) : mul src s =
    some { s with
      eax := withLo s.eax (BitVec.ofNat 16 (s.ax.toNat * d))
      dx := BitVec.ofNat 16 (s.ax.toNat * d / 2 ^ 16) } := by
  rw [mul, hd]
  rfl

/-- A division of the number in `dx:ax` whose quotient fits. -/
theorem div_eq (src : Cpu V → BitVec 16) {n d : ℕ} (hax : s.ax = BitVec.ofNat 16 n)
    (hdx : s.dx = BitVec.ofNat 16 (n / 2 ^ 16)) (hn : n < 2 ^ 32) (hd : (src s).toNat = d)
    (hpos : 0 < d) (hquot : n / d < 2 ^ 16) : div src s =
      some { s with
        eax := withLo s.eax (BitVec.ofNat 16 (n / d))
        dx := BitVec.ofNat 16 (n % d) } := by
  have hdxax : s.dx.toNat * 2 ^ 16 + s.ax.toNat = n := by
    rw [hax, hdx, BitVec.toNat_ofNat, BitVec.toNat_ofNat]
    omega
  have hne : src s ≠ 0 := by
    intro h
    rw [h] at hd
    exact absurd hpos (by rw [← hd]; exact Nat.lt_irrefl 0)
  rw [div]
  simp only [hdxax, hd]
  exact if_pos ⟨hne, hquot⟩

/-- **A call** of a routine that leaves the stack as it found it. -/
theorem call_eq {routine : Instr V} (h : routine { s with stack := .ret :: s.stack } = some t)
    (ht : t.stack = .ret :: s.stack) : call routine s = some { t with stack := s.stack } := by
  rw [call, h]
  simp only [ht]

end Instr

end RealMode
end OSLib
