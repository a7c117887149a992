import OSLib.Foundation.Words
import Mathlib.Logic.Function.Basic

/-!
# A fragment of x86-64 assembly

The instructions an interrupt entry or a context switch is made of: pushes and pops, moves between
registers, segment registers and memory, a few arithmetic instructions, and the transfers of
control.  A text assigns to each of its labels the instructions from there on; the program is
abstract in the type of the labels and in the addresses `sym` they are linked at.

Control leaves the text in two ways.  A jump or call to a label without code, an indirect call and
a `ret` enter an address outside; `iretq` resumes an interrupted program.  A call names the label
that follows it, whose address it pushes, so a callee that returns comes back to a label.

The arithmetic flags are left out: no instruction of the fragment reads them, and where flags are
saved and restored they are moved as one word.  Memory is always mapped and segment loads succeed.

Nor does the model know descriptors: a selector is a number, and `iretq` takes its five words as
they are, without the checks that the processor makes on them.  What pushes the flags is the
processor and not code of the fragment, so RF and the other bits that it sets in the pushed copy
alone are the concern of whoever says what has been pushed.
-/

namespace OSLib
namespace X86

/-! ## Registers and memory -/

/-- The general-purpose registers. -/
inductive Reg where
  | rax | rcx | rdx | rbx | rsp | rbp | rsi | rdi | r8 | r9 | r10 | r11 | r12 | r13 | r14 | r15
  deriving DecidableEq, Repr

/-- The segment registers. -/
inductive Seg where
  | es | cs | ss | ds | fs | gs
  deriving DecidableEq, Repr

/-- The registers of the CPU, without the instruction pointer. -/
structure Regs where
  gpr : Reg → BitVec 64
  seg : Seg → BitVec 16
  rflags : BitVec 64

/-- The registers and the memory. -/
structure Cpu extends Regs where
  mem : Mem

namespace Regs

/-- Load a general-purpose register. -/
def set (s : Regs) (r : Reg) (v : BitVec 64) : Regs := { s with gpr := Function.update s.gpr r v }

/-- Load a segment register. -/
def setSeg (s : Regs) (r : Seg) (v : BitVec 16) : Regs :=
  { s with seg := Function.update s.seg r v }

/-- Clear the direction flag. -/
def cld (s : Regs) : Regs := { s with rflags := s.rflags &&& ~~~0x400#64 }

variable (s : Regs) (r r' : Reg) (q q' : Seg) (v : BitVec 64) (w : BitVec 16)

@[simp] theorem gpr_set_self : (s.set r v).gpr r = v := by simp only [set, Function.update_self]

@[simp] theorem gpr_set_of_ne (h : r' ≠ r) : (s.set r v).gpr r' = s.gpr r' := by
  simp only [set, Function.update_of_ne h]

end Regs

namespace Cpu

variable (s : Cpu)

/-- Change the registers only. -/
def withRegs (f : Regs → Regs) : Cpu := { s with toRegs := f s.toRegs }

/-- Push a word. -/
def push (v : BitVec 64) : Cpu where
  toRegs := s.set .rsp (s.gpr .rsp - 8)
  mem := s.mem.write (s.gpr .rsp - 8) v

/-- Drop `n` bytes from the stack. -/
def drop (n : BitVec 64) : Cpu := s.withRegs (·.set .rsp (s.gpr .rsp + n))

/-- The word `o` bytes above the stack pointer. -/
def top (o : BitVec 64) : BitVec 64 := s.mem.read (s.gpr .rsp + o)

@[simp] theorem top_zero : s.top 0 = s.mem.read (s.gpr .rsp) :=
  congrArg s.mem.read (BitVec.add_zero _)

end Cpu

/-! ## Instructions -/

/-- A memory operand: an offset from a register, or an address. -/
inductive Operand where
  | base (off : BitVec 64) (r : Reg)
  | abs (a : BitVec 64)

/-- The address of an operand. -/
def Operand.addr (s : Regs) : Operand → BitVec 64
  | .base off r => s.gpr r + off
  | .abs a => a

/-- The instructions, operands in the order source, destination. -/
inductive Instr (α : Type) where
  | push (r : Reg)
  | pushImm (v : BitVec 64)
  | pushMem (o : Operand)
  | pop (r : Reg)
  | mov (src dst : Reg)
  | movImm (v : BitVec 64) (dst : Reg)
  | movFromSeg (src : Seg) (dst : Reg)
  | movToSeg (src : Reg) (dst : Seg)
  | load (o : Operand) (dst : Reg)
  | store (src : Reg) (o : Operand)
  | lea (l : α) (dst : Reg)
  | xchg (r : Reg) (o : Operand)
  | xor (src dst : Reg)
  | add (v : BitVec 64) (dst : Reg)
  | cld
  | jmp (l : α)
  | call (l next : α)
  | callReg (r : Reg) (next : α)
  | ret
  | iretq

/-- Where control goes after an instruction. -/
inductive Next (α σ : Type) where
  | next (s : σ)
  | jump (l : α) (s : σ)
  | enter (a : BitVec 64) (s : σ)
  | iret (a : BitVec 64) (s : σ)

/-- The registers a function has to preserve under the System V calling convention, the stack
pointer among them. -/
def calleeSaved : List Reg := [.rsp, .rbp, .rbx, .r12, .r13, .r14, .r15]

/-- How a run leaves the text: into code at an address, or back to an interrupted program. -/
inductive Exit (σ : Type) where
  | enters (a : BitVec 64) (s : σ)
  | irets (a : BitVec 64) (s : σ)

variable {α σ τ : Type}

/-- `iretq`: the five words on the stack are `rip`, `cs`, `rflags`, `rsp` and `ss`. -/
def Cpu.iretq (s : Cpu) : Cpu :=
  s.withRegs fun r =>
    { (((r.setSeg .cs ((s.top 8).setWidth 16)).set .rsp (s.top 24)).setSeg .ss
        ((s.top 32).setWidth 16)) with rflags := s.top 16 }

/-- One instruction, with the labels linked at `sym`. -/
def Instr.step (sym : α → BitVec 64) (s : Cpu) : Instr α → Next α Cpu
  | .push r => .next (s.push (s.gpr r))
  | .pushImm v => .next (s.push v)
  | .pushMem o => .next (s.push (s.mem.read (o.addr s.toRegs)))
  | .pop r => .next ((s.drop 8).withRegs (·.set r (s.top 0)))
  | .mov src dst => .next (s.withRegs (·.set dst (s.gpr src)))
  | .movImm v dst => .next (s.withRegs (·.set dst v))
  | .movFromSeg src dst => .next (s.withRegs (·.set dst ((s.seg src).setWidth 64)))
  | .movToSeg src dst => .next (s.withRegs (·.setSeg dst ((s.gpr src).setWidth 16)))
  | .load o dst => .next (s.withRegs (·.set dst (s.mem.read (o.addr s.toRegs))))
  | .store src o => .next { s with mem := s.mem.write (o.addr s.toRegs) (s.gpr src) }
  | .lea l dst => .next (s.withRegs (·.set dst (sym l)))
  | .xchg r o => .next
      { toRegs := s.set r (s.mem.read (o.addr s.toRegs))
        mem := s.mem.write (o.addr s.toRegs) (s.gpr r) }
  | .xor src dst => .next (s.withRegs (·.set dst (s.gpr dst ^^^ s.gpr src)))
  | .add v dst => .next (s.withRegs (·.set dst (s.gpr dst + v)))
  | .cld => .next (s.withRegs (·.cld))
  | .jmp l => .jump l s
  | .call l next => .jump l (s.push (sym next))
  | .callReg r next => .enter (s.gpr r) (s.push (sym next))
  | .ret => .enter (s.top 0) (s.drop 8)
  | .iretq => .iret (s.top 0) s.iretq

/-- The CPU itself, as a meaning of instructions. -/
def cpuStep (sym : α → BitVec 64) (s : Cpu) (i : Instr α) : Option (Next α Cpu) :=
  some (i.step sym s)

/-! ## Texts and runs -/

/-- Labels, each followed by its instructions, in the order of the source.  Control that reaches
the next label goes on there. -/
abbrev Listing (α : Type) := List (α × List (Instr α))

/-- The instructions from a label on. -/
def Listing.code [DecidableEq α] : Listing α → α → Option (List (Instr α))
  | [], _ => none
  | (l', is) :: t, l => if l' = l then some (is ++ t.flatMap Prod.snd) else code t l

/-- Run instructions until control leaves the text.  The meaning `step` of one instruction is a
parameter, so that the CPU and an abstraction of it run in the same way. -/
def run (step : σ → Instr α → Option (Next α σ)) (sym : α → BitVec 64)
    (text : α → Option (List (Instr α))) : ℕ → List (Instr α) → σ → Option (Exit σ)
  | 0, _, _ => none
  | _ + 1, [], _ => none
  | n + 1, i :: is, s =>
    match step s i with
    | none => none
    | some (.next t) => run step sym text n is t
    | some (.jump l t) =>
      match text l with
      | some is' => run step sym text n is' t
      | none => some (.enters (sym l) t)
    | some (.enter a t) => some (.enters a t)
    | some (.iret a t) => some (.irets a t)

/-- Run straight-line code to its end. -/
def exec (sym : α → BitVec 64) : List (Instr α) → Cpu → Option Cpu
  | [], s => some s
  | i :: is, s =>
    match i.step sym s with
    | .next t => exec sym is t
    | _ => none

/-- Related continuations: the same transfer of control with related states. -/
inductive Next.Rel (R : σ → τ → Prop) : Next α σ → Next α τ → Prop where
  | next {s t} : R s t → Rel R (.next s) (.next t)
  | jump {l s t} : R s t → Rel R (.jump l s) (.jump l t)
  | enter {a s t} : R s t → Rel R (.enter a s) (.enter a t)
  | iret {a s t} : R s t → Rel R (.iret a s) (.iret a t)

/-- Related exits: the same address with related states. -/
inductive Exit.Rel (R : σ → τ → Prop) : Exit σ → Exit τ → Prop where
  | enters {a s t} : R s t → Rel R (.enters a s) (.enters a t)
  | irets {a s t} : R s t → Rel R (.irets a s) (.irets a t)

section Runs

variable {step : σ → Instr α → Option (Next α σ)} {step' : τ → Instr α → Option (Next α τ)}
  {sym : α → BitVec 64} {text : α → Option (List (Instr α))} {R : σ → τ → Prop}

/-- **Simulation.**  If every step of one meaning is matched by the other, so is every run. -/
theorem run_simulates
    (hstep : ∀ s t i x, R s t → step s i = some x → ∃ y, step' t i = some y ∧ Next.Rel R x y)
    {n : ℕ} {is : List (Instr α)} {s : σ} {t : τ} {x : Exit σ} (h : R s t)
    (hrun : run step sym text n is s = some x) :
    ∃ y, run step' sym text n is t = some y ∧ Exit.Rel R x y := by
  induction n generalizing is s t with
  | zero => simp [run] at hrun
  | succ n ih =>
    cases is with
    | nil => simp [run] at hrun
    | cons i is =>
      rw [run] at hrun
      cases hi : step s i with
      | none =>
        rw [hi] at hrun
        exact absurd hrun.symm (Option.some_ne_none x)
      | some z =>
        obtain ⟨z', hi', hrel⟩ := hstep s t i z h hi
        rw [hi] at hrun
        rw [run, hi']
        cases hrel with
        | next hst => exact ih hst hrun
        | @jump l s' t' hst =>
          simp only at hrun ⊢
          cases hl : text l with
          | some is' =>
            rw [hl] at hrun
            exact ih hst hrun
          | none =>
            rw [hl] at hrun
            exact ⟨_, rfl, Option.some.inj hrun ▸ .enters hst⟩
        | enter hst => exact ⟨_, rfl, Option.some.inj hrun ▸ .enters hst⟩
        | iret hst => exact ⟨_, rfl, Option.some.inj hrun ▸ .irets hst⟩

/-- More fuel does not change the outcome. -/
theorem run_add {n k : ℕ} {is : List (Instr α)} {s : σ} {x : Exit σ}
    (h : run step sym text n is s = some x) : run step sym text (n + k) is s = some x := by
  induction n generalizing is s with
  | zero => simp [run] at h
  | succ n ih =>
    cases is with
    | nil => simp [run] at h
    | cons i is =>
      rw [Nat.succ_add]
      rw [run] at h ⊢
      split at h
      · exact h
      · next heq => simpa only [heq] using ih h
      · split at h
        · exact ih h
        · exact h
      · next heq => simpa only [heq] using h
      · next heq => simpa only [heq] using h

end Runs

/-- Control goes to a label and leaves the text. -/
def Leaves (sym : α → BitVec 64) (text : α → Option (List (Instr α))) (l : α) (s : Cpu)
    (x : Exit Cpu) : Prop :=
  ∃ n, run (cpuStep sym) sym text n [.jmp l] s = some x

section Leaves

variable {sym : α → BitVec 64} {text : α → Option (List (Instr α))} {l : α} {s : Cpu}
  {x y : Exit Cpu}

/-- The CPU is deterministic. -/
theorem Leaves.unique (hx : Leaves sym text l s x) (hy : Leaves sym text l s y) : x = y := by
  obtain ⟨n, hn⟩ := hx
  obtain ⟨k, hk⟩ := hy
  have h := run_add (k := k) hn
  rw [Nat.add_comm, run_add hk] at h
  exact (Option.some.inj h).symm

/-- A label without code is entered at once. -/
theorem leaves_of_none (h : text l = none) : Leaves sym text l s (.enters (sym l) s) :=
  ⟨1, by simp only [run, cpuStep, Instr.step, h]⟩

end Leaves

end X86
end OSLib
