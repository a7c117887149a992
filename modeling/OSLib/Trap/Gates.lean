import Mathlib.Data.Fintype.Basic
import Mathlib.Logic.Function.Basic
import Mathlib.Tactic.Common
import Mathlib.Tactic.FinCases

/-!
# The gates and the stacks they switch to

Every entry of the interrupt descriptor table names an entry point, an attribute byte that says
whether the gate disables interrupts, and a slot of the interrupt stack table in the TSS.
`head.sx` fills the table with `ignore_int`; `init_sys_vector` installs the exceptions on slot 1 and
`init_interrupt` the interrupt requests on slot 2.

The seven slots live in `TSS64_Table`, an array of 32-bit words that `set_tss64` writes two at a
time.  It is called once by `kernel_start` and again by every task switch, always with the same
address in all seven slots.

The table of gates is a function from vectors here; `Descriptors` shows that its bytes are what the
CPU decodes.  Later calls of `set_tss64` write the same addresses, which is why one state of the TSS
serves for every delivery.
-/

namespace OSLib
namespace Trap

/-! ## The interrupt descriptor table -/

/-- The exceptions with a gate of their own, by the names of their stubs. -/
inductive Fault where
  | divideError | debug | nmi | int3 | overflow | bounds | undefinedOpcode | devNotAvailable
  | doubleFault | coprocessorSegmentOverrun | invalidTss | segmentNotPresent | stackSegmentFault
  | generalProtection | pageFault | x87FpuError | alignmentCheck | machineCheck | simdException
  | virtualizationException
  deriving DecidableEq, Repr

/-- The labels of `entry.sx`, `head.sx` and `Build_IRQ` and the C functions they call: the stub
`page_fault` is `stub pageFault`, the C function `do_page_fault` is `handler pageFault`, and
`irqInterrupt nr` is the stub `Build_IRQ(nr)` makes.  `errorCodeNext` and `nmiNext` stand for the
return addresses of the two calls in `entry.sx`. -/
inductive Symbol where
  | ignoreInt | stub (e : Fault) | handler (e : Fault) | irqInterrupt (nr : ℕ) | doIRQ
  | rsetoreAll | retFromException | retFromIntr | errorCode | errorCodeNext | nmiNext
  deriving DecidableEq, Repr

/-- The fields of a gate: attribute byte, stack slot and entry point. -/
structure Gate where
  attr : BitVec 8
  ist : BitVec 8
  addr : Symbol
  deriving DecidableEq, Repr

/-- `IDT_Table`. -/
abbrev Idt := ℕ → Gate

/-- `set_intr_gate(n, ist, addr)`. -/
def setIntrGate (n : ℕ) (ist : BitVec 8) (addr : Symbol) (idt : Idt) : Idt :=
  Function.update idt n ⟨0x8E, ist, addr⟩

/-- `set_trap_gate(n, ist, addr)`. -/
def setTrapGate (n : ℕ) (ist : BitVec 8) (addr : Symbol) (idt : Idt) : Idt :=
  Function.update idt n ⟨0x8F, ist, addr⟩

/-- `set_system_gate(n, ist, addr)`. -/
def setSystemGate (n : ℕ) (ist : BitVec 8) (addr : Symbol) (idt : Idt) : Idt :=
  Function.update idt n ⟨0xEF, ist, addr⟩

/-- `setup_IDT`. -/
def setupIdt : Idt := fun _ => ⟨0x8E, 0, .ignoreInt⟩

/-- `init_sys_vector()`.  The first two gates lead to the C functions, not to their stubs. -/
def initSysVector (idt : Idt) : Idt :=
  idt
  |> setTrapGate 0 1 (.handler .divideError)
  |> setTrapGate 1 1 (.handler .debug)
  |> setIntrGate 2 1 (.stub .nmi)
  |> setSystemGate 3 1 (.stub .int3)
  |> setSystemGate 4 1 (.stub .overflow)
  |> setSystemGate 5 1 (.stub .bounds)
  |> setTrapGate 6 1 (.stub .undefinedOpcode)
  |> setTrapGate 7 1 (.stub .devNotAvailable)
  |> setTrapGate 8 1 (.stub .doubleFault)
  |> setTrapGate 9 1 (.stub .coprocessorSegmentOverrun)
  |> setTrapGate 10 1 (.stub .invalidTss)
  |> setTrapGate 11 1 (.stub .segmentNotPresent)
  |> setTrapGate 12 1 (.stub .stackSegmentFault)
  |> setTrapGate 13 1 (.stub .generalProtection)
  |> setTrapGate 14 1 (.stub .pageFault)
  |> setTrapGate 16 1 (.stub .x87FpuError)
  |> setTrapGate 17 1 (.stub .alignmentCheck)
  |> setTrapGate 18 1 (.stub .machineCheck)
  |> setTrapGate 19 1 (.stub .simdException)
  |> setTrapGate 20 1 (.stub .virtualizationException)

/-- The loop of `init_interrupt()`; entry `i - 0x20` of `interrupt` is the stub of `i`. -/
def initInterrupt (idt : Idt) : Idt :=
  (List.range' 0x20 24).foldl (fun idt i => setIntrGate i 2 (.irqInterrupt i) idt) idt

/-- The table the kernel runs with. -/
def kernelIdt : Idt := initInterrupt (initSysVector setupIdt)

/-- The vector of an exception. -/
def Fault.vector : Fault → ℕ
  | .divideError => 0
  | .debug => 1
  | .nmi => 2
  | .int3 => 3
  | .overflow => 4
  | .bounds => 5
  | .undefinedOpcode => 6
  | .devNotAvailable => 7
  | .doubleFault => 8
  | .coprocessorSegmentOverrun => 9
  | .invalidTss => 10
  | .segmentNotPresent => 11
  | .stackSegmentFault => 12
  | .generalProtection => 13
  | .pageFault => 14
  | .x87FpuError => 16
  | .alignmentCheck => 17
  | .machineCheck => 18
  | .simdException => 19
  | .virtualizationException => 20

/-- The vectors `init_sys_vector` installs. -/
def sysVectors : List ℕ := List.range 15 ++ [16, 17, 18, 19, 20]

/-- The vectors of the interrupt requests. -/
def irqVectors : List ℕ := List.range' 0x20 24

/-- The CPU pushes an error code for these exceptions. -/
def HasErrorCode (v : ℕ) : Prop := v = 8 ∨ 10 ≤ v ∧ v ≤ 14 ∨ v = 17

instance (v : ℕ) : Decidable (HasErrorCode v) := by unfold HasErrorCode; infer_instance

/-- A gate of type `0xE` disables interrupts on delivery, one of type `0xF` does not. -/
def Gate.isIntr (g : Gate) : Bool := g.attr &&& 0xf = 0xe

/-- Where the gates of the exceptions lead: to the stubs, except for the first two. -/
theorem kernelIdt_vector (e : Fault) :
    (kernelIdt e.vector).addr =
      if e = .divideError ∨ e = .debug then .handler e else .stub e := by
  cases e <;> decide +kernel

/-- Where the gates of the interrupt requests lead. -/
theorem kernelIdt_irq : ∀ v ∈ irqVectors, (kernelIdt v).addr = .irqInterrupt v := by
  decide +kernel

/-- Exceptions use slot 1 and interrupt requests slot 2. -/
theorem kernelIdt_ist :
    (∀ v ∈ sysVectors, (kernelIdt v).ist = 1) ∧ ∀ v ∈ irqVectors, (kernelIdt v).ist = 2 := by
  decide +kernel

/-! ## The task state segment -/

/-- `TSS64_Table`, by 32-bit words. -/
abbrev Tss := ℕ → BitVec 32

namespace Tss

/-- `*(uint64 *)(TSS64_Table + i) = v`. -/
def put (t : Tss) (i : ℕ) (v : BitVec 64) : Tss :=
  Function.update (Function.update t i (v.setWidth 32)) (i + 1) ((v >>> 32).setWidth 32)

/-- The 64-bit value at word `i`. -/
def quad (t : Tss) (i : ℕ) : BitVec 64 := t (i + 1) ++ t i

/-- Slot `n` of the interrupt stack table, from 1 to 7: the CPU finds slot 1 at offset `0x24`. -/
def ist (t : Tss) (n : ℕ) : BitVec 64 := t.quad (9 + 2 * (n - 1))

variable {t : Tss} {i j : ℕ} {v : BitVec 64}

@[simp] theorem quad_put_self : (t.put i v).quad i = v := by
  rw [quad, put, Function.update_self, Function.update_of_ne (Nat.succ_ne_self i).symm,
    Function.update_self]
  refine BitVec.eq_of_getLsbD_eq fun k hk => ?_
  rw [BitVec.getLsbD_append]
  split
  · next h => simp [h]
  · next h =>
    rw [BitVec.getLsbD_setWidth, BitVec.getLsbD_ushiftRight, decide_eq_true (by omega),
      Bool.true_and, show 32 + (k - 32) = k by omega]

theorem quad_put_of_ne (h : i + 1 < j ∨ j + 1 < i) : (t.put i v).quad j = t.quad j := by
  rw [quad, put, Function.update_of_ne (by omega), Function.update_of_ne (by omega),
    Function.update_of_ne (by omega), Function.update_of_ne (by omega), quad]

end Tss

/-- `set_tss64(rsp0, rsp1, rsp2, ist1, …, ist7)`; `ist k` is the argument `ist(k+1)`. -/
def setTss64 (rsp0 rsp1 rsp2 : BitVec 64) (ist : Fin 7 → BitVec 64) (t : Tss) : Tss :=
  (((((((((t.put 1 rsp0).put 3 rsp1).put 5 rsp2).put 9 (ist 0)).put 11 (ist 1)).put 13
    (ist 2)).put 15 (ist 3)).put 17 (ist 4)).put 19 (ist 5)).put 21 (ist 6)

/-- **What `set_tss64` writes is what the CPU reads.** -/
theorem ist_setTss64 (rsp0 rsp1 rsp2 : BitVec 64) (ist : Fin 7 → BitVec 64) (t : Tss) (k : Fin 7) :
    (setTss64 rsp0 rsp1 rsp2 ist t).ist (k + 1) = ist k := by
  fin_cases k <;> simp [setTss64, Tss.ist, Tss.quad_put_of_ne]

/-- The address a delivery through a gate starts to push at: the slot the gate names, aligned to 16
bytes. -/
def Gate.stackTop (g : Gate) (t : Tss) : BitVec 64 := t.ist (g.ist.toNat % 8) &&& ~~~0xf#64

/-- The address in all slots: `0xffff800000007c00`. -/
def istTop : BitVec 64 := 0xffff800000007c00

/-- `set_tss64` as `kernel_start` and `__switch_to` call it, with the same address in all slots. -/
def kernelTss (rsp0 rsp1 rsp2 : BitVec 64) (t : Tss) : Tss :=
  setTss64 rsp0 rsp1 rsp2 (fun _ => istTop) t

theorem ist_kernelTss (rsp0 rsp1 rsp2 : BitVec 64) (t : Tss) {n : ℕ} (h1 : 1 ≤ n) (h7 : n ≤ 7) :
    (kernelTss rsp0 rsp1 rsp2 t).ist n = istTop := by
  have h := ist_setTss64 rsp0 rsp1 rsp2 (fun _ => istTop) t ⟨n - 1, by omega⟩
  rwa [show (⟨n - 1, by omega⟩ : Fin 7).val + 1 = n by simp only; omega] at h

end Trap
end OSLib
