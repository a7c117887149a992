import OSLib.Foundation.StackMachine
import OSLib.Trap.Gates

/-!
# The entry code

`entry.sx` and the stubs `Build_IRQ` makes save the registers of the interrupted program as a
`struct pt_regs`, call a C function and restore the registers.  Both are listed here instruction by
instruction, and `entersWithFrame_of_stub` and its companions run them on the stack machine: what
they push is the structure, and what they pop again are the registers.

A delivery pushes the frame of the CPU at the top of the stack the gate names.  All that follows
lies below that address, so the stack is described by its words alone.

The flags are saved and restored as one word.  On a fault the processor pushes them with RF set, so
that the instruction is not stopped again by the same breakpoint; what is compared here is the word
on the stack and the word that `iretq` takes from there, and they are the same.  The checks of
`iretq` on the selectors it restores are left out: they are those of the interrupted program.
-/

namespace OSLib
namespace Trap

open X86

/-! ## The text -/

/-- The pushes that save the general registers after `rax`, as in `error_code`. -/
def pushRegs : List (Instr Symbol) :=
  [.push .rbp, .push .rdi, .push .rsi, .push .rdx, .push .rcx, .push .rbx, .push .r8, .push .r9,
   .push .r10, .push .r11, .push .r12, .push .r13, .push .r14, .push .r15]

/-- The start of a stub: put the address of the C function below `rax`, and take `rax` back. -/
def pushFunc (e : Fault) : List (Instr Symbol) :=
  [.push .rax, .lea (.handler e) .rax, .xchg .rax (.base 0 .rsp)]

/-- The stub of an exception for which the CPU pushes an error code. -/
def stubWithCode (e : Fault) : List (Instr Symbol) := pushFunc e ++ [.jmp .errorCode]

/-- The stub of an exception without error code: it pushes a placeholder first. -/
def stubWithoutCode (e : Fault) : List (Instr Symbol) := .pushImm 0 :: stubWithCode e

/-- `RSETORE_ALL`. -/
def rsetoreAll : List (Instr Symbol) :=
  [.pop .r15, .pop .r14, .pop .r13, .pop .r12, .pop .r11, .pop .r10, .pop .r9, .pop .r8,
   .pop .rbx, .pop .rcx, .pop .rdx, .pop .rsi, .pop .rdi, .pop .rbp, .pop .rax,
   .movToSeg .rax .ds, .pop .rax, .movToSeg .rax .es, .pop .rax, .add 0x10 .rsp, .iretq]

/-- `error_code`, up to its call. -/
def errorCode : List (Instr Symbol) :=
  [[.push .rax, .movFromSeg .es .rax, .push .rax, .movFromSeg .ds .rax, .push .rax,
    .xor .rax .rax],
   pushRegs,
   [.cld, .load (.base 0x90 .rsp) .rsi, .load (.base 0x88 .rsp) .rdx, .movImm 0x10 .rdi,
    .movToSeg .rdi .ds, .movToSeg .rdi .es, .mov .rsp .rdi, .callReg .rdx .errorCodeNext]].flatten

/-- `nmi`, up to its call. -/
def nmi : List (Instr Symbol) :=
  [[.push .rax, .cld, .push .rax, .push .rax, .movFromSeg .es .rax, .push .rax,
    .movFromSeg .ds .rax, .push .rax, .xor .rax .rax],
   pushRegs,
   [.movImm 0x10 .rdx, .movToSeg .rdx .ds, .movToSeg .rdx .es, .movImm 0 .rsi, .mov .rsp .rdi,
    .call (.handler .nmi) .nmiNext]].flatten

/-- `entry.sx`, in its order.  `divide_error` has no jump of its own and goes on into `debug`;
`ret_from_exception` goes on into `ret_from_intr`. -/
def entrySx : Listing Symbol :=
  [(.rsetoreAll, rsetoreAll),
   (.retFromException, []),
   (.retFromIntr, [.jmp .rsetoreAll]),
   (.errorCode, errorCode),
   (.errorCodeNext, [.jmp .retFromException]),
   (.stub .divideError, .pushImm 0 :: pushFunc .divideError),
   (.stub .debug, stubWithoutCode .debug),
   (.stub .nmi, nmi),
   (.nmiNext, [.jmp .rsetoreAll]),
   (.stub .int3, stubWithoutCode .int3),
   (.stub .overflow, stubWithoutCode .overflow),
   (.stub .bounds, stubWithoutCode .bounds),
   (.stub .undefinedOpcode, stubWithoutCode .undefinedOpcode),
   (.stub .devNotAvailable, stubWithoutCode .devNotAvailable),
   (.stub .doubleFault, stubWithCode .doubleFault),
   (.stub .coprocessorSegmentOverrun, stubWithoutCode .coprocessorSegmentOverrun),
   (.stub .invalidTss, stubWithCode .invalidTss),
   (.stub .segmentNotPresent, stubWithCode .segmentNotPresent),
   (.stub .stackSegmentFault, stubWithCode .stackSegmentFault),
   (.stub .generalProtection, stubWithCode .generalProtection),
   (.stub .pageFault, stubWithCode .pageFault),
   (.stub .x87FpuError, stubWithoutCode .x87FpuError),
   (.stub .alignmentCheck, stubWithCode .alignmentCheck),
   (.stub .machineCheck, stubWithoutCode .machineCheck),
   (.stub .simdException, stubWithoutCode .simdException),
   (.stub .virtualizationException, stubWithoutCode .virtualizationException)]

/-- `SAVE_ALL`. -/
def saveAll : List (Instr Symbol) :=
  [[.cld, .push .rax, .push .rax, .movFromSeg .es .rax, .push .rax, .movFromSeg .ds .rax,
    .push .rax, .xor .rax .rax],
   pushRegs,
   [.movImm 0x10 .rdx, .movToSeg .rdx .ds, .movToSeg .rdx .es]].flatten

/-- `Build_IRQ(nr)`. -/
def buildIRQ (nr : ℕ) : List (Instr Symbol) :=
  [[.pushImm 0], saveAll,
   [.mov .rsp .rdi, .lea .retFromIntr .rax, .push .rax, .movImm (BitVec.ofNat 64 nr) .rsi,
    .jmp .doIRQ]].flatten

/-- The assembly text: `entry.sx` and the 24 stubs of `interrupt.c`. -/
def text : Symbol → Option (List (Instr Symbol))
  | .irqInterrupt nr => if nr ∈ irqVectors then some (buildIRQ nr) else none
  | l => entrySx.code l

/-! ## The frame -/

/-- What the entry code saves: the words of `struct pt_regs` up to `rax`. -/
def savedRegs (s : Regs) : List (BitVec 64) :=
  [s.gpr .r15, s.gpr .r14, s.gpr .r13, s.gpr .r12, s.gpr .r11, s.gpr .r10, s.gpr .r9, s.gpr .r8,
   s.gpr .rbx, s.gpr .rcx, s.gpr .rdx, s.gpr .rsi, s.gpr .rdi, s.gpr .rbp,
   (s.seg .ds).setWidth 64, (s.seg .es).setWidth 64, s.gpr .rax]

/-- What the CPU saves of a program interrupted at `rip`. -/
def cpuFrame (s : Regs) (rip : BitVec 64) : List (BitVec 64) :=
  [rip, (s.seg .cs).setWidth 64, s.rflags, s.gpr .rsp, (s.seg .ss).setWidth 64]

/-- The words of `struct pt_regs`. -/
def ptRegs (s : Regs) (rip func errcode : BitVec 64) : List (BitVec 64) :=
  savedRegs s ++ func :: errcode :: cpuFrame s rip

/-- The registers of a program are back. -/
structure Restored (s t : Regs) : Prop where
  gpr : t.gpr = s.gpr
  ds : t.seg .ds = s.seg .ds
  es : t.seg .es = s.seg .es
  cs : t.seg .cs = s.seg .cs
  ss : t.seg .ss = s.seg .ss
  rflags : t.rflags = s.rflags

/-! ## Deliveries -/

/-- The flags a delivery clears: TF, NT, RF and VM, and IF if the gate disables interrupts. -/
def clearedFlags (g : Gate) : BitVec 64 := if g.isIntr then 0x34300 else 0x34100

/-- The delivery of vector `v` to a program interrupted at `rip`: the CPU pushes its frame on the
stack of the gate, and an error code for the exceptions that have one. -/
def deliver (tss : Tss) (v : ℕ) (s : Cpu) (rip errcode : BitVec 64) : Cpu :=
  let g := kernelIdt v
  let t := s.withRegs (·.set .rsp (g.stackTop tss))
  let t := (t.push ((s.seg .ss).setWidth 64)).push (s.gpr .rsp)
  let t := ((t.push s.rflags).push ((s.seg .cs).setWidth 64)).push rip
  let t := if HasErrorCode v then t.push errcode else t
  t.withRegs fun r =>
    { (r.setSeg .cs 8).setSeg .ss (if s.seg .cs &&& 3 = 0 then s.seg .ss else 0) with
      rflags := s.rflags &&& ~~~clearedFlags g }

/-- The words on the stack after a delivery. -/
def deliveredWords (v : ℕ) (s : Regs) (rip errcode : BitVec 64) : List (BitVec 64) :=
  if HasErrorCode v then errcode :: cpuFrame s rip else cpuFrame s rip

/-- After a delivery the frame lies on the stack, and the registers to be saved are as before. -/
theorem deliver_describes (tss : Tss) (v : ℕ) (s : Cpu) (rip errcode : BitVec 64) :
    ∃ g : Regs, StackCpu.Describes ⟨g, deliveredWords v s.toRegs rip errcode⟩
        (deliver tss v s rip errcode) ∧
      g.gpr .rsp = Mem.below ((kernelIdt v).stackTop tss) (if HasErrorCode v then 6 else 5) ∧
      savedRegs g = savedRegs s.toRegs := by
  have h0 : StackCpu.Describes ⟨s.toRegs.set .rsp ((kernelIdt v).stackTop tss), []⟩
      (s.withRegs (·.set .rsp ((kernelIdt v).stackTop tss))) := ⟨rfl, trivial⟩
  have h5 := ((((h0.push (v := (s.seg .ss).setWidth 64) rfl).push (v := s.gpr .rsp) rfl).push
    (v := s.rflags) rfl).push (v := (s.seg .cs).setWidth 64) rfl).push (v := rip) rfl
  unfold deliver deliveredWords
  split
  · exact ⟨_, (h5.push (v := errcode) rfl).withRegs _ rfl, rfl, rfl⟩
  · exact ⟨_, h5.withRegs _ rfl, rfl, rfl⟩

/-! ## Runs of the entry code -/

section Runs

variable (sym : Symbol → BitVec 64) (g s : Regs) (rip func errcode : BitVec 64)

/-- The registers and the stack of a C function called by the entry code, `k + 1` words below the
address `a`: the stack holds the return address and a `struct pt_regs`, of which `g` are the saved
registers. -/
structure Calls (next : Symbol) (a : BitVec 64) (k : ℕ) (arg : BitVec 64) (b : StackCpu) :
    Prop where
  stk : ∃ func errcode, b.stk = sym next :: savedRegs g ++ func :: errcode :: cpuFrame s rip
  rsp : b.gpr .rsp = Mem.below a (k + 1)
  rdi : b.gpr .rdi = Mem.below a k
  rsi : b.gpr .rsi = arg

/-- A segment register survives the way through a 64-bit word. -/
theorem setWidth_seg (w : BitVec 16) : (w.setWidth 64).setWidth 16 = w := by simp

/-- **`RSETORE_ALL` pops what the entry code pushed.** -/
theorem run_rsetoreAll {next : Symbol}
    (hnext : next = .retFromIntr ∨ next = .errorCodeNext ∨ next = .nmiNext) :
    ∃ b, run (StackCpu.step sym) sym text 30 [.jmp next] ⟨g, ptRegs s rip func errcode⟩ =
        some (.irets rip b) ∧ Restored s b.toRegs := by
  have hrun : ∃ b, run (StackCpu.step sym) sym text 22 [.jmp .rsetoreAll]
      ⟨g, ptRegs s rip func errcode⟩ = some (.irets rip b) ∧ Restored s b.toRegs := by
    refine ⟨_, rfl, ?_⟩
    constructor
    case gpr =>
      funext r
      cases r <;> rfl
    case ds => exact setWidth_seg (s.seg .ds)
    case es => exact setWidth_seg (s.seg .es)
    case cs => exact setWidth_seg (s.seg .cs)
    case ss => exact setWidth_seg (s.seg .ss)
    case rflags => rfl
  obtain ⟨b, hb, hr⟩ := hrun
  refine ⟨b, ?_, hr⟩
  rcases hnext with rfl | rfl | rfl
  · exact run_add (k := 7) hb
  · exact run_add (k := 6) hb
  · exact run_add (k := 7) hb

/-- `error_code` saves the registers and calls the function on top of the stack. -/
theorem run_errorCode :
    ∃ b, run (StackCpu.step sym) sym text 30 [.jmp .errorCode]
        ⟨g, func :: errcode :: cpuFrame s rip⟩ = some (.enters func b) ∧
      Calls sym g s rip .errorCodeNext (g.gpr .rsp) 17 errcode b :=
  ⟨_, rfl, ⟨_, _, rfl⟩, rfl, rfl, rfl⟩

/-- `nmi` saves the registers and calls its function, with a placeholder for the error code. -/
theorem run_nmi :
    ∃ b, run (StackCpu.step sym) sym text 40 [.jmp (.stub .nmi)] ⟨g, cpuFrame s rip⟩ =
        some (.enters (sym (.handler .nmi)) b) ∧
      Calls sym g s rip .nmiNext (g.gpr .rsp) 19 0 b :=
  ⟨_, rfl, ⟨_, _, rfl⟩, rfl, rfl, rfl⟩

/-- The stubs push a placeholder exactly if the CPU pushes no error code. -/
theorem text_stub {e : Fault} (he : e ≠ .divideError) (hnmi : e ≠ .nmi) :
    ∃ is, text (.stub e) =
      some ((if HasErrorCode e.vector then stubWithCode e else stubWithoutCode e) ++ is) := by
  cases e
  case divideError => exact absurd rfl he
  case nmi => exact absurd rfl hnmi
  all_goals exact ⟨_, rfl⟩

/-- The return address a stub calls its C function with. -/
def Fault.next (e : Fault) : Symbol := if e = .nmi then .nmiNext else .errorCodeNext

/-- **The stubs of the exceptions.**  Each of them but `divide_error` calls its own C function, with
the error code of the CPU if there is one. -/
theorem run_stub {e : Fault} (he : e ≠ .divideError) :
    ∃ b, run (StackCpu.step sym) sym text 40 [.jmp (.stub e)]
        ⟨g, deliveredWords e.vector s rip errcode⟩ = some (.enters (sym (.handler e)) b) ∧
      Calls sym g s rip e.next (g.gpr .rsp) (if HasErrorCode e.vector then 18 else 19)
        (if HasErrorCode e.vector then errcode else 0) b := by
  by_cases hnmi : e = .nmi
  · subst hnmi
    exact run_nmi sym g s rip
  obtain ⟨is, his⟩ := text_stub he hnmi
  rw [Fault.next, if_neg hnmi]
  by_cases hcode : HasErrorCode e.vector
  · obtain ⟨b, hb, hcalls⟩ := run_errorCode sym
      (((g.set .rsp (g.gpr .rsp - 8)).set .rax (sym (.handler e))).set .rax (g.gpr .rax)) s rip
      (sym (.handler e)) errcode
    rw [if_pos hcode] at his
    rw [if_pos hcode, if_pos hcode, deliveredWords, if_pos hcode]
    refine ⟨b, ?_, hcalls.stk, hcalls.rsp, hcalls.rdi, hcalls.rsi⟩
    rw [run, StackCpu.step]
    simp only [his]
    exact run_add (k := 6) hb
  · obtain ⟨b, hb, hcalls⟩ := run_errorCode sym
      ((((g.set .rsp (g.gpr .rsp - 8)).set .rsp (g.gpr .rsp - 8 - 8)).set .rax
        (sym (.handler e))).set .rax (g.gpr .rax)) s rip (sym (.handler e)) 0
    rw [if_neg hcode] at his
    rw [if_neg hcode, if_neg hcode, deliveredWords, if_neg hcode]
    refine ⟨b, ?_, hcalls.stk, hcalls.rsp, hcalls.rdi, hcalls.rsi⟩
    rw [run, StackCpu.step]
    simp only [his]
    exact run_add (k := 5) hb

/-- **The stubs of the interrupt requests.** -/
theorem run_irqInterrupt {v : ℕ} (hv : v ∈ irqVectors) :
    ∃ b, run (StackCpu.step sym) sym text 40 [.jmp (.irqInterrupt v)] ⟨g, cpuFrame s rip⟩ =
        some (.enters (sym .doIRQ) b) ∧
      Calls sym g s rip .retFromIntr (g.gpr .rsp) 19 (BitVec.ofNat 64 v) b := by
  have hcode : text (.irqInterrupt v) = some (buildIRQ v) := if_pos hv
  rw [run, StackCpu.step]
  simp only [hcode]
  exact ⟨_, rfl, ⟨_, _, rfl⟩, rfl, rfl, rfl⟩

end Runs

end Trap
end OSLib
