import OSLib.Trap.Entry

/-!
# From a delivery to the handler and back

A delivery goes through the gate of its vector to the entry code and on to a C function.
`Handled` says that the function finds the frame of the interrupted program and the right second
argument, and that the way back restores the program if the function returns, whatever it has done
to the registers and to the memory outside the stack of its caller.

Interrupt requests are handled in this sense (`irq_handled`), and so are the exceptions whose gates
lead to their stubs.  The gates of vectors 0 and 1 hold the addresses of the C functions
themselves, and `fault_handled_iff` says that these are the only exceptions that go wrong.

The C functions are known by their calling convention alone: they return with the stack pointer they
were entered with, the stack from there upwards as it was, and everything else changed at will.
That includes the frame's registers `rbx` and so on, since the entry code restores them from the
frame and not from what the function preserves.

The frame that counts is the one the processor pushes.  It holds the flags with RF where the
exception is a fault, and it is this word that comes back.
-/

namespace OSLib
namespace Trap

open X86

/-! ## What a handler relies on -/

/-- A C function entered in the state `t` finds the frame of the program interrupted at `rip`, and
the second argument `arg`. -/
structure SeesFrame (s : Regs) (rip arg : BitVec 64) (t : Cpu) : Prop where
  frame : ∃ func errcode, t.mem.StackAt (t.gpr .rdi) (ptRegs s rip func errcode)
  rip : t.mem.read (t.gpr .rdi + 0x98) = rip
  arg : t.gpr .rsi = arg

/-- The function entered in `t` comes to its `ret` in the state `u`: by the calling convention it
has preserved the stack pointer and the stack from there up to `top`. -/
structure Returns (top : BitVec 64) (t u : Cpu) : Prop where
  rsp : u.gpr .rsp = t.gpr .rsp
  stack : ∀ o < (top - t.gpr .rsp).toNat,
    u.mem (t.gpr .rsp + BitVec.ofNat 64 o) = t.mem (t.gpr .rsp + BitVec.ofNat 64 o)

variable (sym : Symbol → BitVec 64) (tss : Tss)

/-- Whenever the function entered in `t` returns, its `ret` finds the address of a label of the
entry code, from where control reaches an `iretq` to `rip` with the registers of the interrupted
program. -/
def ReturnRestores (top : BitVec 64) (s : Regs) (rip : BitVec 64) (t : Cpu) : Prop :=
  ∀ u, Returns top t u → ∃ next v, Instr.ret.step sym u = .enter (sym next) v ∧
    ∃ w, Leaves sym text next v (.irets rip w) ∧ Restored s w.toRegs

/-- The delivery of vector `v` to a program interrupted at `rip` enters the C function `f` with the
frame of the program and the second argument `arg`, and the way back restores the program. -/
def Handled (v : ℕ) (f : Symbol) (arg : BitVec 64) (s : Cpu) (rip errcode : BitVec 64) : Prop :=
  ∃ t, Leaves sym text (kernelIdt v).addr (deliver tss v s rip errcode) (.enters (sym f) t) ∧
    SeesFrame s.toRegs rip arg t ∧
    ReturnRestores sym ((kernelIdt v).stackTop tss) s.toRegs rip t

variable {sym tss} {g s : Regs} {rip errcode arg top a : BitVec 64} {next : Symbol} {k : ℕ}
  {b : StackCpu} {t : Cpu}

/-! ## Through the entry code -/

/-- The words on the stack of a C function called by the entry code. -/
theorem Calls.stackAt (hc : Calls sym g s rip next a k arg b) (hb : b.Describes t)
    (hg : savedRegs g = savedRegs s) :
    ∃ func errcode, b.stk = sym next :: ptRegs s rip func errcode ∧
      t.mem.StackAt (t.gpr .rsp) (sym next :: ptRegs s rip func errcode) := by
  obtain ⟨func, errcode, hstk⟩ := hc.stk
  rw [hg] at hstk
  refine ⟨func, errcode, hstk, ?_⟩
  have hmem := hb.2
  rwa [hstk, ← hb.gpr] at hmem

theorem Calls.seesFrame (hc : Calls sym g s rip next a k arg b) (hb : b.Describes t)
    (hg : savedRegs g = savedRegs s) : SeesFrame s rip arg t := by
  obtain ⟨func, errcode, -, -, hframe⟩ := hc.stackAt hb hg
  have hrdi : t.gpr .rsp + 8 = t.gpr .rdi := by
    rw [hb.gpr, hb.gpr, hc.rsp, hc.rdi, Mem.below, BitVec.sub_add_cancel]
  rw [hrdi] at hframe
  refine ⟨⟨func, errcode, hframe⟩, ?_, (hb.gpr _).trans hc.rsi⟩
  exact Mem.stackAt_iff.mp hframe 19 (show 19 < 24 by decide)

/-- **The way back.**  The function called 25 words below the top of the stack leaves all of them
alone. -/
theorem Calls.returnRestores (hc : Calls sym g s rip next a k arg b) (hb : b.Describes t)
    (hg : savedRegs g = savedRegs s)
    (hnext : next = .retFromIntr ∨ next = .errorCodeNext ∨ next = .nmiNext)
    (htop : Mem.below a (k + 1) = Mem.below top 25) : ReturnRestores sym top s rip t := by
  intro u hu
  obtain ⟨func, errcode, -, hstack⟩ := hc.stackAt hb hg
  have hrsp : t.gpr .rsp = Mem.below top 25 := by rw [hb.gpr, hc.rsp, htop]
  have hsize : (top - t.gpr .rsp).toNat = 8 * 25 := by
    rw [hrsp, Mem.toNat_sub_below top (by decide)]
  have hstack' : u.mem.StackAt (t.gpr .rsp) (sym next :: ptRegs s rip func errcode) :=
    hstack.congr fun o ho => hu.stack o (by rw [hsize]; exact ho)
  rw [← hu.rsp] at hstack'
  have hu' : StackCpu.Describes ⟨u.toRegs, sym next :: ptRegs s rip func errcode⟩ u :=
    ⟨rfl, hstack'⟩
  have hret : u.top 0 = sym next := hu'.top (k := 0) rfl
  obtain ⟨b', hrun, hrestored⟩ :=
    run_rsetoreAll sym (u.toRegs.set .rsp (u.gpr .rsp + 8)) s rip func errcode hnext
  obtain ⟨y, hleaves, hrel⟩ := StackCpu.leaves_of_run (hu'.tail rfl) hrun
  cases hrel with
  | irets hdesc =>
    refine ⟨next, u.drop 8, by rw [Instr.step, hret], _, hleaves, ?_⟩
    rw [hdesc.1]
    exact hrestored

/-- A stub that calls its function is a way to handle the vector. -/
theorem handled_of_run {v : ℕ} {f : Symbol} {s : Cpu}
    (hcode : 5 + 19 = (if HasErrorCode v then 6 else 5) + k)
    (hnext : next = .retFromIntr ∨ next = .errorCodeNext ∨ next = .nmiNext)
    (hrun : ∀ g : Regs, ∃ b, run (StackCpu.step sym) sym text 40 [.jmp (kernelIdt v).addr]
        ⟨g, deliveredWords v s.toRegs rip errcode⟩ = some (.enters (sym f) b) ∧
      Calls sym g s.toRegs rip next (g.gpr .rsp) k arg b) :
    Handled sym tss v f arg s rip errcode := by
  obtain ⟨g, hg, hrsp, hsaved⟩ := deliver_describes tss v s rip errcode
  obtain ⟨b, hb, hcalls⟩ := hrun g
  obtain ⟨y, hleaves, hrel⟩ := StackCpu.leaves_of_run hg hb
  cases hrel with
  | enters hdesc =>
    refine ⟨_, hleaves, hcalls.seesFrame hdesc hsaved,
      hcalls.returnRestores hdesc hsaved hnext ?_⟩
    rw [hrsp, Mem.below_add, ← Nat.add_assoc, ← hcode]

/-! ## Interrupt requests -/

/-- **Interrupt requests are transparent.**  On every request `do_IRQ` finds the frame of the
interrupted program and the number of the request, and if it returns with the stack above its frame
preserved, the program goes on with all its registers. -/
theorem irq_handled {v : ℕ} (hv : v ∈ irqVectors) (sym : Symbol → BitVec 64) (tss : Tss) (s : Cpu)
    (rip errcode : BitVec 64) :
    Handled sym tss v .doIRQ (BitVec.ofNat 64 v) s rip errcode := by
  have hcode : ¬ HasErrorCode v := by
    revert v
    decide
  refine handled_of_run (k := 19) (by rw [if_neg hcode]) (.inl rfl) fun g => ?_
  rw [kernelIdt_irq v hv, deliveredWords, if_neg hcode]
  exact run_irqInterrupt sym g s.toRegs rip hv

/-- Where a kernel image may have its labels. -/
def linked : Symbol → BitVec 64
  | .stub e => 0xffff800000104400 + BitVec.ofNat 64 (0x20 * e.vector)
  | .handler e => 0xffff800000105000 + BitVec.ofNat 64 (0x80 * e.vector)
  | .irqInterrupt nr => 0xffff800000107000 + BitVec.ofNat 64 (0x40 * nr)
  | .doIRQ => 0xffff800000108800
  | .ignoreInt => 0xffff800000104200
  | .rsetoreAll => 0xffff800000104300
  | .retFromException => 0xffff800000104324
  | .retFromIntr => 0xffff800000104324
  | .errorCode => 0xffff800000104326
  | .errorCodeNext => 0xffff80000010436c
  | .nmiNext => 0xffff8000001044c8

/-- Kernel code with empty registers and memory. -/
def kernelCpu : Cpu where
  gpr r := if r = .rsp then 0xffff800000110000 else 0
  seg q := if q = .cs then 0x08 else 0x10
  rflags := 0x202
  mem _ := 0

/-- A program that has something of its own in every register. -/
def busyCpu : Cpu where
  gpr
    | .rax => 0x1111111111111111
    | .rcx => 0x2222222222222222
    | .rdx => 0x3333333333333333
    | .rbx => 0x4444444444444444
    | .rsp => 0xffff800000110000
    | .rbp => 0xffff800000110040
    | .rsi => 0x5555555555555555
    | .rdi => 0x6666666666666666
    | .r8 => 0x7777777777777777
    | .r9 => 0x8888888888888888
    | .r10 => 0x9999999999999999
    | .r11 => 0xaaaaaaaaaaaaaaaa
    | .r12 => 0xbbbbbbbbbbbbbbbb
    | .r13 => 0xcccccccccccccccc
    | .r14 => 0xdddddddddddddddd
    | .r15 => 0xeeeeeeeeeeeeeeee
  seg q := if q = .cs then 0x08 else 0x10
  rflags := 0x246
  mem a := a.setWidth 8

/-- A key press. -/
theorem key_handled :
    0x21 ∈ irqVectors ∧
      Handled linked (kernelTss 0 0 0 fun _ => 0) 0x21 .doIRQ 0x21 busyCpu 0xffff800000109000 0 :=
  ⟨by decide, irq_handled (by decide) linked _ busyCpu 0xffff800000109000 0⟩

/-! ## Exceptions -/

/-- The second argument of a handler: the error code of the CPU, or 0. -/
def Fault.secondArg (e : Fault) (errcode : BitVec 64) : BitVec 64 :=
  if HasErrorCode e.vector then errcode else 0

theorem fault_handled {e : Fault} (h0 : e ≠ .divideError) (h1 : e ≠ .debug)
    (sym : Symbol → BitVec 64) (tss : Tss) (s : Cpu) (rip errcode : BitVec 64) :
    Handled sym tss e.vector (.handler e) (e.secondArg errcode) s rip errcode := by
  have hnext : e.next = .retFromIntr ∨ e.next = .errorCodeNext ∨ e.next = .nmiNext := by
    unfold Fault.next
    split
    · exact .inr (.inr rfl)
    · exact .inr (.inl rfl)
  refine handled_of_run (k := if HasErrorCode e.vector then 18 else 19) ?_ hnext fun g => ?_
  · split <;> rfl
  · rw [kernelIdt_vector, if_neg (by simp only [h0, h1, or_self, not_false_eq_true])]
    exact run_stub sym g s.toRegs rip errcode h0

/-! The gates of the first two vectors lead past their stubs. -/

/-- A delivery without error code changes memory in the five words of its frame only. -/
theorem deliver_mem {tss : Tss} {v : ℕ} {s : Cpu} (hcode : ¬ HasErrorCode v) {x : BitVec 64}
    (hx : 40 ≤ (x - Mem.below ((kernelIdt v).stackTop tss) 5).toNat) :
    (deliver tss v s rip errcode).mem x = s.mem x := by
  simp only [deliver, if_neg hcode, Cpu.withRegs, Cpu.push, Regs.gpr_set_self]
  simp only [Mem.below] at hx
  generalize (kernelIdt v).stackTop tss = top at hx ⊢
  rw [Mem.write_of_le (by bv_omega), Mem.write_of_le (by bv_omega), Mem.write_of_le (by bv_omega),
    Mem.write_of_le (by bv_omega), Mem.write_of_le (by bv_omega)]

theorem deliver_rdi {tss : Tss} {v : ℕ} {s : Cpu} :
    (deliver tss v s rip errcode).gpr .rdi = s.gpr .rdi := by
  unfold deliver
  by_cases h : HasErrorCode v <;> simp only [h, if_true, if_false] <;> rfl

/-- A gate that leads to the C function: a saved register that does not lie where the CPU has put
its frame is not found in every memory. -/
theorem not_handled_of_free {e : Fault} (he : (kernelIdt e.vector).addr = .handler e)
    (hcode : ¬ HasErrorCode e.vector) {s : Regs} (hk : k < (savedRegs s).length)
    (hfree : 40 ≤ (s.gpr .rdi + BitVec.ofNat 64 (8 * k) -
      Mem.below ((kernelIdt e.vector).stackTop tss) 5).toNat) :
    ∃ m, ¬ Handled sym tss e.vector (.handler e) (e.secondArg errcode) ⟨s, m⟩ rip errcode := by
  -- memory that differs from the register in its first byte
  obtain ⟨m, hm⟩ : ∃ m : Mem, m = fun _ => ~~~Bytes.byteOf (savedRegs s)[k] 0 := ⟨_, rfl⟩
  refine ⟨m, fun ⟨t, hleaves, hsees, _⟩ => ?_⟩
  rw [he] at hleaves
  have ht := hleaves.unique (leaves_of_none rfl)
  injection ht with _ ht
  obtain ⟨func, errcode', hframe⟩ := hsees.frame
  have hread : t.mem.read (s.gpr .rdi + BitVec.ofNat 64 (8 * k)) = (savedRegs s)[k] := by
    have hword := Mem.stackAt_iff.mp hframe k (Nat.lt_add_right 7 hk)
    rw [ht, deliver_rdi] at hword
    rw [ht]
    exact hword.trans (List.getElem_append_left hk)
  have hbyte := Mem.read_eq_iff.mp hread 0 (by decide)
  rw [BitVec.add_zero, ht, deliver_mem hcode hfree] at hbyte
  simp only [hm] at hbyte
  exact BitVec.not_self_ne (by decide) hbyte

/-- **Which exceptions are handled.**  An exception is handled, whatever is in memory, exactly when
its vector is neither 0 nor 1. -/
theorem fault_handled_iff (e : Fault) (sym : Symbol → BitVec 64) (tss : Tss) (s : Regs)
    (rip errcode : BitVec 64) :
    (∀ m, Handled sym tss e.vector (.handler e) (e.secondArg errcode) ⟨s, m⟩ rip errcode) ↔
      e.vector ≠ 0 ∧ e.vector ≠ 1 := by
  by_cases he : e = .divideError ∨ e = .debug
  · have hgate : (kernelIdt e.vector).addr = .handler e := by rw [kernelIdt_vector, if_pos he]
    have hcode : ¬ HasErrorCode e.vector := by rcases he with rfl | rfl <;> decide
    refine iff_of_false (fun h => ?_) (by rcases he with rfl | rfl <;> decide)
    -- the frame of the CPU covers 5 of the 24 words, so it cannot cover both `r15` and `rbp`
    have hfree : 40 ≤ (s.gpr .rdi + BitVec.ofNat 64 (8 * 0) -
          Mem.below ((kernelIdt e.vector).stackTop tss) 5).toNat ∨
        40 ≤ (s.gpr .rdi + BitVec.ofNat 64 (8 * 13) -
          Mem.below ((kernelIdt e.vector).stackTop tss) 5).toNat := by
      generalize Mem.below ((kernelIdt e.vector).stackTop tss) 5 = low
      bv_omega
    rcases hfree with hfree | hfree
    · obtain ⟨m, hm⟩ := not_handled_of_free hgate hcode (show 0 < 17 by decide) hfree
      exact hm (h m)
    · obtain ⟨m, hm⟩ := not_handled_of_free hgate hcode (show 13 < 17 by decide) hfree
      exact hm (h m)
  · obtain ⟨h0, h1⟩ := not_or.mp he
    refine iff_of_true (fun m => fault_handled h0 h1 sym tss ⟨s, m⟩ rip errcode) ?_
    cases e
    case divideError => exact absurd rfl h0
    case debug => exact absurd rfl h1
    all_goals decide

/-- **A division by zero goes wrong.**  `do_divide_error` is entered with the first argument 0, and
finds no `rip` at offset `0x98` from there. -/
theorem divideError_not_handled :
    ¬ Handled linked (kernelTss 0 0 0 fun _ => 0) (Fault.vector .divideError)
      (.handler .divideError) (Fault.secondArg .divideError 0) kernelCpu 0xffff800000109000 0 := by
  rintro ⟨t, hleaves, hsees, -⟩
  rw [show (kernelIdt (Fault.vector .divideError)).addr = .handler .divideError from
    kernelIdt_vector .divideError] at hleaves
  have ht := hleaves.unique (leaves_of_none rfl)
  injection ht with _ ht
  have hrip := hsees.rip
  rw [ht] at hrip
  exact absurd hrip (by decide +kernel)

end Trap
end OSLib
