import OSLib.Foundation.SpinLocks
import OSLib.RustOS.Screens

/-!
# rustOS: the locks and the interrupt handlers

The kernel prints through locks its interrupt handlers take too, on one CPU.  `init` takes `PICS`
before it enables interrupts; from then on, kernel code prints, and at every instruction a timer or
a keyboard interrupt may come.  A handler that found its lock held by the code it interrupted would
spin forever; `handlers_never_spin` says that none does, because both `_print` functions hold their
lock inside `without_interrupts` only.

The parts of the crates `spin` and `x86_64` that matter are those of `SpinLocks`: a lock, and
`without_interrupts`.

The bodies of the critical sections, and the acknowledgement of the interrupt, are operations
without an effect on locks or flags; the order of the instructions around them is that of the
source.  A panic inside a lock is left out: it prints through the lock that it may hold itself.
-/

namespace OSLib
namespace RustOS

open SpinLocks

/-! ## The locks -/

/-- The locks.  Each of the two crates has its own `WRITER` and `SERIAL`. -/
inductive Lock where
  | writer (x : Crate)
  | serial (x : Crate)
  | pics
  | keyboard
  deriving DecidableEq

/-- What code does besides: it writes a byte of its text, loads the tables of the CPU, and talks to
the devices. -/
inductive DeviceOp where
  | write (l : Lock) (byte : BitVec 8)
  | gdtInit
  | initIdt
  | initializePics
  | notifyEndOfInterrupt (interruptId : ℕ)
  | readPort (port : ℕ)
  | addByte
  | other
  deriving DecidableEq

/-- Code of the kernel. -/
abbrev KernelCode := Code Lock DeviceOp

/-- `lock().write_fmt(args)` inside `without_interrupts`. -/
def printLocked (l : Lock) (text : Text) : KernelCode :=
  withoutInterrupts (locked l ((text.map (DeviceOp.write l)).map .op))

/-- `vga_buffer::_print`. -/
def vgaPrint (x : Crate) (text : Text) : KernelCode := printLocked (.writer x) text

/-- `serial::_print`. -/
def serialPrint (x : Crate) (text : Text) : KernelCode := printLocked (.serial x) text

/-! ## The handlers -/

/-- `InterruptIndex::Timer` and `InterruptIndex::Keyboard`, the latter with the text of the key the
scancode completes, if it does. -/
inductive Interrupt where
  | timer
  | keyboard (key : Option Text)

/-- `InterruptIndex::as_u8`. -/
def Interrupt.asU8 : Interrupt → ℕ
  | timer => 32
  | keyboard _ => 33

/-- `PICS.lock().notify_end_of_interrupt(..)`. -/
def endOfInterrupt (i : Interrupt) : KernelCode :=
  locked .pics ([DeviceOp.notifyEndOfInterrupt i.asU8].map .op)

/-- `timer_interrupt_handler`. -/
def timerInterruptHandler : KernelCode := vgaPrint .lib [0x2e] ++ endOfInterrupt .timer

/-- `keyboard_interrupt_handler`: it keeps `KEYBOARD` to its end. -/
def keyboardInterruptHandler (key : Option Text) : KernelCode :=
  locked .keyboard ([DeviceOp.readPort 0x60, .addByte].map .op ++
    ((key.map (vgaPrint .lib)).getD [] ++ endOfInterrupt (.keyboard key)))

/-- The handlers of the `IDT`. -/
def handlerFn : Interrupt → KernelCode
  | .timer => timerInterruptHandler
  | .keyboard key => keyboardInterruptHandler key

/-! ## The kernel -/

/-- `init`. -/
def init : KernelCode :=
  [DeviceOp.gdtInit, .initIdt].map .op ++
    (locked .pics ([DeviceOp.initializePics].map .op) ++ [.enable])

/-- The calls of kernel code, and what else it does. -/
inductive KernelCall where
  | print (x : Crate) (text : Text)
  | println (x : Crate) (text : Text)
  | serialPrint (x : Crate) (text : Text)
  | serialPrintln (x : Crate) (text : Text)
  | other

/-- The macros, each a call of `_print`. -/
def KernelCall.code : KernelCall → KernelCode
  | print x text => vgaPrint x text
  | println x text => vgaPrint x (text ++ [newline])
  | serialPrint x text => RustOS.serialPrint x text
  | serialPrintln x text => RustOS.serialPrint x (text ++ [newline])
  | other => [DeviceOp.other].map .op

/-- The kernel: `init`, the calls, and `hlt_loop`. -/
def kernelMain (calls : List KernelCall) : KernelCode := init ++ calls.flatMap KernelCall.code

/-! ## Discipline -/

variable {enabled : Bool} {flags : List Bool} {held : List Lock} {l : Lock} {code : KernelCode}

/-- **A call of `_print`** may be made with interrupts on and no lock held, or with interrupts off
and other locks held. -/
theorem disciplined_printLocked (text : Text) (hfree : enabled = true → held = [])
    (hl : l ∉ held) (h : Disciplined enabled flags held code) :
    Disciplined enabled flags held (printLocked l text ++ code) := by
  refine disciplined_withoutInterrupts (disciplined_locked rfl hl ?_)
  rw [disciplined_ops, disciplined_unlock]
  exact disciplined_enableIfSet hfree h

/-- So may the end of an interrupt be notified, with interrupts off. -/
theorem disciplined_endOfInterrupt (i : Interrupt) (henabled : enabled = false)
    (hl : .pics ∉ held) (h : Disciplined enabled flags held code) :
    Disciplined enabled flags held (endOfInterrupt i ++ code) := by
  refine disciplined_locked henabled hl ?_
  rw [disciplined_ops, disciplined_unlock]
  exact h

theorem disciplined_timer : Disciplined false [] [] timerInterruptHandler := by
  refine disciplined_printLocked _ (fun _ => rfl) List.not_mem_nil ?_
  rw [← List.append_nil (endOfInterrupt .timer)]
  exact disciplined_endOfInterrupt .timer rfl List.not_mem_nil rfl

theorem disciplined_keyboard (key : Option Text) :
    Disciplined false [] [] (keyboardInterruptHandler key) := by
  have hend : Disciplined false [] [.keyboard]
      (endOfInterrupt (.keyboard key) ++ [.unlock .keyboard]) := by
    refine disciplined_endOfInterrupt _ rfl (by decide) ?_
    rw [disciplined_unlock]
    rfl
  rw [← List.append_nil (keyboardInterruptHandler key)]
  refine disciplined_locked rfl List.not_mem_nil ?_
  rw [List.append_assoc, disciplined_ops, List.append_assoc]
  cases key with
  | none => exact hend
  | some text =>
    exact disciplined_printLocked text (fun h => absurd h Bool.false_ne_true) (by decide) hend

theorem disciplined_handlerFn (i : Interrupt) : Disciplined false [] [] (handlerFn i) := by
  cases i with
  | timer => exact disciplined_timer
  | keyboard key => exact disciplined_keyboard key

theorem enable_not_mem_printLocked (l : Lock) (text : Text) : .enable ∉ printLocked l text := by
  simp [printLocked, withoutInterrupts, locked]

/-- The handlers leave interrupts off. -/
theorem enable_not_mem_handlerFn (i : Interrupt) : .enable ∉ handlerFn i := by
  have hend : .enable ∉ endOfInterrupt i := by simp [endOfInterrupt, locked]
  cases i with
  | timer =>
    rw [handlerFn, timerInterruptHandler, List.mem_append, not_or]
    exact ⟨enable_not_mem_printLocked _ _, hend⟩
  | keyboard key =>
    cases key with
    | none => simpa [handlerFn, keyboardInterruptHandler, locked] using hend
    | some text =>
      have hprint := enable_not_mem_printLocked (.writer .lib) text
      simp [handlerFn, keyboardInterruptHandler, locked, vgaPrint, hprint, hend]

/-- The calls of kernel code are made with interrupts on. -/
theorem disciplined_call (c : KernelCall) (h : Disciplined true [] [] code) :
    Disciplined true [] [] (c.code ++ code) := by
  cases c with
  | other => exact h
  | _ => exact disciplined_printLocked _ (fun _ => rfl) List.not_mem_nil h

theorem disciplined_kernelMain (calls : List KernelCall) :
    Disciplined false [] [] (kernelMain calls) := by
  have hcalls : Disciplined true [] [] (calls.flatMap KernelCall.code) := by
    induction calls with
    | nil => rfl
    | cons c calls ih => exact disciplined_call c ih
  rw [kernelMain, init, List.append_assoc, disciplined_ops, List.append_assoc]
  refine disciplined_locked rfl List.not_mem_nil ?_
  rw [disciplined_ops, disciplined_unlock]
  exact ⟨rfl, hcalls⟩

/-! ## The kernel and its interrupts -/

/-- **No handler ever spins**: whatever the kernel prints and whenever interrupts come, a lock is
held only while interrupts are off, whoever takes one finds it free, and a handler returns to the
code it interrupted. -/
theorem handlers_never_spin (calls : List KernelCall)
    {tr : List (Action Interrupt × Cpu Lock DeviceOp)}
    (htr : Always (Step handlerFn) (start (kernelMain calls)) tr) :
    Always (fun _ _ t => NoSpin t) (start (kernelMain calls)) tr :=
  noSpin_run (disciplined_kernelMain calls)
    (fun i => ⟨disciplined_handlerFn i, enable_not_mem_handlerFn i⟩) htr

/-- The kernel has called `print!`, and the keyboard interrupts it before interrupts are off. -/
theorem keyboard_in_print_never_spins : Always (fun _ _ t => NoSpin t)
    (start (kernelMain [.print .lib [0x41]]))
    (runOf (fun s a => s.after handlerFn a) (start (kernelMain [.print .lib [0x41]]))
      [.run, .run, .run, .run, .run, .run, .run, .interrupt (.keyboard (some [0x61])), .run]) :=
  handlers_never_spin _ ⟨⟨trivial, rfl⟩, ⟨trivial, rfl⟩, ⟨trivial, rfl⟩, ⟨trivial, rfl⟩,
    ⟨trivial, rfl⟩, ⟨trivial, rfl⟩, ⟨trivial, rfl⟩, ⟨rfl, rfl⟩, ⟨trivial, rfl⟩, trivial⟩

end RustOS
end OSLib
