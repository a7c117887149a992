import OSLib.Foundation.Runs
import Mathlib.Logic.Function.Iterate

/-!
# Spin locks and interrupts

One CPU runs a program, and interrupts put handlers on top of it.  Code is a list of instructions:
it takes and releases spin locks, and saves, clears and restores the interrupt flag.  Taking a lock
that is held does nothing: the CPU executes the instruction again, and if what holds the lock is the
code it interrupted, forever.

`Disciplined` is a condition on code alone: it takes a lock only while interrupts are off, none that
it holds, and enables interrupts only when it holds none.  Where a program and its handlers are
disciplined, and the handlers leave interrupts off, no one ever spins, and every handler comes to
its end (`noSpin_run`).

Interrupts nest as the flag lets them, and a handler is code like any other, so a configuration is
the stack of the codes under way with the flag and the locks.  The theorem is about one CPU, on
which a lock is only ever waited for by code that runs on top of its holder; with two the order in
which locks are taken would matter too.

What the code does between the instructions on locks and flags is left out.  It is assumed to end,
which here is that every instruction is executed once, but for an attempt to take a lock.
-/

namespace OSLib
namespace SpinLocks

/-! ## Code -/

/-- The instructions.  `readFlag` keeps the interrupt flag for the two that follow: `disableIfSet`
clears the flag if the one kept is set, and `enableIfSet` sets it in this case and drops what was
kept. -/
inductive Instr (Lock Op : Type) where
  | lock (l : Lock)
  | unlock (l : Lock)
  | readFlag
  | disableIfSet
  | enableIfSet
  | enable
  | op (o : Op)
  deriving DecidableEq

/-- Code, the next instruction first. -/
abbrev Code (Lock Op : Type) := List (Instr Lock Op)

variable {Lock Op Irq : Type}

/-- Code under a lock. -/
def locked (l : Lock) (body : Code Lock Op) : Code Lock Op := .lock l :: body ++ [.unlock l]

/-- Code with interrupts off; afterwards the flag is what it was. -/
def withoutInterrupts (body : Code Lock Op) : Code Lock Op :=
  .readFlag :: .disableIfSet :: body ++ [.enableIfSet]

/-! ## The CPU -/

/-- The code left of a program or handler, the flags it keeps and the locks it holds. -/
structure Frame (Lock Op : Type) where
  code : Code Lock Op
  flags : List Bool
  held : List Lock

/-- The interrupt flag, what is running, and what it interrupted, with the flag to be restored. -/
structure Cpu (Lock Op : Type) where
  enabled : Bool
  frame : Frame Lock Op
  interrupted : List (Bool × Frame Lock Op)

/-- A program at its start, with interrupts off. -/
def start (program : Code Lock Op) : Cpu Lock Op := ⟨false, ⟨program, [], []⟩, []⟩

/-- What can happen: an instruction, or an interrupt. -/
inductive Action (Irq : Type) where
  | run
  | interrupt (i : Irq)

namespace Cpu

variable [DecidableEq Lock] (s : Cpu Lock Op)

/-- Someone holds the lock. -/
def Holds (l : Lock) : Prop := l ∈ s.frame.held ∨ ∃ x ∈ s.interrupted, l ∈ x.2.held

instance (l : Lock) : Decidable (s.Holds l) := by
  unfold Holds
  infer_instance

/-- The next instruction.  A handler at its end returns to what it interrupted; a program at its end
waits for interrupts. -/
def next : Cpu Lock Op :=
  match s.frame.code with
  | [] =>
    match s.interrupted with
    | [] => s
    | (enabled, frame) :: interrupted => ⟨enabled, frame, interrupted⟩
  | .lock l :: code =>
    if s.Holds l then s
    else { s with frame := ⟨code, s.frame.flags, l :: s.frame.held⟩ }
  | .unlock l :: code => { s with frame := ⟨code, s.frame.flags, s.frame.held.erase l⟩ }
  | .readFlag :: code => { s with frame := ⟨code, s.enabled :: s.frame.flags, s.frame.held⟩ }
  | .disableIfSet :: code =>
    { s with
      enabled := s.enabled && !s.frame.flags.headD false
      frame := ⟨code, s.frame.flags, s.frame.held⟩ }
  | .enableIfSet :: code =>
    { s with
      enabled := s.enabled || s.frame.flags.headD false
      frame := ⟨code, s.frame.flags.tail, s.frame.held⟩ }
  | .enable :: code => { s with enabled := true, frame := ⟨code, s.frame.flags, s.frame.held⟩ }
  | .op _ :: code => { s with frame := ⟨code, s.frame.flags, s.frame.held⟩ }

/-- An interrupt, through an interrupt gate. -/
def interrupt (handler : Code Lock Op) : Cpu Lock Op where
  enabled := false
  frame := ⟨handler, [], []⟩
  interrupted := (s.enabled, s.frame) :: s.interrupted

/-- The state after an action. -/
def after (handler : Irq → Code Lock Op) : Action Irq → Cpu Lock Op
  | .run => s.next
  | .interrupt i => s.interrupt (handler i)

/-- Interrupts come while they are enabled. -/
def Permits : Action Irq → Prop
  | .run => True
  | .interrupt _ => s.enabled = true

end Cpu

/-- One step. -/
def Step [DecidableEq Lock] (handler : Irq → Code Lock Op) (s : Cpu Lock Op) (a : Action Irq)
    (t : Cpu Lock Op) : Prop :=
  s.Permits a ∧ t = s.after handler a

/-! ## Discipline -/

/-- What code has to keep to, from an interrupt flag, the flags it keeps and the locks it holds. -/
def Disciplined [DecidableEq Lock] : Bool → List Bool → List Lock → Code Lock Op → Prop
  | _, _, held, [] => held = []
  | enabled, flags, held, .lock l :: code =>
    enabled = false ∧ l ∉ held ∧ Disciplined enabled flags (l :: held) code
  | enabled, flags, held, .unlock l :: code => Disciplined enabled flags (held.erase l) code
  | enabled, flags, held, .readFlag :: code => Disciplined enabled (enabled :: flags) held code
  | enabled, flags, held, .disableIfSet :: code =>
    Disciplined (enabled && !flags.headD false) flags held code
  | enabled, flags, held, .enableIfSet :: code =>
    (flags.headD false = true → held = []) ∧
      Disciplined (enabled || flags.headD false) flags.tail held code
  | _, flags, held, .enable :: code => held = [] ∧ Disciplined true flags held code
  | enabled, flags, held, .op _ :: code => Disciplined enabled flags held code

variable [DecidableEq Lock] {enabled : Bool} {flags : List Bool} {held : List Lock} {l : Lock}
  {body code : Code Lock Op}

/-- Other instructions do not matter. -/
theorem disciplined_ops (os : List Op) :
    Disciplined enabled flags held (os.map .op ++ code) ↔ Disciplined enabled flags held code := by
  induction os with
  | nil => exact Iff.rfl
  | cons o os ih => exact ih

/-- **Code under a lock** has to be entered with interrupts off. -/
theorem disciplined_locked (henabled : enabled = false) (hl : l ∉ held)
    (h : Disciplined enabled flags (l :: held) (body ++ .unlock l :: code)) :
    Disciplined enabled flags held (locked l body ++ code) := by
  rw [locked, List.cons_append, List.cons_append, List.append_assoc]
  exact ⟨henabled, hl, h⟩

/-- At its end the lock is free again. -/
theorem disciplined_unlock :
    Disciplined enabled flags (l :: held) (.unlock l :: code) ↔
      Disciplined enabled flags held code := by
  rw [Disciplined, List.erase_cons_head]

/-- **Code with interrupts off** may be entered with interrupts on. -/
theorem disciplined_withoutInterrupts
    (h : Disciplined false (enabled :: flags) held (body ++ .enableIfSet :: code)) :
    Disciplined enabled flags held (withoutInterrupts body ++ code) := by
  rw [withoutInterrupts, List.cons_append, List.cons_append, List.cons_append, List.cons_append,
    List.append_assoc, Disciplined, Disciplined, List.headD_cons, Bool.and_not_self]
  exact h

/-- At its end the flag is what it was, and if it was set no lock may be held. -/
theorem disciplined_enableIfSet (hfree : enabled = true → held = [])
    (h : Disciplined enabled flags held code) :
    Disciplined false (enabled :: flags) held (.enableIfSet :: code) :=
  ⟨hfree, h⟩

/-! ## The invariant -/

/-- A handler leaves interrupts off. -/
def Frame.Masked (f : Frame Lock Op) : Prop := .enable ∉ f.code ∧ ∀ b ∈ f.flags, b = false

/-- What is running keeps the discipline and holds locks only while interrupts are off; what is
interrupted was interrupted with interrupts on, and holds none; and no handler is interrupted. -/
structure Inv (s : Cpu Lock Op) : Prop where
  frame : Disciplined s.enabled s.frame.flags s.frame.held s.frame.code
  free : s.enabled = true → s.frame.held = []
  interrupted : ∀ x ∈ s.interrupted,
    x.1 = true ∧ x.2.held = [] ∧ Disciplined true x.2.flags [] x.2.code
  masked : s.interrupted ≠ [] → s.enabled = false ∧ s.frame.Masked
  once : s.interrupted.length ≤ 1

namespace Inv

variable {s : Cpu Lock Op} {i : Instr Lock Op}

/-- Only what is running holds locks. -/
theorem holds_iff (h : Inv s) : s.Holds l ↔ l ∈ s.frame.held := by
  refine or_iff_left ?_
  rintro ⟨x, hx, hl⟩
  rw [(h.interrupted x hx).2.1] at hl
  exact absurd hl List.not_mem_nil

/-- **The lock that is taken next is free.** -/
theorem not_holds (h : Inv s) (hcode : s.frame.code = .lock l :: code) : ¬ s.Holds l := by
  have hframe := h.frame
  rw [hcode] at hframe
  rw [h.holds_iff]
  exact hframe.2.1

/-- An instruction is executed, and leaves what is interrupted alone. -/
theorem next_of_cons (h : Inv s) (hcode : s.frame.code = i :: code) :
    s.next.frame.code = code ∧ s.next.interrupted = s.interrupted := by
  cases i with
  | lock l =>
    simp only [Cpu.next, hcode]
    rw [if_neg (h.not_holds hcode)]
    exact ⟨rfl, rfl⟩
  | _ => simp only [Cpu.next, hcode, and_self]

/-- The part of the invariant about what is running, after an instruction. -/
theorem frame_of_cons (h : Inv s) (hcode : s.frame.code = i :: code) :
    Disciplined s.next.enabled s.next.frame.flags s.next.frame.held s.next.frame.code ∧
      (s.next.enabled = true → s.next.frame.held = []) := by
  have hframe := h.frame
  have hfree := h.free
  rw [hcode] at hframe
  cases i with
  | lock l =>
    simp only [Cpu.next, hcode]
    rw [if_neg (h.not_holds hcode)]
    exact ⟨hframe.2.2, fun henabled => Bool.noConfusion (hframe.1.symm.trans henabled)⟩
  | unlock l =>
    simp only [Cpu.next, hcode]
    exact ⟨hframe, fun henabled => by rw [hfree henabled]; rfl⟩
  | readFlag =>
    simp only [Cpu.next, hcode]
    exact ⟨hframe, hfree⟩
  | disableIfSet =>
    simp only [Cpu.next, hcode]
    exact ⟨hframe, fun henabled => hfree (Bool.and_eq_true_iff.mp henabled).1⟩
  | enableIfSet =>
    simp only [Cpu.next, hcode]
    exact ⟨hframe.2, fun henabled => (Bool.or_eq_true_iff.mp henabled).elim hfree hframe.1⟩
  | enable =>
    simp only [Cpu.next, hcode]
    exact ⟨hframe.2, fun _ => hframe.1⟩
  | op o =>
    simp only [Cpu.next, hcode]
    exact ⟨hframe, hfree⟩

/-- A handler still leaves interrupts off. -/
theorem masked_of_cons (hcode : s.frame.code = i :: code)
    (h : s.enabled = false ∧ s.frame.Masked) (hi : Inv s) :
    s.next.enabled = false ∧ s.next.frame.Masked := by
  obtain ⟨henabled, hmasked, hflags⟩ := h
  rw [hcode, List.mem_cons, not_or] at hmasked
  obtain ⟨hne, henable⟩ := hmasked
  have hhead : s.frame.flags.headD false = false := by
    cases hf : s.frame.flags with
    | nil => rfl
    | cons b flags => exact hflags b (hf ▸ List.mem_cons_self)
  cases i with
  | lock l =>
    simp only [Cpu.next, hcode]
    rw [if_neg (hi.not_holds hcode)]
    exact ⟨henabled, henable, hflags⟩
  | readFlag =>
    simp only [Cpu.next, hcode]
    refine ⟨henabled, henable, fun b hb => ?_⟩
    rcases List.mem_cons.mp hb with rfl | hb
    · exact henabled
    · exact hflags b hb
  | disableIfSet =>
    simp only [Cpu.next, hcode]
    exact ⟨by rw [henabled]; rfl, henable, hflags⟩
  | enableIfSet =>
    simp only [Cpu.next, hcode]
    exact ⟨by rw [henabled, hhead]; rfl, henable, fun b hb => hflags b (List.mem_of_mem_tail hb)⟩
  | enable => exact absurd rfl hne
  | unlock l =>
    simp only [Cpu.next, hcode]
    exact ⟨henabled, henable, hflags⟩
  | op o =>
    simp only [Cpu.next, hcode]
    exact ⟨henabled, henable, hflags⟩

/-- **An instruction keeps the invariant.** -/
theorem next (h : Inv s) : Inv s.next := by
  cases hcode : s.frame.code with
  | cons i code =>
    obtain ⟨-, hinterrupted⟩ := h.next_of_cons hcode
    obtain ⟨hframe, hfree⟩ := h.frame_of_cons hcode
    refine ⟨hframe, hfree, ?_, ?_, ?_⟩
    · rw [hinterrupted]
      exact h.interrupted
    · rw [hinterrupted]
      exact fun hne => masked_of_cons hcode (h.masked hne) h
    · rw [hinterrupted]
      exact h.once
  | nil =>
    cases hint : s.interrupted with
    | nil =>
      rw [Cpu.next, hcode, hint]
      exact h
    | cons x interrupted =>
      obtain ⟨henabled, hheld, hdisciplined⟩ := h.interrupted x (hint ▸ List.mem_cons_self)
      have honce := h.once
      rw [hint, List.length_cons, Nat.add_le_add_iff_right, Nat.le_zero, List.length_eq_zero_iff]
        at honce
      subst honce
      simp only [Cpu.next, hcode, hint]
      refine ⟨?_, fun _ => hheld, fun y hy => absurd hy List.not_mem_nil, fun hne => absurd rfl hne,
        Nat.zero_le 1⟩
      rw [henabled, hheld]
      exact hdisciplined

/-- **So does an interrupt**, if the handler is disciplined. -/
theorem interrupt {handler : Code Lock Op} (h : Inv s)
    (hdisciplined : Disciplined false [] [] handler) (hmasked : .enable ∉ handler)
    (henabled : s.enabled = true) : Inv (s.interrupt handler) := by
  have hnil : s.interrupted = [] := by
    by_contra hne
    exact Bool.noConfusion ((h.masked hne).1.symm.trans henabled)
  have hframe := h.frame
  rw [henabled, h.free henabled] at hframe
  refine ⟨hdisciplined, fun _ => rfl, fun x hx => ?_,
    fun _ => ⟨rfl, hmasked, fun b hb => absurd hb List.not_mem_nil⟩, ?_⟩
  · rw [Cpu.interrupt, hnil] at hx
    obtain rfl := List.mem_singleton.mp hx
    exact ⟨henabled, h.free henabled, hframe⟩
  · rw [Cpu.interrupt, hnil]
    exact Nat.le_refl 1

/-- **A handler comes to its end**, one instruction after the other. -/
theorem returns {x : Bool × Frame Lock Op} {rest : List (Bool × Frame Lock Op)} (h : Inv s)
    (hint : s.interrupted = x :: rest) :
    Cpu.next^[s.frame.code.length + 1] s = ⟨x.1, x.2, rest⟩ := by
  induction hcode : s.frame.code generalizing s with
  | nil =>
    show s.next = _
    simp only [Cpu.next, hcode, hint]
  | cons i code ih =>
    obtain ⟨hnext, hinterrupted⟩ := h.next_of_cons hcode
    rw [List.length_cons, Function.iterate_succ_apply]
    exact ih h.next (hinterrupted.trans hint) hnext

end Inv

/-! ## Runs -/

/-- No one spins: the lock that is taken next is held by no one, locks are held only while
interrupts are off, and a handler returns to what it interrupted. -/
structure NoSpin (s : Cpu Lock Op) : Prop where
  free : ∀ l code, s.frame.code = .lock l :: code → ¬ s.Holds l
  masked : ∀ l, s.Holds l → s.enabled = false
  returns : ∀ x rest, s.interrupted = x :: rest →
    Cpu.next^[s.frame.code.length + 1] s = ⟨x.1, x.2, rest⟩

theorem Inv.noSpin {s : Cpu Lock Op} (h : Inv s) : NoSpin s := by
  refine ⟨fun l code hcode => h.not_holds hcode, fun l hl => ?_, fun x rest => h.returns⟩
  rw [h.holds_iff] at hl
  by_contra henabled
  rw [h.free (Bool.not_eq_false _ ▸ henabled)] at hl
  exact List.not_mem_nil hl

/-- **No one ever spins**, if the program and its handlers are disciplined and the handlers leave
interrupts off. -/
theorem noSpin_run {handler : Irq → Code Lock Op} {program : Code Lock Op}
    {tr : List (Action Irq × Cpu Lock Op)} (hprogram : Disciplined false [] [] program)
    (hhandler : ∀ i, Disciplined false [] [] (handler i) ∧ .enable ∉ handler i)
    (htr : Always (Step handler) (start program) tr) :
    Always (fun _ _ t => NoSpin t) (start program) tr := by
  have hstart : Inv (start program) := ⟨hprogram, fun _ => rfl,
    fun x hx => absurd hx List.not_mem_nil, fun hne => absurd rfl hne, Nat.zero_le 1⟩
  refine (Always.invariant_both (P := Inv) (fun s a t hs hstep => ?_) hstart htr).mono
    fun s a t h => h.2.2.noSpin
  obtain ⟨hpermits, rfl⟩ := hstep
  cases a with
  | run => exact hs.next
  | interrupt i => exact hs.interrupt (hhandler i).1 (hhandler i).2 hpermits

end SpinLocks
end OSLib
