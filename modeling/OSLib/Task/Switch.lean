import OSLib.Foundation.X86

/-!
# Switching tasks

`switch_to(prev, next)` is a macro: an assembly block that saves `rbp` and `rax` on the stack of
`prev` and the stack pointer and a return address in its `thread_struct`, takes over the stack
pointer of `next`, and jumps to the C function `__switch_to`, whose `ret` goes where `next` left
off.  `__switch_to` writes the TSS and exchanges `fs` and `gs`.

The memory holds, for each task, its `thread_struct` and its stack, and the two structures
`init_tss` and `TSS64_Table`; these are blocks of memory that share no byte.  Between two switches
the running task does what it likes, except that it leaves alone the words the tasks inside
`switch_to` have saved.

The macro and the function are modelled instruction by instruction and store by store on one memory,
because what matters of them is where they put things: a wrong offset in a `thread_struct` would
save a register over another one.  `__switch_to` is compiled code, and of it only the stores and the
calling convention are used: which registers it may have changed when it returns is left open.
-/

namespace OSLib
namespace Task

open X86

/-! ## Where the tasks lie -/

/-- The blocks of memory a switch writes to. -/
inductive Area (T : Type) where
  | thread (τ : T)
  | stack (τ : T)
  | initTss
  | tss64Table
  deriving DecidableEq

/-- A kernel with the tasks `T`: the addresses of the `task_struct`s, the blocks of memory, and the
addresses of the labels `1:` of all uses of `switch_to`. -/
structure Layout (T : Type) where
  task : T → BitVec 64
  block : Area T → Block
  sites : List (BitVec 64)
  task_injective : Function.Injective task
  apart : ∀ a b, a ≠ b → (block a).Apart (block b)
  thread_size : ∀ τ, (block (.thread τ)).size = 64
  tss_size : (block .initTss).size = 104 ∧ (block .tss64Table).size = 104

variable {T : Type} (L : Layout T)

/-- The fields of `thread_struct` a switch uses, by their offsets. -/
inductive Field where
  | rsp0 | rip | rsp | fs | gs
  deriving DecidableEq

/-- The offset of a field. -/
def Field.off : Field → ℕ
  | .rsp0 => 0
  | .rip => 8
  | .rsp => 16
  | .fs => 24
  | .gs => 32

/-- The address of a field of `tsk->thread`. -/
def Layout.field (τ : T) (f : Field) : BitVec 64 :=
  (L.block (.thread τ)).addr + BitVec.ofNat 64 f.off

/-! ## The assembly block -/

/-- The labels of the block: `1:` and the function it jumps to. -/
inductive Label where
  | one | switchTo
  deriving DecidableEq

/-- The block of `switch_to` up to its jump. -/
def switchTo (prev next : T) : List (Instr Label) :=
  [.push .rbp, .push .rax, .store .rsp (.abs (L.field prev .rsp)),
   .load (.abs (L.field next .rsp)) .rsp, .lea .one .rax, .store .rax (.abs (L.field prev .rip)),
   .pushMem (.abs (L.field next .rip)), .jmp .switchTo]

/-- The block of `switch_to` from `1:` on. -/
def switchToOne : List (Instr Label) := [.pop .rax, .pop .rbp]

/-- The labels of one use of the macro: `1:` at `site`, and `__switch_to`. -/
def link (site entry : BitVec 64) : Label → BitVec 64
  | .one => site
  | .switchTo => entry

/-! ## The function -/

/-- The offsets of `rsp0`, `rsp1`, `rsp2`, `ist1`, …, `ist7` in `tss_struct`, which are those in
`TSS64_Table` too. -/
def tssOffsets : List ℕ := [4, 12, 20, 36, 44, 52, 60, 68, 76, 84]

/-- `set_tss64` with the fields of `init_tss[0]`. -/
def setTss64 (m : Mem) : Mem :=
  tssOffsets.foldl (fun m' o => m'.write ((L.block .tss64Table).addr + BitVec.ofNat 64 o)
    (m.read ((L.block .initTss).addr + BitVec.ofNat 64 o))) m

/-- The body of `__switch_to(prev, next)`: what it does to the memory it names and to the segment
registers. -/
def switchToBody (prev next : T) (s : Cpu) : Cpu :=
  -- init_tss[0].rsp0 = next->thread->rsp0
  let m := s.mem.write ((L.block .initTss).addr + 4) (s.mem.read (L.field next .rsp0))
  let m := setTss64 L m
  -- the old fs and gs to prev->thread, the new ones from next->thread
  let m := m.write (L.field prev .fs) ((s.seg .fs).setWidth 64)
  let m := m.write (L.field prev .gs) ((s.seg .gs).setWidth 64)
  { toRegs := (s.setSeg .fs ((m.read (L.field next .fs)).setWidth 16)).setSeg .gs
      ((m.read (L.field next .gs)).setWidth 16)
    mem := m }

/-- The part of the stack of `next` that a function entered with the stack pointer `sp` may use:
below its return address. -/
def InFrame (next : T) (sp x : BitVec 64) : Prop :=
  (L.block (.stack next)).Has x 1 ∧ 0 < (sp - x).toNat ∧ (sp - x).toNat ≤ 32768

/-- `__switch_to` entered in the state `s` comes to its `ret` in the state `t`.  It has the effect
of its body; beyond that it uses its frame, and by the calling convention it preserves the
callee-saved registers. -/
def SwitchTo (s t : Cpu) : Prop :=
  ∃ prev next, s.gpr .rdi = L.task prev ∧ s.gpr .rsi = L.task next ∧
    (∀ r ∈ calleeSaved, t.gpr r = s.gpr r) ∧ t.seg = (switchToBody L prev next s).seg ∧
    ∀ x, ¬ InFrame L next (s.gpr .rsp) x → t.mem x = (switchToBody L prev next s).mem x

/-! ## Runs -/

/-- Where a task goes on: behind a use of `switch_to`, or at an address. -/
inductive Position where
  | after (site : BitVec 64)
  | at (a : BitVec 64)

/-- A call of `switch_to` that has not come back: its label `1:` and the registers at the call. -/
structure Call where
  site : BitVec 64
  regs : Regs

/-- The running task, the CPU and its position, and the tasks inside `switch_to`. -/
structure State (T : Type) where
  cur : T
  cpu : Cpu
  pos : Position
  inside : T → Option Call

/-- A step: the running task does something of its own, or it switches to another task at the use
of `switch_to` with the label `site`. -/
inductive Event (T : Type) where
  | code
  | switchTo (next : T) (site : BitVec 64)

/-- The words a task inside `switch_to` has saved: in its `thread_struct` and on its stack. -/
def Layout.words (τ : T) (c : Call) : List (BitVec 64) :=
  [L.field τ .rip, L.field τ .rsp, L.field τ .fs, L.field τ .gs, c.regs.gpr .rsp - 8,
   c.regs.gpr .rsp - 16]

/-- The three words below `sp` lie in the stack of the task. -/
def Layout.Room (τ : T) (sp : BitVec 64) : Prop := (L.block (.stack τ)).Has (sp - 24) 24

/-- From the popped address `p` on: the end of the assembly block, if it is the label of one. -/
def Resume (p : BitVec 64) (s : Cpu) (t : Cpu) (pos : Position) : Prop :=
  (p ∈ L.sites ∧ exec (link p 0) switchToOne s = some t ∧ pos = .after p) ∨
    (p ∉ L.sites ∧ t = s ∧ pos = .at p)

variable [DecidableEq T]

/-- The tasks inside `switch_to` once the running task has called it. -/
def State.calls (s : State T) (site : BitVec 64) : T → Option Call :=
  Function.update s.inside s.cur (some ⟨site, s.cpu.toRegs⟩)

/-- One step of the kernel. -/
def Step (s : State T) (e : Event T) (t : State T) : Prop :=
  match e with
  | .code => t.cur = s.cur ∧ t.inside = s.inside ∧
      ∀ τ c, s.inside τ = some c → ∀ w ∈ L.words τ c, t.cpu.mem.read w = s.cpu.mem.read w
  | .switchTo next site =>
    site ∈ L.sites ∧ L.Room s.cur (s.cpu.gpr .rsp) ∧
    -- a task that runs for the first time has a stack pointer in its stack
    (s.calls site next = none →
      (L.block (.stack next)).Has (s.cpu.mem.read (L.field next .rsp) - 8) 8) ∧
    s.cpu.gpr .rdi = L.task s.cur ∧ s.cpu.gpr .rsi = L.task next ∧
    ∃ entry a b p c,
      run (cpuStep (link site entry)) (link site entry) (fun _ => none) 8
        (switchTo L s.cur next) s.cpu = some (.enters entry a) ∧
      SwitchTo L a b ∧ Instr.ret.step (link site entry) b = .enter p c ∧
      Resume L p c t.cpu t.pos ∧
      t.cur = next ∧ t.inside = Function.update (s.calls site) next none

end Task
end OSLib
