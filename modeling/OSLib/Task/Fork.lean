import OSLib.Lib.List
import OSLib.Memory.Alloc
import OSLib.Task.Switch

/-!
# Forking

`do_fork` takes a page from the allocator and makes a task of it: the `task_struct` at its start, a
copy of the running one, the `thread_struct` behind that, and at the end of the first 32 KiB, which
are the stack, a copy of the registers the caller asks for.  `kernel_thread` builds these registers
on its own stack.

The memory of the kernel is bytes here, but for the data of the allocator, which has its own model.
The debug output is left out.

## Flat memory

`do_fork` reaches the page through `Phy_To_Virt`, and every load and store here is at a virtual
address of one flat memory: what is stored at an address is found there, and no access faults.  On
the machine this is so where the address is mapped, and mapped to itself: for pages 0 to 4, by the
page directory of `head.sx`.  Further up the addresses lead to the frame buffer, and behind that
nowhere.

The results of this file and of `ForkEffects`, `Thread` and `Ring` are about what the code stores,
which does not depend on the mapping, for a page that can be used.  Which pages these are is a fact
about the tables (`usable_iff` in `LowZone`), and which of them a fork gets is one about the
allocator; `Isolation` puts the three together.
-/

namespace OSLib
namespace Task

open Memory Lib

/-! ## Layouts -/

/-- The addresses the linker gives: of `init_task_union`, of `ret_from_intr`, and of the labels of
`kernel_thread_func`, the return addresses of its two calls among them. -/
inductive Symbol where
  | initTaskUnion | retFromIntr | kernelThreadFunc | fnNext | doExit | exitNext
  deriving DecidableEq

/-- `STACK_SIZE`. -/
def stackSize : BitVec 64 := 32768

/-- `KERNEL_CS`. -/
def kernelCs : BitVec 64 := 0x08

/-- `KERNEL_DS`. -/
def kernelDs : BitVec 64 := 0x10

/-- `PF_KTHREAD`. -/
def pfKthread : BitVec 64 := 1 <<< 0

/-- `TASK_RUNNING`. -/
def taskRunning : BitVec 64 := 1 <<< 0

/-- `TASK_UNINTERRUPTIBLE`. -/
def taskUninterruptible : BitVec 64 := 1 <<< 2

/-- The offsets in `struct task_struct` of the fields a fork writes, behind the list node. -/
inductive TaskField where
  | state | flags | thread | pid

/-- The offset of a field. -/
def TaskField.off : TaskField → BitVec 64
  | .state => 16
  | .flags => 24
  | .thread => 40
  | .pid => 56

/-- `sizeof(struct task_struct)`. -/
def taskSize : BitVec 64 := 88

/-- `sizeof(struct pt_regs)`. -/
def ptRegsSize : BitVec 64 := 192

/-- The fields of `struct pt_regs`, in order. -/
inductive PtReg where
  | r15 | r14 | r13 | r12 | r11 | r10 | r9 | r8 | rbx | rcx | rdx | rsi | rdi | rbp | ds | es | rax
  | func | errcode | rip | cs | rflags | rsp | ss
  deriving DecidableEq

/-- The offset of a field. -/
def PtReg.off (r : PtReg) : BitVec 64 := BitVec.ofNat 64 (8 * r.ctorIdx)

/-! ## The functions -/

/-- The allocator and the memory of the kernel. -/
structure Kernel where
  alloc : MemState
  mem : Mem

/-- What becomes of a call of `do_fork`. -/
inductive ForkResult where
  /-- It returns a value. -/
  | returns (v : BitVec 64) (k : Kernel)
  /-- It follows a null pointer that is not mapped. -/
  | fault
  /-- `alloc_pages` never returns. -/
  | hang

/-- `get_current()`, with the stack pointer at the call. -/
def getCurrent (rsp : BitVec 64) : BitVec 64 := ~~~32767 &&& rsp

/-- The call of `alloc_pages` in `do_fork`. -/
def forkPages (s : MemState) : AllocResult :=
  allocPages s zoneNormal 1 (pgPTableMaped ||| pgActive ||| pgKernel)

/-- The new `task_struct`, up to its `thread` pointer: a copy of the running one, linked into the
ring before `init_task_union`. -/
def forkTask (sym : Symbol → BitVec 64) (m : Mem) (rsp tsk : BitVec 64) : Mem :=
  let m := (m.fill tsk 0 11).copy tsk (getCurrent rsp) 11
  let m := listAddToBefore (listInit m tsk) (sym .initTaskUnion) tsk
  let m := m.write (tsk + TaskField.pid.off) (m.read (tsk + TaskField.pid.off) + 1)
  let m := m.write (tsk + TaskField.state.off) taskUninterruptible
  m.write (tsk + TaskField.thread.off) (tsk + taskSize)

/-- The copy of the registers, and the `thread_struct`. -/
def forkThread (m : Mem) (regs tsk : BitVec 64) : Mem :=
  let thd := tsk + taskSize
  let m := m.copy (tsk + stackSize - ptRegsSize) regs 24
  let m := m.write (thd + BitVec.ofNat 64 Field.rsp0.off) (tsk + stackSize)
  let m := m.write (thd + BitVec.ofNat 64 Field.rip.off) (m.read (regs + PtReg.rip.off))
  m.write (thd + BitVec.ofNat 64 Field.rsp.off) (tsk + stackSize - ptRegsSize)

/-- What `do_fork` does to memory once it has the page. -/
def forkMem (sym : Symbol → BitVec 64) (m : Mem) (rsp regs tsk : BitVec 64) : Mem :=
  let thd := tsk + taskSize
  let m := forkThread (forkTask sym m rsp tsk) regs tsk
  let m :=
    if m.read (tsk + TaskField.flags.off) &&& pfKthread = 0 then
      (m.write (regs + PtReg.rip.off) (sym .retFromIntr)).write
        (thd + BitVec.ofNat 64 Field.rip.off) (sym .retFromIntr)
    else m
  m.write (tsk + TaskField.state.off) taskRunning

/-- `do_fork(regs, clone_flags, stack_start, stack_size)`, with the stack pointer `rsp` in its
frame.  The page `alloc_pages` returns is used unchecked: without one, its field `phy_addr` is the
word at address 8. -/
def doFork (sym : Symbol → BitVec 64) (k : Kernel)
    (rsp regs _cloneFlags _stackStart _stackSize : BitVec 64) : ForkResult :=
  match forkPages k.alloc with
  | .pages p s =>
    .returns 0 ⟨s, forkMem sym k.mem rsp regs (phyToVirt (s.pages p).phyAddr)⟩
  | .null =>
    if k.alloc.lowMapped then
      .returns 0 ⟨k.alloc, forkMem sym k.mem rsp regs (phyToVirt (k.mem.read 8))⟩
    else .fault
  | .fault => .fault
  | .hang => .hang

/-- The registers `kernel_thread` builds, in its local `regs`. -/
def threadRegs (sym : Symbol → BitVec 64) (m : Mem) (regs fn arg : BitVec 64) : Mem :=
  let m := m.fill regs 0 24
  let m := m.write (regs + PtReg.rbx.off) fn
  let m := m.write (regs + PtReg.rdx.off) arg
  let m := m.write (regs + PtReg.ds.off) kernelDs
  let m := m.write (regs + PtReg.es.off) kernelDs
  let m := m.write (regs + PtReg.cs.off) kernelCs
  let m := m.write (regs + PtReg.ss.off) kernelDs
  let m := m.write (regs + PtReg.rflags.off) (1 <<< 9)
  m.write (regs + PtReg.rip.off) (sym .kernelThreadFunc)

/-- `kernel_thread(fn, arg, flags)`, with its local `regs` at the given address and the stack
pointer `rsp` in `do_fork`. -/
def kernelThread (sym : Symbol → BitVec 64) (k : Kernel) (rsp regs fn arg flags : BitVec 64) :
    ForkResult :=
  doFork sym { k with mem := threadRegs sym k.mem regs fn arg } rsp regs flags 0 0

/-! ## A fresh page -/

/-- The memory of a task: its `task_struct` and its stack. -/
def taskUnion (a : BitVec 64) : Block := ⟨a, 32768⟩

/-- The part of it that is stack. -/
def stackOf (a : BitVec 64) : Block := ⟨a + taskSize, 32680⟩

/-- The page at `tsk` is neither that of the running task `cur` nor that of one of the two list
nodes a fork links the new task between; and these nodes are not on the stack of the running task.
-/
structure Fresh (sym : Symbol → BitVec 64) (m : Mem) (cur tsk : BitVec 64) : Prop where
  current : (taskUnion cur).Apart (taskUnion tsk)
  first : (taskUnion tsk).Apart (node (sym .initTaskUnion))
  last : (taskUnion tsk).Apart (node (m.read (sym .initTaskUnion)))
  stackFirst : (stackOf cur).Apart (node (sym .initTaskUnion))
  stackLast : (stackOf cur).Apart (node (m.read (sym .initTaskUnion)))

/-- What a fork leaves for the task at `tsk` to start with: at `rip`, with the words `ws` on its
stack. -/
structure Prepared (m : Mem) (tsk rip : BitVec 64) (ws : List (BitVec 64)) : Prop where
  rip : m.read (tsk + taskSize + BitVec.ofNat 64 Field.rip.off) = rip
  rsp : m.read (tsk + taskSize + BitVec.ofNat 64 Field.rsp.off) = tsk + stackSize - ptRegsSize
  image : m.StackAt (tsk + stackSize - ptRegsSize) ws

variable {sym : Symbol → BitVec 64} {m : Mem} {cur tsk rsp regs x : BitVec 64}
  {ws : List (BitVec 64)}

theorem taskUnion_stackOf (a : BitVec 64) : (taskUnion a).Has (stackOf a).addr 32680 :=
  Block.has_offset a (by decide)

/-- The part that is `task_struct`. -/
def taskPart (a : BitVec 64) : Block := ⟨a, 88⟩

theorem taskPart_apart (a : BitVec 64) : (taskPart a).Apart (stackOf a) := by
  unfold taskPart stackOf taskSize Block.Apart
  constructor <;> simp only <;> bv_omega

theorem taskPart_field (a : BitVec 64) (f : TaskField) : (taskPart a).Has (a + f.off) 8 := by
  cases f <;> exact Block.has_offset a (by decide)

/-- The stack of the running task is not in the fresh page. -/
theorem Fresh.stack (h : Fresh sym m cur tsk) : (stackOf cur).Apart (taskUnion tsk) :=
  h.current.part (taskUnion_stackOf cur) (by decide)

/-- A field of the new `task_struct`. -/
theorem taskUnion_field (tsk : BitVec 64) (f : TaskField) :
    (taskUnion tsk).Has (tsk + f.off) 8 :=
  (Block.has_self tsk (by decide)).trans (taskPart_field tsk f)

/-- The new `task_struct` behind its list node. -/
def taskBody (tsk : BitVec 64) : Block := ⟨tsk + 16, 72⟩

theorem taskBody_apart (tsk : BitVec 64) : (taskBody tsk).Apart (node tsk) := by
  unfold taskBody node Block.Apart
  constructor <;> simp only <;> bv_omega

theorem taskUnion_taskBody (tsk : BitVec 64) : (taskUnion tsk).Has (taskBody tsk).addr 72 :=
  Block.has_offset tsk (by decide)

/-- The copy of the running `task_struct`, with its list node initialised. -/
def forkCopy (m : Mem) (rsp tsk : BitVec 64) : Mem :=
  listInit ((m.fill tsk 0 11).copy tsk (getCurrent rsp) 11) tsk

theorem within_forkCopy : Mem.Within (taskPart tsk) m (forkCopy m rsp tsk) := by
  have hnode : Mem.Within (node tsk) ((m.fill tsk 0 11).copy tsk (getCurrent rsp) 11)
      (forkCopy m rsp tsk) := within_listInit
  refine ((Mem.within_fill ?_).trans (Mem.within_copy ?_)).trans fun x hx => hnode x fun h => hx ?_
  · exact Block.has_self tsk (by decide)
  · exact Block.has_self tsk (by decide)
  · exact (Block.has_self tsk (by decide)).trans h

/-- What keeps away from a task's memory keeps away from its `task_struct`. -/
theorem apart_taskPart {A : Block} (h : A.Apart (taskUnion tsk)) : A.Apart (taskPart tsk) :=
  h.of_part (Block.has_self tsk (by decide)) (by decide)

/-- The fields of a `task_struct` are words of it. -/
theorem TaskField.off_eq (f : TaskField) : ∃ j < 11, f.off = BitVec.ofNat 64 (8 * j) := by
  cases f
  · exact ⟨2, by decide, rfl⟩
  · exact ⟨3, by decide, rfl⟩
  · exact ⟨5, by decide, rfl⟩
  · exact ⟨7, by decide, rfl⟩

theorem taskBody_field (tsk : BitVec 64) (f : TaskField) : (taskBody tsk).Has (tsk + f.off) 8 := by
  rw [taskBody, Block.Has]
  cases f <;> simp only [TaskField.off] <;> bv_omega

/-- Two fields of a `task_struct` share no byte. -/
theorem TaskField.apart (tsk : BitVec 64) {f g : TaskField} (hne : f ≠ g) :
    Mem.Apart (tsk + f.off) (tsk + g.off) := by
  rw [Mem.Apart]
  cases f <;> cases g <;> first | exact absurd rfl hne | (simp only [TaskField.off]; bv_omega)

/-- Up to the link into the ring, the fields of the new task are those of the running one. -/
theorem forkCopy_field (hf : Fresh sym m (getCurrent rsp) tsk) (f : TaskField) :
    (forkCopy m rsp tsk).read (tsk + f.off) = m.read (getCurrent rsp + f.off) := by
  have hsrc : (taskUnion (getCurrent rsp)).Has (getCurrent rsp) (8 * 11) :=
    Block.has_self _ (by decide)
  have hdst : (taskUnion tsk).Has tsk (8 * 11) := Block.has_self tsk (by decide)
  have hfield := taskUnion_field (getCurrent rsp) f
  have hbody := taskBody_field tsk f
  obtain ⟨j, hj, hoff⟩ := f.off_eq
  rw [hoff] at hfield hbody ⊢
  rw [forkCopy, within_listInit.read (taskBody_apart tsk) hbody,
    Mem.read_copy hsrc hdst hf.current (by decide) hj]
  exact (Mem.within_fill hdst).read hf.current hfield

/-- The link into the ring and the fields written after it. -/
theorem forkTask_eq (sym : Symbol → BitVec 64) (m : Mem) (rsp tsk : BitVec 64) :
    ∃ pid, forkTask sym m rsp tsk =
      (((listAddToBefore (forkCopy m rsp tsk) (sym .initTaskUnion) tsk).write
        (tsk + TaskField.pid.off) pid).write (tsk + TaskField.state.off)
        taskUninterruptible).write (tsk + TaskField.thread.off) (tsk + taskSize) := ⟨_, rfl⟩

/-- The ring is as it was when the new task is linked into it. -/
theorem Fresh.ring (hf : Fresh sym m cur tsk) :
    (forkCopy m rsp tsk).read (sym .initTaskUnion) = m.read (sym .initTaskUnion) :=
  within_forkCopy.read (apart_taskPart hf.first.symm) (node_has _).1

theorem Fresh.node_apart (hf : Fresh sym m cur tsk) :
    (node tsk).Apart (node (sym .initTaskUnion)) :=
  hf.first.part (Block.has_self tsk (by decide)) (by decide)

/-- The new `task_struct` is made without a change outside it and the two list nodes. -/
theorem forkTask_read_of_apart {A : Block} (hf : Fresh sym m (getCurrent rsp) tsk)
    (hpart : A.Apart (taskPart tsk)) (hfirst : A.Apart (node (sym .initTaskUnion)))
    (hlast : A.Apart (node (m.read (sym .initTaskUnion)))) (hx : A.Has x 8) :
    (forkTask sym m rsp tsk).read x = m.read x := by
  obtain ⟨pid, hfork⟩ := forkTask_eq sym m rsp tsk
  have hnode : A.Apart (node tsk) := hpart.of_part (Block.has_self tsk (by decide)) (by decide)
  have hlast' : A.Apart (node ((forkCopy m rsp tsk).read (sym .initTaskUnion))) := by
    rw [hf.ring]
    exact hlast
  rw [hfork, (Mem.within_write (taskPart_field tsk .thread)).read hpart hx,
    (Mem.within_write (taskPart_field tsk .state)).read hpart hx,
    (Mem.within_write (taskPart_field tsk .pid)).read hpart hx,
    read_listAddToBefore hnode hfirst hlast' hf.node_apart hx]
  exact within_forkCopy.read hpart hx

/-- It is made without a change to the stack of the running task. -/
theorem forkTask_read (hf : Fresh sym m (getCurrent rsp) tsk)
    (hx : (stackOf (getCurrent rsp)).Has x 8) : (forkTask sym m rsp tsk).read x = m.read x :=
  forkTask_read_of_apart hf (apart_taskPart hf.stack) hf.stackFirst hf.stackLast hx

/-- The link into the ring leaves the fields of the new task alone. -/
theorem linked_field (hf : Fresh sym m (getCurrent rsp) tsk) (f : TaskField) :
    (listAddToBefore (forkCopy m rsp tsk) (sym .initTaskUnion) tsk).read (tsk + f.off) =
      m.read (getCurrent rsp + f.off) := by
  have hpart {B : Block} (h : (taskUnion tsk).Apart B) : (taskBody tsk).Apart B :=
    h.part (taskUnion_taskBody tsk) (by decide)
  have hlast : (taskBody tsk).Apart
      (node ((forkCopy m rsp tsk).read (sym .initTaskUnion))) := by
    rw [hf.ring]
    exact hpart hf.last
  rw [read_listAddToBefore (taskBody_apart tsk) (hpart hf.first) hlast hf.node_apart
    (taskBody_field tsk f)]
  exact forkCopy_field hf f

/-- The flags of the new task are those of the running one. -/
theorem forkTask_flags (hf : Fresh sym m (getCurrent rsp) tsk) :
    (forkTask sym m rsp tsk).read (tsk + TaskField.flags.off) =
      m.read (getCurrent rsp + TaskField.flags.off) := by
  obtain ⟨pid, hfork⟩ := forkTask_eq sym m rsp tsk
  rw [hfork, Mem.read_write_of_apart (TaskField.apart tsk (by simp)),
    Mem.read_write_of_apart (TaskField.apart tsk (by simp)),
    Mem.read_write_of_apart (TaskField.apart tsk (by simp))]
  exact linked_field hf .flags

/-- Its pid is the next one. -/
theorem forkTask_pid (hf : Fresh sym m (getCurrent rsp) tsk) :
    (forkTask sym m rsp tsk).read (tsk + TaskField.pid.off) =
      m.read (getCurrent rsp + TaskField.pid.off) + 1 := by
  rw [← linked_field hf .pid]
  refine (Mem.read_write_of_apart (TaskField.apart tsk (by simp))).trans ?_
  exact (Mem.read_write_of_apart (TaskField.apart tsk (by simp))).trans Mem.read_write_self

/-- The `task_struct` and the `thread_struct` behind it. -/
def pcb (tsk : BitVec 64) : Block := ⟨tsk, 152⟩

/-- The saved registers at the end of the stack. -/
def savedFrame (tsk : BitVec 64) : Block := ⟨tsk + stackSize - ptRegsSize, 192⟩

theorem savedFrame_apart (tsk : BitVec 64) : (savedFrame tsk).Apart (pcb tsk) := by
  unfold savedFrame pcb stackSize ptRegsSize Block.Apart
  constructor <;> simp only <;> bv_omega

theorem pcb_thread (tsk : BitVec 64) (f : Field) :
    (pcb tsk).Has (tsk + taskSize + BitVec.ofNat 64 f.off) 8 := by
  have hthread : (pcb tsk).Has (tsk + taskSize) 64 := Block.has_offset tsk (by decide)
  cases f <;> exact hthread.trans (Block.has_offset _ (by decide))

theorem pcb_field (tsk : BitVec 64) (f : TaskField) : (pcb tsk).Has (tsk + f.off) 8 :=
  (Block.has_self tsk (by decide)).trans (taskPart_field tsk f)

/-- The fields of the `thread_struct` and of the `task_struct` share no byte. -/
theorem thread_apart_field (tsk : BitVec 64) (f : Field) (g : TaskField) :
    Mem.Apart (tsk + taskSize + BitVec.ofNat 64 f.off) (tsk + g.off) := by
  unfold Mem.Apart taskSize
  cases f <;> cases g <;> simp only [Field.off, TaskField.off] <;> bv_omega

/-- The fields of the new `task_struct` are not touched. -/
theorem forkThread_field (f : TaskField) : (forkThread m regs tsk).read (tsk + f.off) =
    m.read (tsk + f.off) := by
  have hframe : (savedFrame tsk).Has (tsk + stackSize - ptRegsSize) (8 * 24) :=
    Block.has_self _ (by decide)
  unfold forkThread
  rw [Mem.read_write_of_apart (thread_apart_field _ _ _),
    Mem.read_write_of_apart (thread_apart_field _ _ _),
    Mem.read_write_of_apart (thread_apart_field _ _ _)]
  exact (Mem.within_copy hframe).read (savedFrame_apart tsk).symm (pcb_field tsk f)

/-- **The registers and the `thread_struct` of the new task.** -/
theorem prepared_forkThread {A : Block} (hf : A.Apart (taskUnion tsk)) (hws : m.StackAt regs ws)
    (hlen : ws.length = 24) (hregs : A.Has regs 192) :
    Prepared (forkThread m regs tsk) tsk (m.read (regs + PtReg.rip.off)) ws := by
  obtain ⟨m₁, hm₁⟩ : ∃ m₁, m₁ = m.copy (tsk + stackSize - ptRegsSize) regs 24 := ⟨_, rfl⟩
  have hunion : (taskUnion tsk).Has (tsk + stackSize - ptRegsSize) (8 * 24) := by
    unfold taskUnion stackSize ptRegsSize Block.Has
    bv_omega
  have hcopy : m₁.StackAt (tsk + stackSize - ptRegsSize) ws := by
    have h := Mem.stackAt_copy hws (by rw [hlen]; exact hregs) (by rwa [hlen]) hf (by omega)
    rwa [hlen, ← hm₁] at h
  -- the `rip` the caller asks for is still in its frame
  have hrip (v : BitVec 64) : (m₁.write (tsk + taskSize + BitVec.ofNat 64 Field.rsp0.off) v).read
      (regs + PtReg.rip.off) = m.read (regs + PtReg.rip.off) := by
    have hslot : A.Has (regs + PtReg.rip.off) 8 := hregs.trans (Block.has_offset regs (by decide))
    have hthread : (taskUnion tsk).Has (tsk + taskSize + BitVec.ofNat 64 Field.rsp0.off) 8 :=
      (Block.has_self tsk (by decide)).trans (pcb_thread tsk .rsp0)
    rw [(Mem.within_write hthread).read hf hslot, hm₁]
    exact (Mem.within_copy hunion).read hf hslot
  unfold forkThread
  simp only [← hm₁, hrip]
  refine ⟨?_, Mem.read_write_self, ?_⟩
  · rw [Mem.read_write_of_apart, Mem.read_write_self]
    unfold Mem.Apart taskSize
    simp only [Field.off]
    bv_omega
  · have hpcb (v₁ v₂ v₃ : BitVec 64) := ((Mem.within_write (pcb_thread tsk .rsp0)).trans
      (Mem.within_write (v := v₂) (pcb_thread tsk .rip))).trans
      (Mem.within_write (v := v₃) (m := (m₁.write _ v₁).write _ v₂) (pcb_thread tsk .rsp))
    exact (hpcb _ _ _).stackAt (savedFrame_apart tsk) (Block.has_self _ (by omega))
      (by omega) hcopy

/-- The new task before the last branch of `do_fork`. -/
def forked (sym : Symbol → BitVec 64) (m : Mem) (rsp regs tsk : BitVec 64) : Mem :=
  forkThread (forkTask sym m rsp tsk) regs tsk

/-- The running task is a kernel task. -/
def IsKthread (m : Mem) (tsk : BitVec 64) : Prop :=
  m.read (tsk + TaskField.flags.off) &&& pfKthread ≠ 0

instance (m : Mem) (tsk : BitVec 64) : Decidable (IsKthread m tsk) := by
  unfold IsKthread
  infer_instance

/-- A fork in a kernel task ends with the state of the new task. -/
theorem forkMem_of_kthread (hf : Fresh sym m (getCurrent rsp) tsk)
    (hk : IsKthread m (getCurrent rsp)) : forkMem sym m rsp regs tsk =
      (forked sym m rsp regs tsk).write (tsk + TaskField.state.off) taskRunning := by
  have hflags : (forked sym m rsp regs tsk).read (tsk + TaskField.flags.off) &&& pfKthread ≠ 0 := by
    rwa [forked, forkThread_field, forkTask_flags hf]
  exact congrArg (fun m => Mem.write m _ _) (if_neg hflags)

/-- Otherwise the two `rip`s are patched before. -/
theorem forkMem_of_not_kthread (hf : Fresh sym m (getCurrent rsp) tsk)
    (hk : ¬ IsKthread m (getCurrent rsp)) : forkMem sym m rsp regs tsk =
      (((forked sym m rsp regs tsk).write (regs + PtReg.rip.off) (sym .retFromIntr)).write
        (tsk + taskSize + BitVec.ofNat 64 Field.rip.off) (sym .retFromIntr)).write
        (tsk + TaskField.state.off) taskRunning := by
  have hflags : (forked sym m rsp regs tsk).read (tsk + TaskField.flags.off) &&& pfKthread = 0 := by
    rw [forked, forkThread_field, forkTask_flags hf]
    exact not_not.mp hk
  exact congrArg (fun m => Mem.write m _ _) (if_pos hflags)

/-- **A fork in a kernel task** leaves the new task ready to start at `rip`, with the registers of
the frame on its stack. -/
theorem prepared_forkMem (hf : Fresh sym m (getCurrent rsp) tsk)
    (hk : IsKthread m (getCurrent rsp)) (hws : m.StackAt regs ws) (hlen : ws.length = 24)
    (hregs : (stackOf (getCurrent rsp)).Has regs 192) :
    Prepared (forkMem sym m rsp regs tsk) tsk (m.read (regs + PtReg.rip.off)) ws := by
  have hframe {k : ℕ} (hk : k < 24) :
      (stackOf (getCurrent rsp)).Has (regs + BitVec.ofNat 64 (8 * k)) 8 :=
    hregs.trans (Block.has_offset regs (by omega))
  have hws' : (forkTask sym m rsp tsk).StackAt regs ws := by
    refine Mem.stackAt_iff.mpr fun k hk => ?_
    rw [forkTask_read hf (hframe (hlen ▸ hk))]
    exact Mem.stackAt_iff.mp hws k hk
  have hp : Prepared (forked sym m rsp regs tsk) tsk _ ws :=
    prepared_forkThread hf.stack hws' hlen hregs
  have hrip : (stackOf (getCurrent rsp)).Has (regs + PtReg.rip.off) 8 :=
    hframe (k := 19) (by decide)
  rw [forkTask_read hf hrip] at hp
  rw [forkMem_of_kthread hf hk]
  refine ⟨?_, ?_, ?_⟩
  · rw [Mem.read_write_of_apart (thread_apart_field _ _ _).symm, hp.rip]
  · rw [Mem.read_write_of_apart (thread_apart_field _ _ _).symm, hp.rsp]
  · exact (Mem.within_write (pcb_field tsk .state)).stackAt (savedFrame_apart tsk)
      (Block.has_self _ (by omega)) (by omega) hp.image

/-! ## A kernel thread -/

/-- A `struct pt_regs` in memory, word by word. -/
structure PtRegsAt (m : Mem) (regs : BitVec 64) (ws : List (BitVec 64)) : Prop where
  stackAt : m.StackAt regs ws
  length : ws.length = 24

/-- Storing a field. -/
theorem PtRegsAt.set {v : BitVec 64} (h : PtRegsAt m regs ws) (r : PtReg) :
    PtRegsAt (m.write (regs + r.off) v) regs (ws.set r.ctorIdx v) := by
  have hr : r.ctorIdx < 24 := by cases r <;> decide
  have hlen := h.length
  exact ⟨h.stackAt.set (by omega) (by omega), by rw [List.length_set, hlen]⟩

/-- The registers a kernel thread starts with. -/
def threadWords (sym : Symbol → BitVec 64) (fn arg : BitVec 64) : List (BitVec 64) :=
  [0, 0, 0, 0, 0, 0, 0, 0, fn, 0, arg, 0, 0, 0, kernelDs, kernelDs, 0, 0, 0,
    sym .kernelThreadFunc, kernelCs, 1 <<< 9, 0, kernelDs]

variable {fn arg flags : BitVec 64}

/-- **`kernel_thread` builds these registers** on its stack. -/
theorem ptRegsAt_threadRegs : PtRegsAt (threadRegs sym m regs fn arg) regs
    (threadWords sym fn arg) := by
  have h0 : PtRegsAt (m.fill regs 0 24) regs (List.replicate 24 0) :=
    ⟨Mem.stackAt_fill m regs 0 (by omega), List.length_replicate⟩
  exact (((((((h0.set .rbx).set .rdx).set .ds).set .es).set .cs).set .ss).set .rflags).set .rip

theorem within_threadRegs {B : Block} (h : B.Has regs 192) :
    Mem.Within B m (threadRegs sym m regs fn arg) := by
  have hreg (r : PtReg) : B.Has (regs + r.off) 8 := by
    have hr : r.ctorIdx < 24 := by cases r <;> decide
    exact h.trans (Block.has_offset regs (by omega))
  have hfill : B.Has regs (8 * 24) := h
  unfold threadRegs
  exact ((((((((Mem.within_fill hfill).trans (Mem.within_write (hreg _))).trans
    (Mem.within_write (hreg _))).trans (Mem.within_write (hreg _))).trans
    (Mem.within_write (hreg _))).trans (Mem.within_write (hreg _))).trans
    (Mem.within_write (hreg _))).trans (Mem.within_write (hreg _))).trans
    (Mem.within_write (hreg _))

/-- The page stays fresh while `kernel_thread` builds the registers. -/
theorem Fresh.threadRegs (hf : Fresh sym m cur tsk) (h : (stackOf cur).Has regs 192) :
    Fresh sym (threadRegs sym m regs fn arg) cur tsk := by
  have hring : (Task.threadRegs sym m regs fn arg).read (sym .initTaskUnion) =
      m.read (sym .initTaskUnion) :=
    (within_threadRegs h).read hf.stackFirst.symm (node_has _).1
  refine ⟨hf.current, hf.first, ?_, hf.stackFirst, ?_⟩
  · rw [hring]
    exact hf.last
  · rw [hring]
    exact hf.stackLast

/-- **What `kernel_thread` leaves behind.**  In a kernel task it returns 0 once it has a fresh page,
and the new task is ready to start in `kernel_thread_func`. -/
theorem kernelThread_prepared {k : Kernel} {p : ℕ} {s : MemState}
    (hp : forkPages k.alloc = .pages p s)
    (hf : Fresh sym k.mem (getCurrent rsp) (phyToVirt (s.pages p).phyAddr))
    (hflags : k.mem.read (getCurrent rsp + TaskField.flags.off) &&& pfKthread ≠ 0)
    (hregs : (stackOf (getCurrent rsp)).Has regs 192) :
    ∃ m, kernelThread sym k rsp regs fn arg flags = .returns 0 ⟨s, m⟩ ∧
      Prepared m (phyToVirt (s.pages p).phyAddr) (sym .kernelThreadFunc)
        (threadWords sym fn arg) := by
  have hfl : (threadRegs sym k.mem regs fn arg).read (getCurrent rsp + TaskField.flags.off) =
      k.mem.read (getCurrent rsp + TaskField.flags.off) :=
    (within_threadRegs hregs).read (taskPart_apart _) (taskPart_field _ .flags)
  have hframe : PtRegsAt (threadRegs sym k.mem regs fn arg) regs (threadWords sym fn arg) :=
    ptRegsAt_threadRegs
  have hprep := prepared_forkMem (hf.threadRegs hregs) (by rwa [IsKthread, hfl]) hframe.stackAt
    hframe.length hregs
  have hrip : (threadRegs sym k.mem regs fn arg).read (regs + PtReg.rip.off) =
      sym .kernelThreadFunc := Mem.read_write_self
  rw [hrip] at hprep
  refine ⟨_, ?_, hprep⟩
  unfold kernelThread doFork
  rw [hp]

end Task
end OSLib
