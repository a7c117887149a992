import OSLib.Task.Thread

/-!
# What a fork changes, and what it leaves stale

`do_fork` writes to the page it was given and to the two list nodes it links the new task between
(`forkMem_read`), and, when the running task is not a kernel task, to the `rip` of the caller's
frame: it copies the frame to the new stack first and patches the original afterwards.  So the
caller's frame survives exactly in a kernel task, or when it is to return to `ret_from_intr` anyway
(`doFork_frameKept_iff`).

Of the page it clears the first 88 bytes, the `task_struct`.  The `thread_struct` behind it is
filled field by field, without `fs` and `gs`, and both are loaded at the first switch to the task
(`switchLoads_forkMem`, `doFork_switchLoads_iff`).

A call for which there is no page does not fail: the null pointer is used as a page
(`doFork_not_failsCleanly`).

Each of the statements compares memory before and after one call, or two calls on memories that
differ in the page only, so none depends on what a fresh page would hold.  A page that is not fresh,
of a task that has ended, is a page like any other here: the code has no `free` that would clear it.

## The order of the results

`forkMem_read` is the frame of the fork: a word outside of what it writes is read as before.  The
three parts of the file use it for different words, those of the caller's frame, those of the new
`thread_struct` that nothing fills, and, for a fork without a page, none.  An `iff` about two
memories has a direction that needs a second memory: it is the first one with another word in the
place that is not written.
-/

namespace OSLib
namespace Task

open Memory Lib

variable {sym : Symbol → BitVec 64} {m m' : Mem} {cur tsk rsp regs x : BitVec 64} {A : Block}
  {k k' : Kernel} {s s' : MemState} {p p' : ℕ} {cloneFlags stackStart stackLen : BitVec 64}

/-! ## Without a page -/

/-- A call of `do_fork` that fails cleanly: it returns something else than the 0 of a successful
fork, and the kernel is as it was. -/
def FailsCleanly (k : Kernel) (r : ForkResult) : Prop := ∃ v, v ≠ 0 ∧ r = .returns v k

/-- A fork with a page returns 0. -/
theorem doFork_pages (hp : forkPages k.alloc = .pages p s) :
    doFork sym k rsp regs cloneFlags stackStart stackLen =
      .returns 0 ⟨s, forkMem sym k.mem rsp regs (phyToVirt (s.pages p).phyAddr)⟩ := by
  rw [doFork, hp]

/-- **A fork without a page never fails cleanly.**  The null pointer is followed: that faults, or,
while low memory is mapped, the word at address 8 is taken for the address of the page. -/
theorem doFork_not_failsCleanly (hp : forkPages k.alloc = .null) :
    ¬ FailsCleanly k (doFork sym k rsp regs cloneFlags stackStart stackLen) := by
  rintro ⟨v, hv, hr⟩
  rw [doFork, hp] at hr
  simp only at hr
  split at hr
  · injection hr with h0 _
    exact hv h0.symm
  · cases hr

/-- A kernel whose PC has no free page left. -/
def fullKernel : Kernel where
  alloc := { pcState with
    bits := fun _ => -1
    zones := fun z => { pcState.zones z with pageFreeCnt := 0 } }
  mem := beforeFork.mem

/-- The call returned the null pointer. -/
def isNull : AllocResult → Bool
  | .null => true
  | .pages _ _ => false
  | .fault => false
  | .hang => false

theorem forkPages_fullKernel : forkPages fullKernel.alloc = .null := by
  have h : isNull (forkPages fullKernel.alloc) = true := by decide +kernel
  cases hr : forkPages fullKernel.alloc with
  | null => rfl
  | pages p s => rw [hr] at h; cases h
  | fault => rw [hr] at h; cases h
  | hang => rw [hr] at h; cases h

theorem fullKernel_not_failsCleanly : ¬ FailsCleanly fullKernel
    (doFork linked fullKernel 0xffff800000127e00 0xffff800000127e40 7 0 0) :=
  doFork_not_failsCleanly forkPages_fullKernel

/-- **A null pointer is followed.**  With low memory unmapped the fork faults. -/
theorem fullKernel_faults : forkPages fullKernel.alloc = .null ∧
    doFork linked fullKernel 0xffff800000127e00 0xffff800000127e40 7 0 0 = .fault ∧
    ¬ FailsCleanly fullKernel
      (doFork linked fullKernel 0xffff800000127e00 0xffff800000127e40 7 0 0) := by
  have hlow : fullKernel.alloc.lowMapped = false := by decide +kernel
  have hfault : doFork linked fullKernel 0xffff800000127e00 0xffff800000127e40 7 0 0 = .fault := by
    rw [doFork, forkPages_fullKernel]
    simp only [hlow]
    rfl
  refine ⟨forkPages_fullKernel, hfault, ?_⟩
  rintro ⟨v, -, hr⟩
  rw [hfault] at hr
  cases hr

/-! ## What is written -/

/-- The block is neither in the fresh page nor in the two list nodes a fork writes to. -/
structure Untouched (sym : Symbol → BitVec 64) (m : Mem) (tsk : BitVec 64) (A : Block) : Prop where
  page : A.Apart (taskUnion tsk)
  first : A.Apart (node (sym .initTaskUnion))
  last : A.Apart (node (m.read (sym .initTaskUnion)))

/-- A field of the new `thread_struct`. -/
theorem taskUnion_thread (tsk : BitVec 64) (f : Field) :
    (taskUnion tsk).Has (tsk + taskSize + BitVec.ofNat 64 f.off) 8 :=
  (Block.has_self tsk (by decide)).trans (pcb_thread tsk f)

/-- What keeps away from a task's memory keeps away from its stack. -/
theorem apart_stackOf (h : A.Apart (taskUnion tsk)) : A.Apart (stackOf tsk) :=
  h.of_part (taskUnion_stackOf tsk) (by decide)

/-- The copy of the registers and the `thread_struct` are behind the new `task_struct`. -/
theorem within_forkThread : Mem.Within (stackOf tsk) m (forkThread m regs tsk) := by
  have hframe : (stackOf tsk).Has (tsk + stackSize - ptRegsSize) (8 * 24) := by
    rw [stackOf, stackSize, ptRegsSize, taskSize, Block.Has]
    bv_omega
  have hthread (f : Field) : (stackOf tsk).Has (tsk + taskSize + BitVec.ofNat 64 f.off) 8 := by
    cases f <;> exact Block.has_offset _ (by decide)
  exact (((Mem.within_copy hframe).trans (Mem.within_write (hthread .rsp0))).trans
    (Mem.within_write (hthread .rip))).trans (Mem.within_write (hthread .rsp))

theorem forked_read (hf : Fresh sym m (getCurrent rsp) tsk) (hA : Untouched sym m tsk A)
    (hx : A.Has x 8) : (forked sym m rsp regs tsk).read x = m.read x := by
  rw [forked, within_forkThread.read (apart_stackOf hA.page) hx]
  exact forkTask_read_of_apart hf (apart_taskPart hA.page) hA.first hA.last hx

/-- **What a fork writes**: words of the page, of the two list nodes, and, in a task that is not a
kernel task, the `rip` of the caller's frame. -/
theorem forkMem_read (hf : Fresh sym m (getCurrent rsp) tsk) (hA : Untouched sym m tsk A)
    (hx : A.Has x 8)
    (hrip : IsKthread m (getCurrent rsp) ∨ Mem.Apart (regs + PtReg.rip.off) x) :
    (forkMem sym m rsp regs tsk).read x = m.read x := by
  have hstate (m : Mem) : (m.write (tsk + TaskField.state.off) taskRunning).read x = m.read x :=
    (Mem.within_write (taskUnion_field tsk .state)).read hA.page hx
  by_cases hk : IsKthread m (getCurrent rsp)
  · rw [forkMem_of_kthread hf hk, hstate]
    exact forked_read hf hA hx
  · rw [forkMem_of_not_kthread hf hk, hstate,
      (Mem.within_write (taskUnion_thread tsk .rip)).read hA.page hx,
      Mem.read_write_of_apart (hrip.resolve_left hk)]
    exact forked_read hf hA hx

/-! ## The caller's frame and the running task -/

/-- The registers at an address. -/
def ptRegsAt (regs : BitVec 64) : Block := ⟨regs, 192⟩

theorem PtReg.ctorIdx_lt (r : PtReg) : r.ctorIdx < 24 := by cases r <;> decide

theorem ptRegsAt_word (regs : BitVec 64) {j : ℕ} (hj : j < 24) :
    (ptRegsAt regs).Has (regs + BitVec.ofNat 64 (8 * j)) 8 :=
  Block.has_offset regs (by omega)

theorem ptRegsAt_has (regs : BitVec 64) (r : PtReg) : (ptRegsAt regs).Has (regs + r.off) 8 :=
  ptRegsAt_word regs r.ctorIdx_lt

/-- Of the page the last branch changes the state and the `rip` of the new task. -/
theorem forkMem_read_page (hf : Fresh sym m (getCurrent rsp) tsk)
    (hframe : (ptRegsAt regs).Apart (taskUnion tsk)) (hx : (taskUnion tsk).Has x 8)
    (hstate : Mem.Apart (tsk + TaskField.state.off) x)
    (hrip : Mem.Apart (tsk + taskSize + BitVec.ofNat 64 Field.rip.off) x) :
    (forkMem sym m rsp regs tsk).read x = (forked sym m rsp regs tsk).read x := by
  by_cases hk : IsKthread m (getCurrent rsp)
  · rw [forkMem_of_kthread hf hk, Mem.read_write_of_apart hstate]
  · have hregs : Mem.Apart (regs + PtReg.rip.off) x :=
      hframe.words (ptRegsAt_has regs .rip) hx
    rw [forkMem_of_not_kthread hf hk, Mem.read_write_of_apart hstate,
      Mem.read_write_of_apart hrip, Mem.read_write_of_apart hregs]

/-- The `thread_struct` of a task. -/
def threadAt (m : Mem) (tsk : BitVec 64) : Block := ⟨m.read (tsk + TaskField.thread.off), 64⟩

/-- The page is fresh, and the caller's frame, the fields of the running task and its
`thread_struct` are neither in the page nor in the list nodes, and the frame is apart from the other
two. -/
structure ForkScene (sym : Symbol → BitVec 64) (m : Mem) (cur regs tsk : BitVec 64) : Prop
    extends Fresh sym m cur tsk where
  frame : Untouched sym m tsk (ptRegsAt regs)
  fields : Untouched sym m tsk (taskBody cur)
  thread : Untouched sym m tsk (threadAt m cur)
  frameFields : (ptRegsAt regs).Apart (taskBody cur)
  frameThread : (ptRegsAt regs).Apart (threadAt m cur)

/-- What a fork should keep: the caller's frame, which the new task has a copy of at the end of its
stack, and all fields of the `task_struct` of the running task, the list node apart, and of its
`thread_struct`. -/
structure FrameKept (m m' : Mem) (cur regs tsk : BitVec 64) : Prop where
  frame : ∀ r : PtReg, m'.read (regs + r.off) = m.read (regs + r.off)
  saved : ∀ r : PtReg,
    m'.read (tsk + stackSize - ptRegsSize + r.off) = m'.read (regs + r.off)
  fields : ∀ j < 9, m'.read (cur + 16 + BitVec.ofNat 64 (8 * j)) =
    m.read (cur + 16 + BitVec.ofNat 64 (8 * j))
  thread : ∀ j < 8, m'.read ((threadAt m cur).addr + BitVec.ofNat 64 (8 * j)) =
    m.read ((threadAt m cur).addr + BitVec.ofNat 64 (8 * j))

theorem taskBody_has (cur : BitVec 64) {j : ℕ} (hj : j < 9) :
    (taskBody cur).Has (cur + 16 + BitVec.ofNat 64 (8 * j)) 8 :=
  Block.has_offset (cur + 16) (by omega)

theorem threadAt_has (m : Mem) (cur : BitVec 64) {j : ℕ} (hj : j < 8) :
    (threadAt m cur).Has ((threadAt m cur).addr + BitVec.ofNat 64 (8 * j)) 8 :=
  Block.has_offset _ (by omega)

/-- The other registers share no byte with `rip`. -/
theorem rip_apart (regs : BitVec 64) {r : PtReg} (hr : r ≠ .rip) :
    Mem.Apart (regs + PtReg.rip.off) (regs + r.off) := by
  have hlt := r.ctorIdx_lt
  have hidx : r.ctorIdx ≠ 19 := by
    cases r <;> first | exact absurd rfl hr | decide
  have hrip : PtReg.rip.off = 152 := rfl
  rw [hrip, PtReg.off, Mem.Apart]
  constructor <;> bv_omega

/-- The new task has the caller's registers on its stack, whatever is patched. -/
theorem forkMem_saved (hf : Fresh sym m (getCurrent rsp) tsk)
    (hframe : Untouched sym m tsk (ptRegsAt regs)) {j : ℕ} (hj : j < 24) :
    (forkMem sym m rsp regs tsk).read (tsk + stackSize - ptRegsSize + BitVec.ofNat 64 (8 * j)) =
      m.read (regs + BitVec.ofNat 64 (8 * j)) := by
  have hslot : (savedFrame tsk).Has
      (tsk + stackSize - ptRegsSize + BitVec.ofNat 64 (8 * j)) 8 :=
    Block.has_offset _ (by omega)
  have hunion : (taskUnion tsk).Has
      (tsk + stackSize - ptRegsSize + BitVec.ofNat 64 (8 * j)) 8 := by
    rw [taskUnion, stackSize, ptRegsSize, Block.Has]
    bv_omega
  have hapart {y : BitVec 64} (hy : (pcb tsk).Has y 8) :
      Mem.Apart y (tsk + stackSize - ptRegsSize + BitVec.ofNat 64 (8 * j)) :=
    (savedFrame_apart tsk).symm.words hy hslot
  rw [forkMem_read_page hf hframe.page hunion (hapart (pcb_field tsk .state))
    (hapart (pcb_thread tsk .rip))]
  -- the copy is made after the new `task_struct`, which leaves the frame alone
  have hlen : ((forkTask sym m rsp tsk).words regs 24).length = 24 := by simp [Mem.words]
  have hp := prepared_forkThread hframe.page (Mem.stackAt_words _ regs 24) hlen
    (Block.has_self regs (Nat.le_refl 192))
  rw [forked, Mem.stackAt_iff.mp hp.image j (hlen ▸ hj)]
  simp only [Mem.words, List.getElem_map, List.getElem_range]
  exact forkTask_read_of_apart hf (apart_taskPart hframe.page) hframe.first hframe.last
    (ptRegsAt_word regs hj)

/-- In a task that is not a kernel task the caller's frame is patched. -/
theorem forkMem_rip (hs : ForkScene sym m (getCurrent rsp) regs tsk)
    (hk : ¬ IsKthread m (getCurrent rsp)) :
    (forkMem sym m rsp regs tsk).read (regs + PtReg.rip.off) = sym .retFromIntr := by
  have hslot := ptRegsAt_has regs .rip
  rw [forkMem_of_not_kthread hs.toFresh hk,
    (Mem.within_write (taskUnion_field tsk .state)).read hs.frame.page hslot,
    (Mem.within_write (taskUnion_thread tsk .rip)).read hs.frame.page hslot, Mem.read_write_self]

/-- **When a fork keeps the frame and the running task.** -/
theorem forkMem_frameKept_iff (hs : ForkScene sym m (getCurrent rsp) regs tsk) :
    FrameKept m (forkMem sym m rsp regs tsk) (getCurrent rsp) regs tsk ↔
      IsKthread m (getCurrent rsp) ∨ m.read (regs + PtReg.rip.off) = sym .retFromIntr := by
  have hf := hs.toFresh
  constructor
  · intro h
    by_contra hno
    obtain ⟨hk, hret⟩ := not_or.mp hno
    exact hret ((h.frame .rip).symm.trans (forkMem_rip hs hk))
  · intro hor
    have hframe (r : PtReg) :
        (forkMem sym m rsp regs tsk).read (regs + r.off) = m.read (regs + r.off) := by
      by_cases hk : IsKthread m (getCurrent rsp)
      · exact forkMem_read hf hs.frame (ptRegsAt_has regs r) (.inl hk)
      · by_cases hr : r = .rip
        · rw [hr, forkMem_rip hs hk]
          exact (hor.resolve_left hk).symm
        · exact forkMem_read hf hs.frame (ptRegsAt_has regs r) (.inr (rip_apart regs hr))
    refine ⟨hframe, fun r =>
      (forkMem_saved hf hs.frame r.ctorIdx_lt).trans (hframe r).symm, fun j hj => ?_,
      fun j hj => ?_⟩
    · exact forkMem_read hf hs.fields (taskBody_has _ hj)
        (.inr (hs.frameFields.words (ptRegsAt_has regs .rip) (taskBody_has _ hj)))
    · exact forkMem_read hf hs.thread (threadAt_has m _ hj)
        (.inr (hs.frameThread.words (ptRegsAt_has regs .rip) (threadAt_has m _ hj)))

/-- **The effect of a fork on its caller.**  A fork that gets a page returns 0, and it keeps the
caller's frame and the running task exactly when that is a kernel task or the frame was to return to
`ret_from_intr` anyway. -/
theorem doFork_frameKept_iff (cloneFlags stackStart stackLen : BitVec 64)
    (hp : forkPages k.alloc = .pages p s)
    (hs : ForkScene sym k.mem (getCurrent rsp) regs (phyToVirt (s.pages p).phyAddr)) :
    ∃ m, doFork sym k rsp regs cloneFlags stackStart stackLen = .returns 0 ⟨s, m⟩ ∧
      (FrameKept k.mem m (getCurrent rsp) regs (phyToVirt (s.pages p).phyAddr) ↔
        k.mem.read (getCurrent rsp + TaskField.flags.off) &&& pfKthread ≠ 0 ∨
          k.mem.read (regs + PtReg.rip.off) = sym .retFromIntr) :=
  ⟨_, doFork_pages hp, forkMem_frameKept_iff hs⟩

/-- A kernel with one task, alone in the ring, and with zeros in the rest of its memory. -/
theorem linked_scene (hring : m.read 0xffff800000120000 = 0xffff800000120000)
    (hthread : m.read 0xffff800000120028 = 0) :
    ForkScene linked m (getCurrent 0xffff800000127e00) 0xffff800000127e40 0xffff800000200000 := by
  have hcur : getCurrent 0xffff800000127e00 = 0xffff800000120000 := by decide
  have hfirst : m.read (linked .initTaskUnion) = 0xffff800000120000 := hring
  have hthr : threadAt m 0xffff800000120000 = ⟨0, 64⟩ := congrArg (Block.mk · 64) hthread
  rw [hcur]
  constructor
  · constructor <;> first | rw [hfirst] | skip
    all_goals decide
  · constructor <;> first | rw [hfirst] | skip
    all_goals decide
  · constructor <;> first | rw [hfirst] | skip
    all_goals decide
  · constructor <;> first | rw [hfirst] | skip
    all_goals
      rw [hthr]
      decide
  · decide
  · rw [hthr]
    decide

/-- The first fork of the kernel keeps the frame of `kernel_thread`. -/
theorem beforeFork_frameKept : ∃ s m,
    doFork linked beforeFork 0xffff800000127e00 0xffff800000127e40 7 0 0 = .returns 0 ⟨s, m⟩ ∧
    FrameKept beforeFork.mem m (getCurrent 0xffff800000127e00) 0xffff800000127e40
      0xffff800000200000 := by
  obtain ⟨s, hs, htsk⟩ := forkPages_pcState
  have hscene := linked_scene (m := beforeFork.mem) (by decide +kernel) (by decide +kernel)
  rw [← htsk] at hscene
  obtain ⟨m, hm, hiff⟩ := doFork_frameKept_iff (k := beforeFork) 7 0 0 hs hscene
  rw [htsk] at hiff
  exact ⟨s, m, hm, hiff.mpr (.inl (by decide +kernel))⟩

/-- The same kernel when its task is not a kernel task. -/
def userFork : Kernel where
  alloc := pcState
  mem := listInit (fun _ => 0) 0xffff800000120000

/-- **A patched frame.**  The fork of a task that is not a kernel task changes the `rip` its caller
will return to. -/
theorem userFork_not_frameKept : ∃ s m,
    doFork linked userFork 0xffff800000127e00 0xffff800000127e40 7 0 0 = .returns 0 ⟨s, m⟩ ∧
    ForkScene linked userFork.mem (getCurrent 0xffff800000127e00) 0xffff800000127e40
      0xffff800000200000 ∧
    ¬ FrameKept userFork.mem m (getCurrent 0xffff800000127e00) 0xffff800000127e40
      0xffff800000200000 := by
  obtain ⟨s, hs, htsk⟩ := forkPages_pcState
  have hscene := linked_scene (m := userFork.mem) (by decide +kernel) (by decide +kernel)
  refine ⟨s, _, doFork_pages hs, hscene, fun hkept => ?_⟩
  rw [htsk] at hkept
  exact absurd ((forkMem_frameKept_iff hscene).mp hkept) (by decide +kernel)

/-! ## What the first switch loads -/

/-- What `switch_to` and `__switch_to` load when a task runs for the first time: the fields of its
`thread_struct`, and the registers its stack pointer points to. -/
def switchLoads (m : Mem) (tsk : BitVec 64) : List (BitVec 64) :=
  let thd := m.read (tsk + TaskField.thread.off)
  [Field.rsp, .rip, .rsp0, .fs, .gs].map (fun f => m.read (thd + BitVec.ofNat 64 f.off)) ++
    m.words (m.read (thd + BitVec.ofNat 64 Field.rsp.off)) 24

/-- The 2 MiB page of a task. -/
def pageOf (tsk : BitVec 64) : Block := ⟨tsk, 0x200000⟩

/-- The page at `tsk` is fresh: neither the running task nor the caller's frame nor one of the list
nodes a fork writes to is in it. -/
structure FreshPage (sym : Symbol → BitVec 64) (m : Mem) (cur regs tsk : BitVec 64) : Prop where
  current : (taskUnion cur).Apart (pageOf tsk)
  frame : (ptRegsAt regs).Apart (pageOf tsk)
  first : (node (sym .initTaskUnion)).Apart (pageOf tsk)
  last : (node (m.read (sym .initTaskUnion))).Apart (pageOf tsk)
  stackFirst : (stackOf cur).Apart (node (sym .initTaskUnion))
  stackLast : (stackOf cur).Apart (node (m.read (sym .initTaskUnion)))
  frameFirst : (ptRegsAt regs).Apart (node (sym .initTaskUnion))
  frameLast : (ptRegsAt regs).Apart (node (m.read (sym .initTaskUnion)))

theorem apart_taskUnion (h : A.Apart (pageOf tsk)) : A.Apart (taskUnion tsk) :=
  h.of_part (Block.has_self tsk (by decide)) (by decide)

theorem FreshPage.fresh (h : FreshPage sym m cur regs tsk) : Fresh sym m cur tsk where
  current := apart_taskUnion h.current
  first := (apart_taskUnion h.first).symm
  last := (apart_taskUnion h.last).symm
  stackFirst := h.stackFirst
  stackLast := h.stackLast

theorem FreshPage.untouched (h : FreshPage sym m cur regs tsk) :
    Untouched sym m tsk (ptRegsAt regs) :=
  ⟨apart_taskUnion h.frame, h.frameFirst, h.frameLast⟩

/-- The words of the page that hold `fs` and `gs` of the new task. -/
def segments (tsk : BitVec 64) : Block := ⟨tsk + taskSize + 24, 16⟩

theorem segments_has (tsk : BitVec 64) {f : Field} (hf : f = .fs ∨ f = .gs) :
    (segments tsk).Has (tsk + taskSize + BitVec.ofNat 64 f.off) 8 := by
  rw [segments, taskSize, Block.Has]
  rcases hf with rfl | rfl <;> simp only [Field.off] <;> bv_omega

/-- **A fork does not write `fs` and `gs`** of the new task. -/
theorem forkMem_segments (hf : Fresh sym m (getCurrent rsp) tsk)
    (hframe : Untouched sym m tsk (ptRegsAt regs)) {f : Field} (hfs : f = .fs ∨ f = .gs) :
    (forkMem sym m rsp regs tsk).read (tsk + taskSize + BitVec.ofNat 64 f.off) =
      m.read (tsk + taskSize + BitVec.ofNat 64 f.off) := by
  have hslot := segments_has tsk hfs
  have hunion : (taskUnion tsk).Has (segments tsk).addr 16 := by
    rw [taskUnion, segments, taskSize, Block.Has]
    bv_omega
  have hpart : (segments tsk).Apart (taskPart tsk) := by
    rw [segments, taskPart, taskSize, Block.Apart]
    constructor <;> simp only <;> bv_omega
  have hsaved : (segments tsk).Apart (savedFrame tsk) := by
    rw [segments, savedFrame, taskSize, stackSize, ptRegsSize, Block.Apart]
    constructor <;> simp only <;> bv_omega
  have hthread {g : Field} (hg : g = .rsp0 ∨ g = .rip ∨ g = .rsp) :
      Mem.Apart (tsk + taskSize + BitVec.ofNat 64 g.off)
        (tsk + taskSize + BitVec.ofNat 64 f.off) := by
    rw [taskSize, Mem.Apart]
    rcases hg with rfl | rfl | rfl <;> rcases hfs with rfl | rfl <;> simp only [Field.off] <;>
      bv_omega
  have hcopy : (savedFrame tsk).Has (tsk + stackSize - ptRegsSize) (8 * 24) :=
    Block.has_self _ (by decide)
  rw [forkMem_read_page hf hframe.page (taskUnion_thread tsk f)
      (thread_apart_field tsk f .state).symm (hthread (.inr (.inl rfl))),
    forked, forkThread, Mem.read_write_of_apart (hthread (.inr (.inr rfl))),
    Mem.read_write_of_apart (hthread (.inr (.inl rfl))),
    Mem.read_write_of_apart (hthread (.inl rfl)), (Mem.within_copy hcopy).read hsaved hslot]
  exact forkTask_read_of_apart hf hpart (hf.first.part hunion (by decide))
    (hf.last.part hunion (by decide)) hslot

/-- Two fields of a `thread_struct` share no byte. -/
theorem thread_apart (tsk : BitVec 64) {f g : Field} (hne : f ≠ g) :
    Mem.Apart (tsk + taskSize + BitVec.ofNat 64 f.off)
      (tsk + taskSize + BitVec.ofNat 64 g.off) := by
  rw [taskSize, Mem.Apart]
  cases f <;> cases g <;> first | exact absurd rfl hne | (simp only [Field.off]; bv_omega)

/-- The `rip` the new task starts at. -/
def forkRip (sym : Symbol → BitVec 64) (m : Mem) (cur regs : BitVec 64) : BitVec 64 :=
  if m.read (cur + TaskField.flags.off) &&& pfKthread = 0 then sym .retFromIntr
  else m.read (regs + PtReg.rip.off)

/-- The `thread_struct` of the new task, `fs` and `gs` apart, and the pointer to it. -/
theorem forkMem_thread (hf : Fresh sym m (getCurrent rsp) tsk)
    (hframe : Untouched sym m tsk (ptRegsAt regs)) :
    (forkMem sym m rsp regs tsk).read (tsk + TaskField.thread.off) = tsk + taskSize ∧
    (forkMem sym m rsp regs tsk).read (tsk + taskSize + BitVec.ofNat 64 Field.rsp0.off) =
      tsk + stackSize ∧
    (forkMem sym m rsp regs tsk).read (tsk + taskSize + BitVec.ofNat 64 Field.rsp.off) =
      tsk + stackSize - ptRegsSize ∧
    (forkMem sym m rsp regs tsk).read (tsk + taskSize + BitVec.ofNat 64 Field.rip.off) =
      forkRip sym m (getCurrent rsp) regs := by
  have hlen : ((forkTask sym m rsp tsk).words regs 24).length = 24 := by simp [Mem.words]
  have hp := prepared_forkThread hframe.page (Mem.stackAt_words _ regs 24) hlen
    (Block.has_self regs (Nat.le_refl 192))
  refine ⟨?_, ?_, ?_, ?_⟩
  · rw [forkMem_read_page hf hframe.page (taskUnion_field tsk .thread)
        (TaskField.apart tsk (by simp)) (thread_apart_field tsk .rip .thread),
      forked, forkThread_field]
    exact Mem.read_write_self
  · rw [forkMem_read_page hf hframe.page (taskUnion_thread tsk .rsp0)
        (thread_apart_field tsk .rsp0 .state).symm (thread_apart tsk (by decide)),
      forked, forkThread, Mem.read_write_of_apart (thread_apart tsk (by decide)),
      Mem.read_write_of_apart (thread_apart tsk (by decide)), Mem.read_write_self]
  · rw [forkMem_read_page hf hframe.page (taskUnion_thread tsk .rsp)
        (thread_apart_field tsk .rsp .state).symm (thread_apart tsk (by decide))]
    exact hp.rsp
  · by_cases hk : IsKthread m (getCurrent rsp)
    · rw [forkMem_of_kthread hf hk,
        Mem.read_write_of_apart (thread_apart_field tsk .rip .state).symm, forked, hp.rip, forkRip,
        if_neg hk]
      exact forkTask_read_of_apart hf (apart_taskPart hframe.page) hframe.first hframe.last
        (ptRegsAt_has regs .rip)
    · rw [forkMem_of_not_kthread hf hk,
        Mem.read_write_of_apart (thread_apart_field tsk .rip .state).symm, Mem.read_write_self,
        forkRip, if_pos (not_not.mp hk)]

/-- **What the first switch to a forked task loads.** -/
theorem switchLoads_forkMem (hf : Fresh sym m (getCurrent rsp) tsk)
    (hframe : Untouched sym m tsk (ptRegsAt regs)) :
    switchLoads (forkMem sym m rsp regs tsk) tsk =
      [tsk + stackSize - ptRegsSize, forkRip sym m (getCurrent rsp) regs, tsk + stackSize,
        m.read (tsk + taskSize + BitVec.ofNat 64 Field.fs.off),
        m.read (tsk + taskSize + BitVec.ofNat 64 Field.gs.off)] ++ m.words regs 24 := by
  obtain ⟨hthread, hrsp0, hrsp, hrip⟩ := forkMem_thread hf hframe
  have hwords : (forkMem sym m rsp regs tsk).words (tsk + stackSize - ptRegsSize) 24 =
      m.words regs 24 := by
    exact List.map_congr_left fun j hj => forkMem_saved hf hframe (List.mem_range.mp hj)
  rw [switchLoads, hthread]
  simp only [List.map_cons, List.map_nil]
  rw [hrsp0, hrsp, hrip, hwords, forkMem_segments hf hframe (.inl rfl),
    forkMem_segments hf hframe (.inr rfl)]

/-! ## Two runs -/

/-- A page is fresh whatever it holds. -/
theorem FreshPage.of_within (h : FreshPage sym m cur regs tsk)
    (hm : Mem.Within (pageOf tsk) m m') : FreshPage sym m' cur regs tsk := by
  have hlast : m'.read (sym .initTaskUnion) = m.read (sym .initTaskUnion) :=
    hm.read h.first (node_has _).1
  refine ⟨h.current, h.frame, h.first, ?_, h.stackFirst, ?_, h.frameFirst, ?_⟩ <;> rw [hlast]
  · exact h.last
  · exact h.stackLast
  · exact h.frameLast

/-- Of the old contents of the page only `fs` and `gs` are loaded. -/
theorem switchLoads_eq_iff (hf : FreshPage sym m (getCurrent rsp) regs tsk)
    (hm : Mem.Within (pageOf tsk) m m') :
    switchLoads (forkMem sym m rsp regs tsk) tsk = switchLoads (forkMem sym m' rsp regs tsk) tsk ↔
      ∀ f, f = Field.fs ∨ f = .gs →
        m'.read (tsk + taskSize + BitVec.ofNat 64 f.off) =
          m.read (tsk + taskSize + BitVec.ofNat 64 f.off) := by
  have hf' := hf.of_within hm
  have hflags : m'.read (getCurrent rsp + TaskField.flags.off) =
      m.read (getCurrent rsp + TaskField.flags.off) :=
    hm.read hf.current (taskUnion_field _ .flags)
  have hwords : m'.words regs 24 = m.words regs 24 :=
    List.map_congr_left fun j hj => hm.read hf.frame (ptRegsAt_word regs (List.mem_range.mp hj))
  have hrip : forkRip sym m' (getCurrent rsp) regs = forkRip sym m (getCurrent rsp) regs := by
    rw [forkRip, forkRip, hflags, hm.read hf.frame (ptRegsAt_has regs .rip)]
  rw [switchLoads_forkMem hf.fresh hf.untouched, switchLoads_forkMem hf'.fresh hf'.untouched, hrip,
    hwords, List.append_left_inj]
  simp only [List.cons.injEq, true_and, and_true]
  constructor
  · rintro ⟨hfs, hgs⟩ f (rfl | rfl)
    · exact hfs.symm
    · exact hgs.symm
  · exact fun h => ⟨(h .fs (.inl rfl)).symm, (h .gs (.inr rfl)).symm⟩

/-- **When a forked task does not depend on what its page held.**  Two forks with the same caller,
frame and page return 0, and the first switch to the new task loads the same in both runs exactly
when the words of the page that lie where `fs` and `gs` of the `thread_struct` will be were the
same. -/
theorem doFork_switchLoads_iff (cloneFlags stackStart stackLen : BitVec 64)
    (hp : forkPages k.alloc = .pages p s) (hp' : forkPages k'.alloc = .pages p' s')
    (htsk : phyToVirt (s.pages p).phyAddr = tsk) (htsk' : phyToVirt (s'.pages p').phyAddr = tsk)
    (hf : FreshPage sym k.mem (getCurrent rsp) regs tsk)
    (hm : Mem.Within (pageOf tsk) k.mem k'.mem) :
    ∃ m m', doFork sym k rsp regs cloneFlags stackStart stackLen = .returns 0 ⟨s, m⟩ ∧
      doFork sym k' rsp regs cloneFlags stackStart stackLen = .returns 0 ⟨s', m'⟩ ∧
      (switchLoads m tsk = switchLoads m' tsk ↔ ∀ f, f = Field.fs ∨ f = .gs →
        k'.mem.read (tsk + taskSize + BitVec.ofNat 64 f.off) =
          k.mem.read (tsk + taskSize + BitVec.ofNat 64 f.off)) := by
  refine ⟨_, _, doFork_pages hp, doFork_pages hp', ?_⟩
  rw [htsk, htsk']
  exact switchLoads_eq_iff hf hm

/-- The kernel before its first fork, with a word of old data somewhere in page 1. -/
def staleFork (a : BitVec 64) : Kernel := { beforeFork with mem := beforeFork.mem.write a 0x10 }

theorem freshPage_beforeFork : FreshPage linked beforeFork.mem (getCurrent 0xffff800000127e00)
    0xffff800000127e40 0xffff800000200000 := by
  have hcur : getCurrent 0xffff800000127e00 = 0xffff800000120000 := by decide
  have hring : beforeFork.mem.read (linked .initTaskUnion) = 0xffff800000120000 := by
    decide +kernel
  constructor <;> first | rw [hring, hcur] | rw [hring] | rw [hcur] | skip
  all_goals decide

/-- Old data on the new stack does not matter. -/
theorem staleFork_stack : ∃ s m m',
    doFork linked beforeFork 0xffff800000127e00 0xffff800000127e40 7 0 0 = .returns 0 ⟨s, m⟩ ∧
    doFork linked (staleFork 0xffff800000201000) 0xffff800000127e00 0xffff800000127e40 7 0 0 =
      .returns 0 ⟨s, m'⟩ ∧
    switchLoads m 0xffff800000200000 = switchLoads m' 0xffff800000200000 := by
  obtain ⟨s, hs, htsk⟩ := forkPages_pcState
  have hwithin : Mem.Within (pageOf 0xffff800000200000) beforeFork.mem
      (staleFork 0xffff800000201000).mem := Mem.within_write (by decide)
  have hs' : forkPages (staleFork 0xffff800000201000).alloc = .pages 1 s := hs
  obtain ⟨m, m', hm, hm', hiff⟩ := doFork_switchLoads_iff (k := beforeFork) 7 0 0 hs hs' htsk htsk
    freshPage_beforeFork hwithin
  refine ⟨s, m, m', hm, hm', hiff.mpr ?_⟩
  rintro f (rfl | rfl) <;> decide +kernel

/-- **A new task with stale segments.**  The word at `fs` is loaded as the page held it. -/
theorem staleFork_segments : ∃ s m m',
    doFork linked beforeFork 0xffff800000127e00 0xffff800000127e40 7 0 0 = .returns 0 ⟨s, m⟩ ∧
    doFork linked (staleFork 0xffff800000200070) 0xffff800000127e00 0xffff800000127e40 7 0 0 =
      .returns 0 ⟨s, m'⟩ ∧
    Mem.Within (pageOf 0xffff800000200000) beforeFork.mem (staleFork 0xffff800000200070).mem ∧
    switchLoads m 0xffff800000200000 ≠ switchLoads m' 0xffff800000200000 := by
  obtain ⟨s, hs, htsk⟩ := forkPages_pcState
  have hwithin : Mem.Within (pageOf 0xffff800000200000) beforeFork.mem
      (staleFork 0xffff800000200070).mem := Mem.within_write (by decide)
  refine ⟨s, _, _, doFork_pages hs, doFork_pages hs, hwithin, ?_⟩
  rw [htsk]
  intro heq
  have hfs := (switchLoads_eq_iff freshPage_beforeFork hwithin).mp heq .fs (.inl rfl)
  exact absurd hfs (by decide +kernel)

end Task
end OSLib
