import OSLib.Foundation.Runs
import OSLib.Task.ForkEffects

/-!
# The ring of tasks

`task_init` makes a ring of the list node of `init_task`, and every fork links the new task in
before that node, whichever task of the ring makes it.  The list node of a task is at the start of
its `task_struct`, so that the address of the one is the address of the other.

The state is the kernel and the list of the tasks it has forked, in order; a step is a fork or other
code of the kernel.  The invariant `InRing` says that the tasks share no memory, that they are
linked in that order, and that all of them are kernel tasks, like the first one, of whose flags they
have a copy.  So no fork patches the frame of its caller, and what a step does to the ring is one
call of `list_add_to_before` (`ring_forkMem`).

Other code of the kernel may write anywhere except to the links, the flags and the pids of the
tasks; it is what the kernel consists of, so nothing smaller would do.  The pages of the forks are
asked to share no byte with the tasks there are, which is what the allocator is for: `Isolation`
shows it of `alloc_pages` under the conditions it needs.
-/

namespace OSLib
namespace Task

open Memory Lib

/-! ## Forks one after another -/

/-- The kernel, and the tasks it has forked, in order. -/
structure Tasks where
  kernel : Kernel
  forked : List (BitVec 64)

/-- The tasks of the ring. -/
def Tasks.all (sym : Symbol → BitVec 64) (s : Tasks) : List (BitVec 64) :=
  sym .initTaskUnion :: s.forked

/-- What happens in a step. -/
inductive ForkEvent where
  /-- A task calls `do_fork`, with the stack pointer `rsp` in its frame. -/
  | fork (rsp regs cloneFlags stackStart stackLen : BitVec 64)
  /-- Other code runs. -/
  | code

/-- The words of a `task_struct` that only `do_fork` writes are as before: the links, the flags and
the pid. -/
structure KeepsTask (m m' : Mem) (a : BitVec 64) : Prop where
  next : listNext m' a = listNext m a
  prev : listPrev m' a = listPrev m a
  flags : m'.read (a + TaskField.flags.off) = m.read (a + TaskField.flags.off)
  pid : m'.read (a + TaskField.pid.off) = m.read (a + TaskField.pid.off)

/-- A call of `do_fork` by a task of the ring that obtains a page which no task of the ring has
memory in; and other code, which may do what it likes to the allocator and to the rest of memory. -/
def ForkStep (sym : Symbol → BitVec 64) (s : Tasks) (e : ForkEvent) (t : Tasks) : Prop :=
  match e with
  | .fork rsp regs cloneFlags stackStart stackLen =>
    getCurrent rsp ∈ s.all sym ∧ ∃ p a tsk, forkPages s.kernel.alloc = .pages p a ∧
      phyToVirt (a.pages p).phyAddr = tsk ∧
      (∀ b ∈ s.all sym, (taskUnion b).Apart (taskUnion tsk)) ∧
      doFork sym s.kernel rsp regs cloneFlags stackStart stackLen = .returns 0 t.kernel ∧
      t.forked = s.forked ++ [tsk]
  | .code => t.forked = s.forked ∧ ∀ a ∈ s.all sym, KeepsTask s.kernel.mem t.kernel.mem a

/-- The kernel when `task_init` has made its ring: `init_task` alone, with the flags and the pid of
`INIT_TASK`. -/
structure Booted (sym : Symbol → BitVec 64) (s : Tasks) : Prop where
  alone : s.forked = []
  listInit : ∃ m, s.kernel.mem = listInit m (sym .initTaskUnion)
  flags : s.kernel.mem.read (sym .initTaskUnion + TaskField.flags.off) = pfKthread
  pid : s.kernel.mem.read (sym .initTaskUnion + TaskField.pid.off) = 0

/-- The tasks share no memory, are linked in the order of their forks, and are kernel tasks. -/
structure InRing (sym : Symbol → BitVec 64) (s : Tasks) : Prop where
  apart : (s.all sym).Pairwise fun a b => (taskUnion a).Apart (taskUnion b)
  ring : Ring (listNext s.kernel.mem) (listPrev s.kernel.mem) (sym .initTaskUnion) s.forked
  flags : ∀ a ∈ s.all sym, s.kernel.mem.read (a + TaskField.flags.off) = pfKthread

variable {sym : Symbol → BitVec 64} {m m' : Mem} {rsp regs tsk a b : BitVec 64} {s t : Tasks}
  {e : ForkEvent} {tr : List (ForkEvent × Tasks)} {A : Block}

theorem all_concat {l : List (BitVec 64)} (h : t.forked = l ++ [tsk]) :
    t.all sym = (sym .initTaskUnion :: l) ++ [tsk] := by
  rw [Tasks.all, h, List.cons_append]

/-! ## Blocks of a task -/

/-- The list node of a task is part of its memory. -/
theorem apart_node (h : A.Apart (taskUnion a)) : A.Apart (node a) :=
  h.of_part (Block.has_self a (by decide)) (by decide)

theorem apart_taskBody (h : A.Apart (taskUnion a)) : A.Apart (taskBody a) :=
  h.of_part (taskUnion_taskBody a) (by decide)

theorem stackOf_apart_node (a : BitVec 64) : (stackOf a).Apart (node a) := by
  rw [stackOf, node, taskSize, Block.Apart]
  constructor <;> simp only <;> bv_omega

/-- Two tasks of the ring. -/
theorem InRing.apart_of_mem (h : InRing sym s) (ha : a ∈ s.all sym) (hb : b ∈ s.all sym)
    (hne : a ≠ b) : (taskUnion a).Apart (taskUnion b) := by
  have : Std.Symm fun a b => (taskUnion a).Apart (taskUnion b) := ⟨fun _ _ h => h.symm⟩
  exact h.apart.forall ha hb hne

/-- The stack and the fields of a task of the ring are apart from all list nodes. -/
theorem InRing.stack_apart (h : InRing sym s) (ha : a ∈ s.all sym) (hb : b ∈ s.all sym) :
    (stackOf a).Apart (node b) := by
  by_cases hab : a = b
  · rw [hab]
    exact stackOf_apart_node b
  · exact (apart_node (h.apart_of_mem ha hb hab)).part (taskUnion_stackOf a) (by decide)

theorem InRing.body_apart (h : InRing sym s) (ha : a ∈ s.all sym) (hb : b ∈ s.all sym) :
    (taskBody a).Apart (node b) := by
  by_cases hab : a = b
  · rw [hab]
    exact taskBody_apart b
  · exact (apart_node (h.apart_of_mem ha hb hab)).part (taskUnion_taskBody a) (by decide)

/-! ## One fork -/

/-- **A page of its own is fresh** in the sense of a fork. -/
theorem InRing.fresh (h : InRing sym s) (hcur : getCurrent rsp ∈ s.all sym)
    (hnew : ∀ b ∈ s.all sym, (taskUnion b).Apart (taskUnion tsk)) :
    Fresh sym s.kernel.mem (getCurrent rsp) tsk where
  current := hnew _ hcur
  first := apart_node (hnew _ List.mem_cons_self).symm
  last := apart_node (hnew _ h.ring.prev_head_mem).symm
  stackFirst := h.stack_apart hcur List.mem_cons_self
  stackLast := h.stack_apart hcur h.ring.prev_head_mem

/-- The fields of a task of the ring are not touched. -/
theorem InRing.untouched (h : InRing sym s) (ha : a ∈ s.all sym)
    (hnew : ∀ b ∈ s.all sym, (taskUnion b).Apart (taskUnion tsk)) :
    Untouched sym s.kernel.mem tsk (taskBody a) where
  page := (hnew a ha).part (taskUnion_taskBody a) (by decide)
  first := h.body_apart ha List.mem_cons_self
  last := h.body_apart ha h.ring.prev_head_mem

/-- After the link into the ring a fork writes to the new task behind its list node, and, in a task
that is not a kernel task, to the caller's frame. -/
theorem forkMem_read_linked (hf : Fresh sym m (getCurrent rsp) tsk)
    (hk : IsKthread m (getCurrent rsp)) (hbody : A.Apart (taskBody tsk))
    (hstack : A.Apart (stackOf tsk)) {x : BitVec 64} (hx : A.Has x 8) :
    (forkMem sym m rsp regs tsk).read x =
      (listAddToBefore (forkCopy m rsp tsk) (sym .initTaskUnion) tsk).read x := by
  obtain ⟨pid, hfork⟩ := forkTask_eq sym m rsp tsk
  rw [forkMem_of_kthread hf hk, (Mem.within_write (taskBody_field tsk .state)).read hbody hx,
    forked, within_forkThread.read hstack hx, hfork,
    (Mem.within_write (taskBody_field tsk .thread)).read hbody hx,
    (Mem.within_write (taskBody_field tsk .state)).read hbody hx,
    (Mem.within_write (taskBody_field tsk .pid)).read hbody hx]

/-- The fields of the new task, its state apart, are those it was made with. -/
theorem forkMem_field (hf : Fresh sym m (getCurrent rsp) tsk) (hk : IsKthread m (getCurrent rsp))
    {f : TaskField} (hne : f ≠ .state) :
    (forkMem sym m rsp regs tsk).read (tsk + f.off) =
      (forkTask sym m rsp tsk).read (tsk + f.off) := by
  rw [forkMem_of_kthread hf hk, Mem.read_write_of_apart (TaskField.apart tsk hne.symm), forked,
    forkThread_field]

theorem InRing.isKthread (h : InRing sym s) (ha : a ∈ s.all sym) : IsKthread s.kernel.mem a := by
  rw [IsKthread, h.flags a ha]
  decide

/-- The nodes of the ring are apart from each other. -/
theorem InRing.nodes (h : InRing sym s) :
    (s.all sym).Pairwise fun a b => (node a).Apart (node b) :=
  h.apart.imp fun hab => (apart_node (apart_node hab).symm).symm

/-- **The ring after a fork**: the new task is the last one. -/
theorem InRing.ring_forkMem (h : InRing sym s) (hcur : getCurrent rsp ∈ s.all sym)
    (hnew : ∀ b ∈ s.all sym, (taskUnion b).Apart (taskUnion tsk)) :
    Ring (listNext (forkMem sym s.kernel.mem rsp regs tsk))
      (listPrev (forkMem sym s.kernel.mem rsp regs tsk)) (sym .initTaskUnion)
      (s.forked ++ [tsk]) := by
  have hf := h.fresh hcur hnew
  have hk := h.isKthread hcur
  have hunion (b : BitVec 64) (hb : b ∈ s.all sym) : (node b).Apart (taskUnion tsk) :=
    (apart_node (hnew b hb).symm).symm
  -- the copy of the running task is not in the ring yet
  have hcopy : Ring (listNext (forkCopy s.kernel.mem rsp tsk))
      (listPrev (forkCopy s.kernel.mem rsp tsk)) (sym .initTaskUnion) s.forked := by
    refine h.ring.congr (fun a ha => ?_) fun a ha => ?_
    · exact within_forkCopy.read (apart_taskPart (hunion a ha)) (node_has a).2
    · exact within_forkCopy.read (apart_taskPart (hunion a ha)) (node_has a).1
  have hlink := ring_listAddToBefore hcopy h.nodes fun a ha => (apart_node (hunion a ha)).symm
  -- nothing is written to a list node afterwards
  have hbody (a : BitVec 64) (ha : a ∈ sym .initTaskUnion :: (s.forked ++ [tsk])) :
      (node a).Apart (taskBody tsk) ∧ (node a).Apart (stackOf tsk) := by
    rw [← List.cons_append, List.mem_append, List.mem_singleton] at ha
    rcases ha with ha | rfl
    · exact ⟨apart_taskBody (hunion a ha), apart_stackOf (hunion a ha)⟩
    · exact ⟨(taskBody_apart a).symm, (stackOf_apart_node a).symm⟩
  refine hlink.congr (fun a ha => ?_) fun a ha => ?_
  · exact forkMem_read_linked hf hk (hbody a ha).1 (hbody a ha).2 (node_has a).2
  · exact forkMem_read_linked hf hk (hbody a ha).1 (hbody a ha).2 (node_has a).1

/-- **What a fork in the ring does** to the flags and the pids: those of the old tasks are kept, and
the new one has the flags of its parent and the next pid. -/
structure Forks (m m' : Mem) (old : List (BitVec 64)) (cur tsk : BitVec 64) : Prop where
  flags : ∀ a ∈ old, m'.read (a + TaskField.flags.off) = m.read (a + TaskField.flags.off)
  pid : ∀ a ∈ old, m'.read (a + TaskField.pid.off) = m.read (a + TaskField.pid.off)
  newFlags : m'.read (tsk + TaskField.flags.off) = m.read (cur + TaskField.flags.off)
  newPid : m'.read (tsk + TaskField.pid.off) = m.read (cur + TaskField.pid.off) + 1

theorem InRing.forks_forkMem (h : InRing sym s) (hcur : getCurrent rsp ∈ s.all sym)
    (hnew : ∀ b ∈ s.all sym, (taskUnion b).Apart (taskUnion tsk)) :
    Forks s.kernel.mem (forkMem sym s.kernel.mem rsp regs tsk) (s.all sym) (getCurrent rsp)
      tsk := by
  have hf := h.fresh hcur hnew
  have hk := h.isKthread hcur
  have hold (f : TaskField) (a : BitVec 64) (ha : a ∈ s.all sym) :
      (forkMem sym s.kernel.mem rsp regs tsk).read (a + f.off) = s.kernel.mem.read (a + f.off) :=
    forkMem_read hf (h.untouched ha hnew) (taskBody_field a f) (.inl hk)
  refine ⟨hold .flags, hold .pid, ?_, ?_⟩
  · rw [forkMem_field hf hk (by simp), forkTask_flags hf]
  · rw [forkMem_field hf hk (by simp), forkTask_pid hf]

/-! ## The ring along a run -/

/-- A fork of the run. -/
theorem forkStep_fork {cloneFlags stackStart stackLen : BitVec 64} (h : InRing sym s)
    (hs : ForkStep sym s (.fork rsp regs cloneFlags stackStart stackLen) t) :
    ∃ tsk, t.forked = s.forked ++ [tsk] ∧ (∀ b ∈ s.all sym, (taskUnion b).Apart (taskUnion tsk)) ∧
      Ring (listNext t.kernel.mem) (listPrev t.kernel.mem) (sym .initTaskUnion) t.forked ∧
      Forks s.kernel.mem t.kernel.mem (s.all sym) (getCurrent rsp) tsk := by
  obtain ⟨hcur, p, a, tsk, hp, htsk, hnew, hfork, hforked⟩ := hs
  rw [doFork_pages hp, htsk] at hfork
  obtain ⟨-, hkernel⟩ := ForkResult.returns.inj hfork
  have hmem : t.kernel.mem = forkMem sym s.kernel.mem rsp regs tsk := by rw [← hkernel]
  rw [hforked, hmem]
  exact ⟨tsk, rfl, hnew, h.ring_forkMem hcur hnew, h.forks_forkMem hcur hnew⟩

/-- **Every step keeps the ring.** -/
theorem InRing.step (h : InRing sym s) (hs : ForkStep sym s e t) : InRing sym t := by
  cases e with
  | fork rsp regs cloneFlags stackStart stackLen =>
    obtain ⟨tsk, hforked, hnew, hring, hforks⟩ := forkStep_fork h hs
    have hall : t.all sym = s.all sym ++ [tsk] := all_concat hforked
    refine ⟨?_, hring, fun a ha => ?_⟩
    · rw [hall, List.pairwise_append]
      refine ⟨h.apart, List.pairwise_singleton _ _, fun a ha b hb => ?_⟩
      rw [List.mem_singleton.mp hb]
      exact hnew a ha
    · rw [hall, List.mem_append, List.mem_singleton] at ha
      rcases ha with ha | rfl
      · rw [hforks.flags a ha, h.flags a ha]
      · rw [hforks.newFlags, h.flags _ hs.1]
  | code =>
    obtain ⟨hforked, hkeeps⟩ := hs
    have hall : t.all sym = s.all sym := by rw [Tasks.all, hforked, Tasks.all]
    refine ⟨?_, ?_, fun a ha => ?_⟩
    · rw [hall]
      exact h.apart
    · rw [hforked]
      exact h.ring.congr (fun a ha => (hkeeps a ha).next) fun a ha => (hkeeps a ha).prev
    · rw [hall] at ha
      rw [(hkeeps a ha).flags, h.flags a ha]

theorem Booted.inRing (h : Booted sym s) : InRing sym s := by
  have hall : s.all sym = [sym .initTaskUnion] := by rw [Tasks.all, h.alone]
  refine ⟨?_, ?_, fun a ha => ?_⟩
  · rw [hall]
    exact List.pairwise_singleton _ _
  · obtain ⟨m, hm⟩ := h.listInit
    rw [h.alone, hm]
    exact ring_listInit m _
  · rw [hall, List.mem_singleton] at ha
    rw [ha, h.flags]

/-- Following `next` from `init_task` visits every task forked once, in the order of the forks, and
comes back; following `prev` visits them in the reverse order. -/
structure VisitsInOrder (sym : Symbol → BitVec 64) (s : Tasks) : Prop where
  once : (s.all sym).Nodup
  next : List.iterate (listNext s.kernel.mem)
      (listNext s.kernel.mem (sym .initTaskUnion)) s.forked.length = s.forked
  nextReturns : (listNext s.kernel.mem)^[s.forked.length + 1] (sym .initTaskUnion) =
    sym .initTaskUnion
  prev : List.iterate (listPrev s.kernel.mem)
      (listPrev s.kernel.mem (sym .initTaskUnion)) s.forked.length = s.forked.reverse
  prevReturns : (listPrev s.kernel.mem)^[s.forked.length + 1] (sym .initTaskUnion) =
    sym .initTaskUnion

theorem InRing.nodup (h : InRing sym s) : (s.all sym).Nodup :=
  h.apart.imp fun {a b} hapart hab => by
    have hle : 32768 ≤ (b - a).toNat := hapart.1
    rw [hab, BitVec.sub_self] at hle
    exact absurd hle (by decide)

theorem InRing.visitsInOrder (h : InRing sym s) : VisitsInOrder sym s := by
  obtain ⟨hnext, hnext'⟩ := h.ring.iterate
  obtain ⟨hprev, hprev'⟩ := h.ring.reverse.iterate
  rw [List.length_reverse] at hprev hprev'
  exact ⟨h.nodup, hnext, hnext', hprev, hprev'⟩

/-- **The ring is in the order of the forks.**  Whatever tasks of the ring fork, and whatever code
runs in between, the ring visits all tasks forked in order, and backwards in the reverse order. -/
theorem ring_visitsInOrder (h0 : Booted sym s) (hrun : Always (ForkStep sym) s tr) :
    VisitsInOrder sym (final s tr) :=
  InRing.visitsInOrder (Always.invariant_final (fun _ _ _ h hs => h.step hs) h0.inRing hrun)

/-! Two forks after the boot of a PC. -/

/-- The kernel when `task_init` has made its ring. -/
def booted : Tasks where
  kernel :=
    ⟨pcState, listInit (Mem.write (fun _ => 0) 0xffff800000120018 pfKthread) 0xffff800000120000⟩
  forked := []

theorem booted_linked : Booted linked booted where
  alone := rfl
  listInit := ⟨_, rfl⟩
  flags := by decide +kernel
  pid := by decide +kernel

/-- The page structs of a call and of the one after it, with the addresses of pages 1 and 2. -/
def pagesTwo : AllocResult → Option (ℕ × BitVec 64 × ℕ × BitVec 64)
  | .pages p s => match forkPages s with
    | .pages q u => some (p, phyToVirt (s.pages 1).phyAddr, q, phyToVirt (u.pages 2).phyAddr)
    | _ => none
  | _ => none

theorem forkPages_twice : ∃ s u,
    forkPages pcState = .pages 1 s ∧ phyToVirt (s.pages 1).phyAddr = 0xffff800000200000 ∧
    forkPages s = .pages 2 u ∧ phyToVirt (u.pages 2).phyAddr = 0xffff800000400000 := by
  have h : pagesTwo (forkPages pcState) =
      some (1, 0xffff800000200000, 2, 0xffff800000400000) := by decide +kernel
  obtain ⟨s, hs, -⟩ := forkPages_pcState
  rw [hs, pagesTwo] at h
  cases hu : forkPages s with
  | pages q u =>
    rw [hu] at h
    obtain ⟨-, haddr, rfl, haddr'⟩ := by simpa only [Option.some.injEq, Prod.mk.injEq] using h
    exact ⟨s, u, hs, haddr, hu, haddr'⟩
  | null => rw [hu] at h; cases h
  | fault => rw [hu] at h; cases h
  | hang => rw [hu] at h; cases h

/-- The first task forks, and then it or the new task does. -/
theorem two_forks (rsp rsp' regs regs' : BitVec 64)
    (h : getCurrent rsp = 0xffff800000120000)
    (h' : getCurrent rsp' ∈ [0xffff800000120000, (0xffff800000200000 : BitVec 64)]) :
    ∃ t u, Always (ForkStep linked) booted
        [(.fork rsp regs 7 0 0, t), (.fork rsp' regs' 7 0 0, u)] ∧
      t.forked = [0xffff800000200000] ∧
      u.forked = [0xffff800000200000, 0xffff800000400000] := by
  obtain ⟨a, a', hp, htsk, hp', htsk'⟩ := forkPages_twice
  obtain ⟨t, ht⟩ : ∃ t : Tasks, t = ⟨⟨a, forkMem linked booted.kernel.mem rsp regs
    0xffff800000200000⟩, [0xffff800000200000]⟩ := ⟨_, rfl⟩
  obtain ⟨u, hu⟩ : ∃ u : Tasks, u = ⟨⟨a', forkMem linked t.kernel.mem rsp' regs'
    0xffff800000400000⟩, [0xffff800000200000, 0xffff800000400000]⟩ := ⟨_, rfl⟩
  have hall : t.all linked = [0xffff800000120000, 0xffff800000200000] := by
    rw [Tasks.all, ht, linked]
  refine ⟨t, u, ⟨⟨?_, 1, a, _, hp, htsk, ?_, ?_, ?_⟩, ⟨?_, 2, a', _, ?_, htsk', ?_, ?_, ?_⟩,
    trivial⟩, by rw [ht], by rw [hu]⟩
  · rw [h]
    exact List.mem_cons_self
  · intro b hb
    rw [List.mem_singleton.mp hb]
    decide
  · rw [doFork_pages hp, htsk, ht]
  · rw [ht]
    rfl
  · rw [hall]
    exact h'
  · rw [ht]
    exact hp'
  · intro b hb
    rw [hall, List.mem_pair] at hb
    rcases hb with rfl | rfl <;> decide
  · have halloc : forkPages t.kernel.alloc = .pages 2 a' := by rw [ht]; exact hp'
    rw [doFork_pages halloc, htsk', hu]
  · rw [hu, ht]
    rfl

/-- A chain of two forks. -/
theorem booted_visitsInOrder : ∃ t u, Booted linked booted ∧
    Always (ForkStep linked) booted [(.fork 0xffff800000127e00 0xffff800000127e40 7 0 0, t),
      (.fork 0xffff800000207e00 0xffff800000207e40 7 0 0, u)] ∧
    u.forked = [0xffff800000200000, 0xffff800000400000] ∧ VisitsInOrder linked u := by
  obtain ⟨t, u, hrun, -, hforked⟩ := two_forks 0xffff800000127e00
    0xffff800000207e00 0xffff800000127e40 0xffff800000207e40 (by decide) (by decide)
  exact ⟨t, u, booted_linked, hrun, hforked, ring_visitsInOrder booted_linked hrun⟩

end Task
end OSLib
