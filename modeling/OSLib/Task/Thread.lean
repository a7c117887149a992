import OSLib.Foundation.StackMachine
import OSLib.Task.Fork
import OSLib.Task.Resume

/-!
# Starting a kernel thread

`kernel_thread(fn, arg, flags)` forks a task that is to start in `kernel_thread_func`, with a
`struct pt_regs` on its stack.  The first `switch_to` to the task takes over its stack pointer and
returns to that label.  The code there pops the structure, which leaves the stack empty, calls `fn`
with `arg`, and calls `do_exit` with what `fn` returns.

Between the fork and the first switch the other tasks run and switch to each other.  They leave the
new task alone, and so do the switches (`read_of_step`): a switch writes to the blocks of the two
tasks it is about, and to the TSS.

The path of the thread runs through three texts: the end of the assembly block of `switch_to` with
the return address that the fork has stored, `kernel_thread_func`, and `fn`, of which only the
calling convention is known.  They are joined at addresses and not by construction, so that the
statement is about the words that are really on the stack.
-/

namespace OSLib
namespace Task

open X86 Memory Lib

/-! ## The code of a thread -/

/-- `kernel_thread_func`, up to the call of the function. -/
def kernelThreadFunc : List (Instr Symbol) :=
  [.pop .r15, .pop .r14, .pop .r13, .pop .r12, .pop .r11, .pop .r10, .pop .r9, .pop .r8, .pop .rbx,
   .pop .rcx, .pop .rdx, .pop .rsi, .pop .rdi, .pop .rbp, .pop .rax, .movToSeg .rax .ds, .pop .rax,
   .movToSeg .rax .es, .pop .rax, .add 0x38 .rsp, .mov .rdx .rdi, .callReg .rbx .fnNext]

/-- The text of `kernel_thread_func`. -/
def threadText : Listing Symbol :=
  [(.kernelThreadFunc, kernelThreadFunc), (.fnNext, [.mov .rax .rdi, .call .doExit .exitNext])]

/-- A function called by the code returns to the label behind the call: the stack pointer is where
it was, with the return address on top. -/
structure ReturnsTo (sym : Symbol → BitVec 64) (t u : Cpu) : Prop where
  rsp : u.gpr .rsp = t.gpr .rsp
  rip : u.mem.read (u.gpr .rsp) = sym .fnNext

/-- From `kernel_thread_func` on, the task calls `fn` with its argument in `rdi`, the kernel's data
segment in `ds` and `es` and nothing on its stack but the return address; and when `fn` returns, it
calls `do_exit` with the value returned. -/
def RunsThread (sym : Symbol → BitVec 64) (tsk fn arg : BitVec 64) (s : Cpu) : Prop :=
  ∃ t, Leaves sym threadText.code .kernelThreadFunc s (.enters fn t) ∧ t.gpr .rdi = arg ∧
    t.seg .ds = kernelDs.setWidth 16 ∧ t.seg .es = kernelDs.setWidth 16 ∧
    t.gpr .rsp + 8 = tsk + stackSize ∧ t.mem.read (t.gpr .rsp) = sym .fnNext ∧
    ∀ u, ReturnsTo sym t u → ∃ v w, Instr.ret.step sym u = .enter (sym .fnNext) v ∧
      Leaves sym threadText.code .fnNext v (.enters (sym .doExit) w) ∧
      w.gpr .rdi = u.gpr .rax

variable {sym : Symbol → BitVec 64} {tsk fn arg : BitVec 64}

/-- The code on the stack machine: 17 words are popped and 7 dropped. -/
theorem run_kernelThreadFunc (sym : Symbol → BitVec 64) (fn arg : BitVec 64) (g : Regs) :
    ∃ b, run (StackCpu.step sym) sym threadText.code 30 [.jmp .kernelThreadFunc]
        ⟨g, threadWords sym fn arg⟩ = some (.enters fn b) ∧ b.gpr .rdi = arg ∧
      b.seg .ds = kernelDs.setWidth 16 ∧ b.seg .es = kernelDs.setWidth 16 ∧
      b.stk = [sym .fnNext] ∧ b.gpr .rsp + 8 = g.gpr .rsp + 192 := by
  refine ⟨_, rfl, rfl, rfl, rfl, rfl, ?_⟩
  show g.gpr .rsp + 8 + 8 + 8 + 8 + 8 + 8 + 8 + 8 + 8 + 8 + 8 + 8 + 8 + 8 + 8 + 8 + 8 + 0x38 - 8 +
    8 = g.gpr .rsp + 192
  bv_omega

/-- **What a thread does with its registers on the stack.** -/
theorem runsThread_of_stackAt {s : Cpu} (hsp : s.gpr .rsp = tsk + stackSize - ptRegsSize)
    (hws : s.mem.StackAt (s.gpr .rsp) (threadWords sym fn arg)) : RunsThread sym tsk fn arg s := by
  obtain ⟨b, hb, hrdi, hds, hes, hstk, hrsp⟩ := run_kernelThreadFunc sym fn arg s.toRegs
  obtain ⟨y, hy, hrel⟩ := StackCpu.leaves_of_run ⟨rfl, hws⟩ hb
  cases hrel with
  | @enters _ _ t ht =>
    refine ⟨t, hy, ?_, ?_, ?_, ?_, ?_, fun u hu => ⟨u.drop 8, _, ?_, ⟨3, rfl⟩, ?_⟩⟩
    · rw [ht.gpr, hrdi]
    · rw [ht.1, hds]
    · rw [ht.1, hes]
    · rw [ht.gpr, hrsp, hsp]
      unfold ptRegsSize
      bv_omega
    · have htop := ht.2
      rw [hstk] at htop
      rw [ht.gpr]
      exact htop.1
    · rw [Instr.step, Cpu.top_zero, hu.rip]
    · rfl

/-! ## The blocks of a forked task -/

variable {T : Type} {L : Layout T} {child τ prev next : T} {rip x : BitVec 64}
  {ws : List (BitVec 64)} {m m' : Mem} {k : Area T}

/-- The blocks of the task `child` are those of a task forked at `tsk`. -/
structure Layout.Forked (L : Layout T) (child : T) (tsk : BitVec 64) : Prop where
  task : L.task child = tsk
  thread : L.block (.thread child) = ⟨tsk + taskSize, 64⟩
  stack : L.block (.stack child) = ⟨tsk + taskSize + 64, 32616⟩

/-- A block of a task. -/
def Area.Of (τ : T) (k : Area T) : Prop := k = .thread τ ∨ k = .stack τ

theorem Layout.Forked.field (hL : L.Forked child tsk) (f : Field) :
    L.field child f = tsk + taskSize + BitVec.ofNat 64 f.off := by
  rw [Layout.field, hL.thread]

/-- A word of the registers on the stack. -/
theorem Layout.Forked.frame (hL : L.Forked child tsk) {j : ℕ} (hj : j < 24) :
    (L.block (.stack child)).Has
      (tsk + stackSize - ptRegsSize + BitVec.ofNat 64 (8 * j)) 8 := by
  rw [hL.stack]
  unfold Block.Has stackSize ptRegsSize taskSize
  simp only
  bv_omega

/-- The blocks of the task lie in its page. -/
theorem Layout.Forked.union (hL : L.Forked child tsk) (hk : Area.Of child k)
    (hx : (L.block k).Has x 1) : (taskUnion tsk).Has x 1 := by
  rcases hk with rfl | rfl
  · have hthread : (taskUnion tsk).Has (tsk + taskSize) 64 := Block.has_offset tsk (by decide)
    rw [hL.thread] at hx
    exact hthread.trans hx
  · have hstack : (stackOf tsk).Has (tsk + taskSize + 64) 32616 :=
      Block.has_offset (tsk + taskSize) (by decide)
    rw [hL.stack] at hx
    exact ((taskUnion_stackOf tsk).trans hstack).trans hx

/-- What the task starts with is in its blocks. -/
theorem Prepared.of_read (h : Prepared m tsk rip ws) (hlen : ws.length = 24)
    (hL : L.Forked child tsk)
    (hread : ∀ k x, Area.Of child k → (L.block k).Has x 8 → m'.read x = m.read x) :
    Prepared m' tsk rip ws := by
  refine ⟨?_, ?_, Mem.stackAt_iff.mpr fun j hj => ?_⟩
  · rw [← h.rip, ← hL.field]
    exact hread _ _ (.inl rfl) (L.field_has child .rip)
  · rw [← h.rsp, ← hL.field]
    exact hread _ _ (.inl rfl) (L.field_has child .rsp)
  · rw [← Mem.stackAt_iff.mp h.image j hj]
    exact hread _ _ (.inr rfl) (hL.frame (hlen ▸ hj))

/-! ## Switches between other tasks -/

/-- The word lies above the stack pointer of the task that is to run, if it is on its stack. -/
def Above (next : T) (nsp : BitVec 64) (k : Area T) (x : BitVec 64) : Prop :=
  k = .stack next → (x - nsp).toNat < 2 ^ 63

/-- A switch changes no word of another task than the calling one, except below the stack pointer of
the task that is to run. -/
theorem Passes.read {site : BitVec 64} {s a b : Cpu} {nsp : BitVec 64}
    (h : Passes L prev next site s a b nsp) (hroom : L.Room prev (s.gpr .rsp))
    (hslot : (L.block (.stack next)).Has (nsp - 8) 8) (hτ : τ ≠ prev) (hk : Area.Of τ k)
    (hx : (L.block k).Has x 8) (hup : Above next nsp k x) : b.mem.read x = s.mem.read x := by
  have hne : k ≠ .tss64Table ∧ k ≠ .initTss ∧ k ≠ .thread prev := by
    rcases hk with rfl | rfl
    · exact ⟨by simp, by simp, fun h => hτ (Area.thread.inj h)⟩
    · simp
  have hframe : b.mem.read x = (switchToBody L prev next a).mem.read x := by
    refine Mem.read_congr fun o ho => h.body_mem _ fun hin => ?_
    obtain ⟨hhas, hpos, hle⟩ := hin
    by_cases hks : k = .stack next
    · have hlt := hup hks
      bv_omega
    · exact (L.apart k (.stack next) hks).byte hx ho (by decide) hhas
  have hpush (v : BitVec 64) : ((asmMem L prev site s).write (nsp - 8) v).read x =
      (asmMem L prev site s).read x := by
    by_cases hks : k = .stack next
    · have hlt := hup hks
      refine Mem.read_write_of_apart ?_
      unfold Mem.Apart
      bv_omega
    · exact L.read_write (Ne.symm hks) hslot hx
  rw [hframe, read_switchToBody hne.1 hne.2.1 hne.2.2 hx, h.mem, hpush, asmMem_read hτ hroom hk hx]

/-! ## Up to the first switch -/

variable [DecidableEq T] {σ σ' : State T} {e : Event T} {site : BitVec 64}

/-- A step with which the task `child` has nothing to do: the running task goes on without a store
into its blocks, or it switches to another task. -/
def LeavesAlone (L : Layout T) (child : T) (σ : State T) (e : Event T) (σ' : State T) : Prop :=
  match e with
  | .code => ∀ k x, Area.Of child k → (L.block k).Has x 1 → σ'.cpu.mem x = σ.cpu.mem x
  | .switchTo next _ => next ≠ child

/-- **Such a step leaves the blocks of the task as they are.** -/
theorem read_of_step (hσ : Inv L σ) (h : Step L σ e σ') (hcur : σ.cur ≠ child)
    (ha : LeavesAlone L child σ e σ') :
    σ'.cur ≠ child ∧ ∀ k x, Area.Of child k → (L.block k).Has x 8 →
      σ'.cpu.mem.read x = σ.cpu.mem.read x := by
  cases e with
  | code =>
    obtain ⟨hcur', -, -⟩ := h
    refine ⟨hcur' ▸ hcur, fun k x hk hx => Mem.read_congr fun o ho => ha k _ hk ?_⟩
    exact hx.trans (Block.has_offset x (by omega))
  | switchTo next site =>
    obtain ⟨-, hroom, hfresh, hrdi, hrsi, entry, a, b, p, d, hrun, hfun, hret, hres, hcur', -⟩ := h
    obtain ⟨nsp, hab⟩ := passes_of_run hrdi hrsi hrun hfun
    have hslot : (L.block (.stack next)).Has (nsp - 8) 8 := by
      rw [hab.nsp_eq]
      exact hσ.slot hroom hfresh
    refine ⟨hcur' ▸ ha, fun k x hk hx => ?_⟩
    rw [hres.mem hret]
    refine hab.read hroom hslot (Ne.symm hcur) hk hx fun hks => ?_
    -- the word is not on the stack of the other task
    rcases hk with rfl | rfl
    · exact absurd hks (by simp)
    · exact absurd (Area.stack.inj hks).symm ha

/-- **The first switch to a task** takes it to the address it is to start at, with its registers on
its stack. -/
theorem starts_of_step (h : Step L σ (.switchTo child site) σ') (hcur : σ.cur ≠ child)
    (hL : L.Forked child tsk) (hp : Prepared σ.cpu.mem tsk rip ws) (hlen : ws.length = 24)
    (hrip : rip ∉ L.sites) :
    σ'.pos = .at rip ∧ σ'.cpu.gpr .rsp = tsk + stackSize - ptRegsSize ∧
      σ'.cpu.mem.StackAt (σ'.cpu.gpr .rsp) ws := by
  obtain ⟨-, hroom, -, hrdi, hrsi, entry, a, b, p, d, hrun, hfun, hret, hres, -, -⟩ := h
  obtain ⟨nsp, hab⟩ := passes_of_run hrdi hrsi hrun hfun
  have hread (f : Field) : (asmMem L σ.cur site σ.cpu).read (L.field child f) =
      σ.cpu.mem.read (L.field child f) :=
    asmMem_read (Ne.symm hcur) hroom (.inl rfl) (L.field_has child f)
  have hnsp : nsp = tsk + stackSize - ptRegsSize := by
    rw [hab.nsp_eq, hread, hL.field, hp.rsp]
  have hslot : (L.block (.stack child)).Has (nsp - 8) 8 := by
    rw [hL.stack, hnsp]
    unfold Block.Has stackSize ptRegsSize taskSize
    simp only
    bv_omega
  have hsp : b.gpr .rsp = nsp - 8 := by rw [hab.saved _ (by decide), hab.rsp]
  injection hret with hpop hd
  obtain rfl : p = rip := by
    rw [← hpop, Cpu.top_zero, hsp, hab.rip hslot, hread, hL.field, hp.rip]
  rcases hres with ⟨hin, -, -⟩ | ⟨-, hcpu, hpos⟩
  · exact absurd hin hrip
  have hsp' : σ'.cpu.gpr .rsp = nsp := by
    rw [hcpu, ← hd, Cpu.drop, Cpu.withRegs, Regs.gpr_set_self, hsp, BitVec.sub_add_cancel]
  refine ⟨hpos, hsp'.trans hnsp, Mem.stackAt_iff.mpr fun j hj => ?_⟩
  have hmem : σ'.cpu.mem = b.mem := by rw [hcpu, ← hd]; rfl
  rw [hmem, hsp', hab.read hroom hslot (Ne.symm hcur) (.inr rfl) (hnsp ▸ hL.frame (hlen ▸ hj)),
    hnsp, Mem.stackAt_iff.mp hp.image j hj]
  intro _
  bv_omega

/-- A state the kernel reaches from one in which no task is inside `switch_to`. -/
def Reachable (L : Layout T) (σ : State T) : Prop :=
  ∃ σ₀ tr, (∀ τ, σ₀.inside τ = none) ∧ Always (Step L) σ₀ tr ∧ final σ₀ tr = σ

theorem Reachable.inv (h : Reachable L σ) : Inv L σ := by
  obtain ⟨σ₀, tr, h0, hrun, rfl⟩ := h
  exact Always.invariant_final (fun _ _ _ hσ hs => hσ.step hs) (Inv.of_none h0) hrun

/-- **A kernel thread runs its function.**  In a kernel task, `kernel_thread(fn, arg, flags)`
returns 0 once it has a fresh page.  However the other tasks run and switch after that, the first
switch to the new task takes it to `kernel_thread_func`, and from there it calls `fn` with `arg` on
its empty stack, and `do_exit` with what `fn` returns. -/
theorem kernelThread_runs_fn {k : Kernel} {p : ℕ} {s : MemState} {rsp regs : BitVec 64}
    (fn arg flags : BitVec 64) (hp : forkPages k.alloc = .pages p s)
    (htsk : phyToVirt (s.pages p).phyAddr = tsk)
    (hf : Fresh sym k.mem (getCurrent rsp) tsk)
    (hflags : k.mem.read (getCurrent rsp + TaskField.flags.off) &&& pfKthread ≠ 0)
    (hregs : (stackOf (getCurrent rsp)).Has regs 192)
    (hL : L.Forked child tsk) (hsym : sym .kernelThreadFunc ∉ L.sites) :
    ∃ m, kernelThread sym k rsp regs fn arg flags = .returns 0 ⟨s, m⟩ ∧
      ∀ σ tr site σ', Reachable L σ → σ.cur ≠ child →
        (∀ x, (taskUnion tsk).Has x 1 → σ.cpu.mem x = m x) →
        Always (LeavesAlone L child) σ tr →
        Always (Step L) σ (tr ++ [(.switchTo child site, σ')]) →
        σ'.pos = .at (sym .kernelThreadFunc) ∧ RunsThread sym tsk fn arg σ'.cpu := by
  subst htsk
  obtain ⟨m, hm, hprep⟩ : ∃ m, kernelThread sym k rsp regs fn arg flags = .returns 0 ⟨s, m⟩ ∧
      Prepared m (phyToVirt (s.pages p).phyAddr) (sym .kernelThreadFunc)
        (threadWords sym fn arg) := kernelThread_prepared hp hf hflags hregs
  refine ⟨m, hm, fun σ tr site σ' hreach hcur hmem halone hrun => ?_⟩
  have hread₀ (k : Area T) (x : BitVec 64) (hk : Area.Of child k) (hx : (L.block k).Has x 8) :
      σ.cpu.mem.read x = m.read x := by
    refine Mem.read_congr fun o ho => hmem _ (hL.union hk ?_)
    exact hx.trans (Block.has_offset x (by omega))
  obtain ⟨htr, hlast, -⟩ := Always.append.mp hrun
  have hend := Always.invariant_final
    (P := fun σ => Inv L σ ∧ σ.cur ≠ child ∧
      Prepared σ.cpu.mem _ (sym .kernelThreadFunc) (threadWords sym fn arg))
    (fun σ e σ' hσ hs => ?_) ⟨hreach.inv, hcur, hprep.of_read rfl hL hread₀⟩ (htr.and halone)
  · obtain ⟨-, hcur', hprep'⟩ := hend
    obtain ⟨hpos, hsp, hws⟩ := starts_of_step hlast hcur' hL hprep' rfl hsym
    exact ⟨hpos, runsThread_of_stackAt hsp hws⟩
  · obtain ⟨hinv, hcur', hprep'⟩ := hσ
    obtain ⟨hne, hread⟩ := read_of_step hinv hs.1 hcur' hs.2
    exact ⟨hinv.step hs.1, hne, hprep'.of_read rfl hL hread⟩

/-! The thread that `task_init` starts. -/

/-- A linked kernel. -/
def linked : Symbol → BitVec 64
  | .initTaskUnion => 0xffff800000120000
  | .retFromIntr => 0xffff800000104001
  | .kernelThreadFunc => 0xffff800000109700
  | .fnNext => 0xffff800000109723
  | .doExit => 0xffff800000109680
  | .exitNext => 0xffff80000010972b

/-- The kernel before its first fork: one task, a kernel task, alone in the ring. -/
def beforeFork : Kernel where
  alloc := pcState
  mem := (listInit (fun _ => 0) 0xffff800000120000).write 0xffff800000120018 pfKthread

/-- The first task with the given memory, about to switch. -/
def firstWith (m : Mem) : State Bool := { firstRuns with cpu := { firstRuns.cpu with mem := m } }

/-- The page struct a call returns, and where page 1 lies afterwards. -/
def pageOne : AllocResult → Option (ℕ × BitVec 64)
  | .pages p s => some (p, phyToVirt (s.pages 1).phyAddr)
  | .null => none
  | .fault => none
  | .hang => none

theorem forkPages_pcState :
    ∃ s, forkPages pcState = .pages 1 s ∧ phyToVirt (s.pages 1).phyAddr = 0xffff800000200000 := by
  have h : pageOne (forkPages pcState) = some (1, 0xffff800000200000) := by decide +kernel
  cases hr : forkPages pcState with
  | pages p s =>
    rw [hr] at h
    obtain ⟨rfl, haddr⟩ := Prod.mk.inj (Option.some.inj h)
    exact ⟨s, rfl, haddr⟩
  | null => rw [hr] at h; cases h
  | fault => rw [hr] at h; cases h
  | hang => rw [hr] at h; cases h

/-- `kernel_thread(init, 10, CLONE_FS | CLONE_FILES | CLONE_SIGNAL)`, and the switch to the thread.
-/
theorem init_runs : ∃ s m,
    kernelThread linked beforeFork 0xffff800000127e00 0xffff800000127e40 0xffff800000109600 10 7 =
      .returns 0 ⟨s, m⟩ ∧
    RunsThread linked 0xffff800000200000 0xffff800000109600 10
      ((firstWith m).switch twoTasks true 0xffff800000109100).cpu := by
  obtain ⟨s, hs, htsk⟩ := forkPages_pcState
  have hcur : getCurrent 0xffff800000127e00 = 0xffff800000120000 := by decide
  have hring : beforeFork.mem.read (linked .initTaskUnion) = 0xffff800000120000 := by
    decide +kernel
  have hfresh : Fresh linked beforeFork.mem (getCurrent 0xffff800000127e00) 0xffff800000200000 := by
    refine ⟨?_, ?_, ?_, ?_, ?_⟩ <;> first | rw [hring, hcur] | rw [hring] | rw [hcur] | skip
    all_goals decide
  have hflags : beforeFork.mem.read (getCurrent 0xffff800000127e00 + TaskField.flags.off) &&&
      pfKthread ≠ 0 := by decide +kernel
  have hregs : (stackOf (getCurrent 0xffff800000127e00)).Has 0xffff800000127e40 192 := by decide
  have hL : twoTasks.Forked true 0xffff800000200000 := ⟨rfl, rfl, rfl⟩
  obtain ⟨m, hm, hruns⟩ := kernelThread_runs_fn 0xffff800000109600 10 7 hs htsk hfresh hflags hregs
    hL (by decide)
  -- the stack pointer the fork has set up has room below it
  have hrsp : m.read (twoTasks.field true .rsp) = 0xffff800000207f40 := by
    rw [← htsk] at hfresh
    obtain ⟨m', hm', hprep⟩ : ∃ m', kernelThread linked beforeFork 0xffff800000127e00
        0xffff800000127e40 0xffff800000109600 10 7 = .returns 0 ⟨s, m'⟩ ∧ _ :=
      kernelThread_prepared hs hfresh hflags hregs
    rw [hm] at hm'
    obtain ⟨-, hk⟩ := ForkResult.returns.inj hm'
    obtain ⟨-, rfl⟩ := Kernel.mk.inj hk
    rw [hL.field, ← htsk, hprep.rsp, htsk]
    decide
  have hstep : Step twoTasks (firstWith m) (.switchTo true 0xffff800000109100)
      ((firstWith m).switch twoTasks true 0xffff800000109100) := by
    have hroom : twoTasks.Room false 0xffff800000127f00 := by
      unfold Layout.Room
      decide
    refine step_switch (by decide) hroom (fun _ => ?_) rfl rfl
    show (twoTasks.block (.stack true)).Has (m.read (twoTasks.field true .rsp) - 8) 8
    rw [hrsp]
    decide
  have hreach : Reachable twoTasks (firstWith m) := ⟨firstWith m, [], fun _ => rfl, trivial, rfl⟩
  exact ⟨s, m, hm, (hruns (firstWith m) [] _ _ hreach Bool.false_ne_true (fun _ _ => rfl) trivial
    ⟨hstep, trivial⟩).2⟩

end Task
end OSLib
