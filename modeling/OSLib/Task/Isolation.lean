import OSLib.Memory.FirstWord
import OSLib.Memory.FreeCount
import OSLib.Memory.Layout
import OSLib.Memory.LowZone
import OSLib.Task.Ring

/-!
# Tasks that share no memory

A fork puts the new task at the start of a page from `alloc_pages`.  Other code calls `alloc_pages`
too.  This file puts the allocator and the ring of tasks together: the steps of a `System` are
forks, other calls of `alloc_pages` and other code, in any order, from the end of `init_memory` on.

The ledger of a system is the list of all pages that have been obtained.  `Owned` says that no page
is in it twice, that none of them is a page of the kernel, and that their bits are set: a page whose
bit is clear is in nobody's hands.  So as long as `alloc_pages` takes clear pages, no two tasks
share memory, and nobody else has obtained memory of a task (`Ledger.isolated`).  For the ring of
tasks this discharges what `ForkStep` assumes of the pages.

Memory is flat here: `doFork` reads and writes the memory of the kernel by virtual addresses, and
does not fault.  That is right where the addresses it uses are mapped to different places, and the
page directory of `head.sx` maps the pages 0 to 4 only; from page 5 on `Phy_To_Virt` leads to the
frame buffer, and further up to a page fault.  So the results are about a kernel that ends below
page 5, forks that take one of these pages, and registers on the stack of the task that forks; and
`Isolated.mapped` says that all tasks are where the page tables say.  Of other code it is assumed
that it leaves the links, the flags and the pids of the tasks alone.

The proofs are about the ledger and not about memory: a step appends to it what the step has
obtained, and that the new entries are new is what the bits say.  Memory comes in with one fact,
that a task lies in its page; the rest is arithmetic of pages.
-/

namespace OSLib
namespace Task

open Memory

/-! ## The system -/

/-- The kernel and its tasks, and the pages that other calls of `alloc_pages` have obtained. -/
structure System extends Tasks where
  given : List ℕ

/-- What happens in a step. -/
inductive KernelEvent where
  /-- A task calls `do_fork`. -/
  | fork (rsp regs cloneFlags stackStart stackLen : BitVec 64)
  /-- Other code calls `alloc_pages`, and obtains pages or not. -/
  | alloc (c : AllocCall) (page : Option ℕ)
  /-- Other code runs. -/
  | code

/-- The call of `alloc_pages` in `do_fork`. -/
def forkCall : AllocCall := ⟨zoneNormal, 1, pgPTableMaped ||| pgActive ||| pgKernel⟩

/-- The address of the task in a page. -/
def taskAt (p : ℕ) : BitVec 64 := phyToVirt (pageAddr p)

/-- The pages a call has obtained. -/
def obtained (c : AllocCall) (page : Option ℕ) : List ℕ := page.elim [] fun p => runFrom p c.count

/-- Other code leaves the `task_struct`s alone, except for what the tasks themselves change. -/
def KeepsTasks (sym : Symbol → BitVec 64) (s t : System) : Prop :=
  t.forked = s.forked ∧ ∀ a ∈ s.all sym, KeepsTask s.kernel.mem t.kernel.mem a

/-- A step.  A task of the ring that forks has the registers on its stack, as `kernel_thread` does;
nothing is assumed of the page that it obtains. -/
def KernelStep (sym : Symbol → BitVec 64) (s : System) (e : KernelEvent) (t : System) : Prop :=
  match e with
  | .fork rsp regs cloneFlags stackStart stackLen =>
    getCurrent rsp ∈ s.all sym ∧ (taskUnion (getCurrent rsp)).Has regs ptRegsSize.toNat ∧
      ∃ p, forkPages s.kernel.alloc = .pages p t.kernel.alloc ∧
      doFork sym s.kernel rsp regs cloneFlags stackStart stackLen = .returns 0 t.kernel ∧
      t.forked = s.forked ++ [phyToVirt (t.kernel.alloc.pages p).phyAddr] ∧ t.given = s.given
  | .alloc c page =>
    AllocStep s.kernel.alloc (c, page) t.kernel.alloc ∧ KeepsTasks sym s t ∧
      t.given = s.given ++ obtained c page
  | .code => t.kernel.alloc = s.kernel.alloc ∧ KeepsTasks sym s t ∧ t.given = s.given

/-- The call of `alloc_pages` in a step. -/
def KernelEvent.call : KernelEvent → Option AllocCall
  | .fork .. => some forkCall
  | .alloc c _ => some c
  | .code => none

/-- The step takes pages of the bitmap whose bits are clear. -/
def KernelEvent.TakesClear (s : System) (e : KernelEvent) : Prop :=
  ∀ c ∈ e.call, c.TakesClear s.kernel.alloc

/-- If it is a fork, it takes a page that is mapped. -/
def KernelEvent.ForksLow (s : System) : KernelEvent → Prop
  | .fork .. => forkCall.MovedRun (· < 5) s.kernel.alloc
  | .alloc .. => True
  | .code => True

/-- The memory of a task is where `Virt_To_Phy` says. -/
def TaskMapped (m : Paging.PhysMem) (a : BitVec 64) : Prop :=
  ∀ o < 32768, Paging.walk (bootMem m) bootCr3 (a + BitVec.ofNat 64 o) =
    some ((virtToPhy a).toNat + o)

variable {sym : Symbol → BitVec 64} {s t : System} {a a' : MemState} {e : KernelEvent} {b : Boot}
  {ps xs ys : List ℕ} {p q x last : ℕ} {c : AllocCall} {page : Option ℕ} {tsk : BitVec 64}

/-! ## The ledger -/

/-- The pages `xs` have been obtained behind page `last`: each of them once, and with its bit set.
-/
structure Owned (last : ℕ) (a : MemState) (xs : List ℕ) : Prop extends Marked a where
  nodup : xs.Nodup
  behind : ∀ x ∈ xs, last < x
  inside : ∀ x ∈ xs, x < a.desc.bitsSize
  set : ∀ x ∈ xs, a.bits.bit x = true
  kernel : ∀ x ≤ last, x < a.desc.bitsSize → a.bits.bit x = true

/-- The order of the ledger does not matter. -/
theorem Owned.perm (h : Owned last a xs) (hperm : ys.Perm xs) : Owned last a ys where
  toMarked := h.toMarked
  nodup := hperm.nodup_iff.mpr h.nodup
  behind x hx := h.behind x (hperm.mem_iff.mp hx)
  inside x hx := h.inside x (hperm.mem_iff.mp hx)
  set x hx := h.set x (hperm.mem_iff.mp hx)
  kernel := h.kernel

/-- After `init_memory` nothing is obtained. -/
theorem owned_initMemory (h : initMemory b = some a) : Owned (lastKernelPage a) a [] where
  toMarked := marked_initMemory h
  nodup := List.nodup_nil
  behind _ hx := absurd hx List.not_mem_nil
  inside _ hx := absurd hx List.not_mem_nil
  set _ hx := absurd hx List.not_mem_nil
  kernel _ hx hlt := initMemory_bit h hx hlt

/-- **One call of `alloc_pages`** that takes clear pages. -/
theorem Owned.alloc (h : Owned last a xs) (hs : AllocStep a (c, page) a')
    (hclear : c.TakesClear a) : Owned last a' (xs ++ obtained c page) := by
  have hdesc := hs.sameLayout.desc
  have hnew : ∀ x ∈ obtained c page,
      x < a.desc.bitsSize ∧ a.bits.bit x = false ∧ a'.bits.bit x = true := by
    intro x hx
    cases page with
    | none => exact absurd hx List.not_mem_nil
    | some p => exact hs.handed h.toMarked hclear rfl hx
  have hset : ∀ x, a.bits.bit x = true → a'.bits.bit x = true := fun _ hx => hs.bit_of_set hx
  refine ⟨hs.marked h.toMarked, ?_, fun x hx => ?_, fun x hx => ?_, fun x hx => ?_,
    fun x hx hlt => hset x (h.kernel x hx (hdesc ▸ hlt))⟩
  · rw [List.nodup_append]
    refine ⟨h.nodup, ?_, fun x hx y hy hxy => ?_⟩
    · cases page with
      | none => exact List.nodup_nil
      | some p => exact nodup_runFrom (BitVec.isLt _).le
    · subst hxy
      have hclear := (hnew x hy).2.1
      rw [h.set x hx] at hclear
      exact Bool.noConfusion hclear
  · rcases List.mem_append.mp hx with hx | hx
    · exact h.behind x hx
    · obtain ⟨hlt, hclear, -⟩ := hnew x hx
      by_contra hle
      rw [h.kernel x (Nat.le_of_not_lt hle) hlt] at hclear
      exact Bool.noConfusion hclear
  · rw [hdesc]
    rcases List.mem_append.mp hx with hx | hx
    · exact h.inside x hx
    · exact (hnew x hx).1
  · rcases List.mem_append.mp hx with hx | hx
    · exact hset x (h.set x hx)
    · exact (hnew x hx).2.2

/-! ## Pages and tasks -/

/-- The tasks of two pages share no byte. -/
theorem taskAt_apart (hp : p < 2 ^ 43) (hq : q < 2 ^ 43) (hne : p ≠ q) :
    (taskUnion (taskAt p)).Apart (taskUnion (taskAt q)) := by
  have hpa := toNat_pageAddr hp
  have hqa := toNat_pageAddr hq
  unfold Block.Apart taskUnion taskAt phyToVirt
  simp only
  generalize pageAddr p = u at hpa ⊢
  generalize pageAddr q = v at hqa ⊢
  bv_omega

/-- The kernel image, with the first task in it, ends in page `last` or before. -/
def ImageBelow (sym : Symbol → BitVec 64) (last : ℕ) : Prop :=
  (virtToPhy (sym .initTaskUnion)).toNat + 32768 ≤ (last + 1) * 2 ^ 21

/-- The task of a page behind the kernel shares no byte with the first task. -/
theorem ImageBelow.apart (h : ImageBelow sym last) (hlast : last < p) (hp : p < 2 ^ 43) :
    (taskUnion (sym .initTaskUnion)).Apart (taskUnion (taskAt p)) := by
  have hpa := toNat_pageAddr hp
  have hend : (virtToPhy (sym .initTaskUnion)).toNat + 32768 ≤ p * 2 ^ 21 :=
    h.trans (Nat.mul_le_mul_right _ hlast)
  have hsub : sym .initTaskUnion = virtToPhy (sym .initTaskUnion) + pageOffset := by
    rw [virtToPhy, BitVec.sub_add_cancel]
  unfold Block.Apart taskUnion taskAt phyToVirt
  simp only
  rw [hsub]
  generalize virtToPhy (sym .initTaskUnion) = u at hend ⊢
  generalize pageAddr p = v at hpa ⊢
  bv_omega

/-- The tasks of the pages that the page directory maps are mapped, -/
theorem taskMapped_taskAt {m : Paging.PhysMem} (hp : p < 5) : TaskMapped m (taskAt p) := by
  intro o ho
  have huse : Usable m (pageAddr p) := (usable_iff (by omega)).mpr hp
  have hphy : virtToPhy (taskAt p) = pageAddr p := by
    rw [virtToPhy, taskAt, phyToVirt, BitVec.add_sub_cancel]
  rw [hphy]
  exact huse o (by omega)

/-- and so is the first task. -/
theorem ImageBelow.taskMapped {m : Paging.PhysMem} (h : ImageBelow sym last) (hlast : last < 5) :
    TaskMapped m (sym .initTaskUnion) := by
  intro o ho
  have hend : (virtToPhy (sym .initTaskUnion)).toNat + 32768 ≤ (last + 1) * 2 ^ 21 := h
  generalize hphy : virtToPhy (sym .initTaskUnion) = phy at hend ⊢
  -- the page of the byte
  have hpage : (phy.toNat + o) / 2 ^ 21 < 5 := by omega
  have huse : Usable m (pageAddr ((phy.toNat + o) / 2 ^ 21)) := (usable_iff (by omega)).mpr hpage
  have haddr := toNat_pageAddr (show (phy.toNat + o) / 2 ^ 21 < 2 ^ 43 by omega)
  have hwalk := huse ((phy.toNat + o) % 2 ^ 21) (Nat.mod_lt _ (by decide))
  have hva : sym .initTaskUnion + BitVec.ofNat 64 o =
      phyToVirt (pageAddr ((phy.toNat + o) / 2 ^ 21)) +
        BitVec.ofNat 64 ((phy.toNat + o) % 2 ^ 21) := by
    have hsym : sym .initTaskUnion = phy + pageOffset := by
      rw [← hphy, virtToPhy, BitVec.sub_add_cancel]
    have hsplit := Nat.div_add_mod (phy.toNat + o) (2 ^ 21)
    rw [hsym, phyToVirt]
    generalize pageAddr ((phy.toNat + o) / 2 ^ 21) = u at haddr ⊢
    bv_omega
  rw [hva, hwalk, haddr]
  congr 1
  omega

/-- Where the linker has put the first task. -/
theorem imageBelow_of_layout (h : initMemory b = some a) (hlow : pageOffset ≤ sym .initTaskUnion)
    (hend : (sym .initTaskUnion).toNat + 32768 ≤ b.endBrk.toNat) (hfits : b.layoutEnd < 2 ^ 64) :
    ImageBelow sym (lastKernelPage a) := by
  obtain ⟨hbits, hpages, hzones, hends⟩ := (laidOut_iff h).mpr hfits
  have hbrk : a.desc.endBrk = b.endBrk := by
    rw [initMemory_desc h]
    rfl
  have hsub := Nat.div_add_mod (virtToPhy a.desc.endOfStruct).toNat (2 ^ 21)
  have hmod := Nat.mod_lt (virtToPhy a.desc.endOfStruct).toNat (show 0 < 2 ^ 21 by decide)
  rw [ImageBelow, lastKernelPage, pageNo_eq]
  have hle : (virtToPhy (sym .initTaskUnion)).toNat + 32768 ≤
      (virtToPhy a.desc.endOfStruct).toNat := by
    rw [hbrk] at hbits
    unfold virtToPhy pageOffset at *
    bv_omega
  omega

/-! ## The invariant -/

/-- The tasks are those of the pages `ps`, which are mapped, and with the pages given to others
these are the pages that have been obtained. -/
structure Ledger (sym : Symbol → BitVec 64) (last : ℕ) (s : System) (ps : List ℕ) : Prop
    extends InRing sym s.toTasks where
  image : ImageBelow sym last
  kernel : last < 5
  low : ∀ x ∈ ps, x < 5
  forked : s.forked = ps.map taskAt
  owned : Owned last s.kernel.alloc (ps ++ s.given)

theorem Ledger.lt (h : Ledger sym last s ps) (hx : x ∈ ps ++ s.given) : x < 2 ^ 43 :=
  lt_of_lt_of_le (h.owned.inside x hx) h.owned.bitsSize_le

/-- A page that nobody has holds no memory of a task. -/
theorem Ledger.apart_taskAt (h : Ledger sym last s ps) (hlast : last < p) (hp : p < 2 ^ 43)
    (hnew : p ∉ ps) : ∀ b ∈ s.all sym, (taskUnion b).Apart (taskUnion (taskAt p)) := by
  intro b hb
  rcases List.mem_cons.mp hb with rfl | hb
  · exact h.image.apart hlast hp
  · rw [h.forked] at hb
    obtain ⟨x, hx, rfl⟩ := List.mem_map.mp hb
    refine taskAt_apart (h.lt (List.mem_append_left _ hx)) hp ?_
    rintro rfl
    exact hnew hx

/-- A fork obtains one page. -/
theorem obtained_forkCall (hs : AllocStep a (forkCall, some p) a') :
    obtained forkCall (some p) = [p] := by
  have hlt : p < 2 ^ 64 := by
    rcases hs.cases with ⟨hnone, -⟩ | ⟨q, -, hq, -⟩
    · cases hnone
    · rw [Option.some.inj hq]
      exact Nat.mod_lt _ (by decide)
  have hrun : obtained forkCall (some p) = [(p + 0) % 2 ^ 64] := rfl
  rw [hrun, Nat.add_zero, Nat.mod_eq_of_lt hlt]

variable {rsp regs cloneFlags stackStart stackLen : BitVec 64}

/-- **A fork that takes a clear page** is a fork with a fresh page, and enters that page in the
ledger. -/
theorem Ledger.fork (h : Ledger sym last s ps)
    (hs : KernelStep sym s (.fork rsp regs cloneFlags stackStart stackLen) t)
    (hclear : forkCall.TakesClear s.kernel.alloc)
    (hlow : forkCall.MovedRun (· < 5) s.kernel.alloc) :
    ForkStep sym s.toTasks (.fork rsp regs cloneFlags stackStart stackLen) t.toTasks ∧
      ∃ p, forkPages s.kernel.alloc = .pages p t.kernel.alloc ∧ t.given = s.given ∧
        Ledger sym last t (ps ++ [p]) := by
  obtain ⟨hcur, -, p, hp, hfork, hforked, hgiven⟩ := hs
  have hstep : AllocStep s.kernel.alloc (forkCall, some p) t.kernel.alloc := hp
  have hobtained := obtained_forkCall hstep
  have howned := h.owned.alloc hstep hclear
  rw [hobtained] at howned
  have hmem : p ∈ (ps ++ s.given) ++ [p] := List.mem_append_right _ List.mem_cons_self
  have hnodup := List.nodup_append.mp howned.nodup
  have hnew : p ∉ ps := fun hx =>
    hnodup.2.2 p (List.mem_append_left _ hx) p List.mem_cons_self rfl
  have hlt : p < 2 ^ 43 := lt_of_lt_of_le (howned.inside p hmem) howned.bitsSize_le
  -- the page struct of a clear page holds the address of the page
  have hphy : (t.kernel.alloc.pages p).phyAddr = pageAddr p := by
    obtain ⟨hin, hbit, -⟩ := hstep.handed h.owned.toMarked hclear rfl
      (hobtained ▸ List.mem_cons_self : p ∈ obtained forkCall (some p))
    rw [hstep.sameLayout.phyAddr, h.owned.phyAddr p hin hbit]
  have hapart := h.apart_taskAt (howned.behind p hmem) hlt hnew
  rw [hphy] at hforked
  have hforkStep : ForkStep sym s.toTasks (.fork rsp regs cloneFlags stackStart stackLen)
      t.toTasks :=
    ⟨hcur, p, t.kernel.alloc, taskAt p, hp, congrArg phyToVirt hphy, hapart, hfork, hforked⟩
  refine ⟨hforkStep, p, hp, hgiven, h.toInRing.step hforkStep, h.image, h.kernel, ?_, ?_, ?_⟩
  · intro x hx
    rcases List.mem_append.mp hx with hx | hx
    · exact h.low x hx
    · rw [List.mem_singleton.mp hx]
      rcases hstep.cases with ⟨hnone, -⟩ | ⟨q, hfound, hq, -⟩
      · cases hnone
      · obtain rfl : q.page = p := (Option.some.inj hq).symm
        exact AllocCall.movedRun_iff.mp hlow q hfound q.page
          (hobtained ▸ List.mem_cons_self : q.page ∈ obtained forkCall (some q.page))
  · rw [hforked, h.forked, List.map_append]
    rfl
  · rw [hgiven]
    refine howned.perm ?_
    rw [List.append_assoc, List.append_assoc]
    exact List.Perm.append_left ps List.perm_append_comm

/-- Code that leaves the tasks alone. -/
theorem Ledger.of_keepsTasks (h : Ledger sym last s ps) (hk : KeepsTasks sym s t)
    (howned : Owned last t.kernel.alloc (ps ++ t.given)) :
    ForkStep sym s.toTasks .code t.toTasks ∧ Ledger sym last t ps :=
  ⟨hk, h.toInRing.step (e := .code) hk, h.image, h.kernel, h.low, hk.1.trans h.forked, howned⟩

/-- The step as a step of the ring. -/
def KernelEvent.forkEvent : KernelEvent → ForkEvent
  | .fork rsp regs cloneFlags stackStart stackLen =>
    .fork rsp regs cloneFlags stackStart stackLen
  | .alloc _ _ => .code
  | .code => .code

/-- **One step.**  It is a step of the ring, and the ledger holds the pages of its tasks. -/
theorem Ledger.step (h : Ledger sym last s ps) (hs : KernelStep sym s e t)
    (hclear : e.TakesClear s) (hlow : e.ForksLow s) :
    ForkStep sym s.toTasks e.forkEvent t.toTasks ∧ ∃ ps', Ledger sym last t ps' := by
  cases e with
  | fork rsp regs cloneFlags stackStart stackLen =>
    obtain ⟨hstep, p, -, -, ht⟩ := h.fork hs (hclear forkCall rfl) hlow
    exact ⟨hstep, _, ht⟩
  | alloc c page =>
    obtain ⟨halloc, hkeeps, hgiven⟩ := hs
    have howned := h.owned.alloc halloc (hclear c rfl)
    rw [List.append_assoc, ← hgiven] at howned
    obtain ⟨hstep, ht⟩ := h.of_keepsTasks hkeeps howned
    exact ⟨hstep, ps, ht⟩
  | code =>
    obtain ⟨halloc, hkeeps, hgiven⟩ := hs
    have howned := h.owned
    rw [← halloc, ← hgiven] at howned
    obtain ⟨hstep, ht⟩ := h.of_keepsTasks hkeeps howned
    exact ⟨hstep, ps, ht⟩

/-! ## From the boot on -/

/-- The tasks are mapped, and share no memory with each other, with the kernel up to page `last` or
with a page that other code has obtained; and the ring visits them in the order of the forks. -/
structure Isolated (sym : Symbol → BitVec 64) (last : ℕ) (s : System) : Prop where
  mapped : ∀ m, ∀ a ∈ s.all sym, TaskMapped m a
  tasks : (s.all sym).Pairwise fun a b => (taskUnion a).Apart (taskUnion b)
  pages : ∃ ps, s.forked = ps.map taskAt ∧ (ps ++ s.given).Nodup ∧ ∀ x ∈ ps ++ s.given, last < x
  ring : VisitsInOrder sym s.toTasks

theorem Ledger.isolated (h : Ledger sym last s ps) : Isolated sym last s where
  mapped m a ha := by
    rcases List.mem_cons.mp ha with rfl | ha
    · exact h.image.taskMapped h.kernel
    · rw [h.forked] at ha
      obtain ⟨x, hx, rfl⟩ := List.mem_map.mp ha
      exact taskMapped_taskAt (h.low x hx)
  tasks := h.apart
  pages := ⟨ps, h.forked, h.owned.nodup, h.owned.behind⟩
  ring := h.toInRing.visitsInOrder

/-- `init_memory` and `task_init` are done: the first task is alone in the ring, in an image that
the page structs and the other arrays fit behind, and all that ends below page 5. -/
structure Ready (sym : Symbol → BitVec 64) (b : Boot) (s : System) : Prop
    extends Booted sym s.toTasks where
  memory : initMemory b = some s.kernel.alloc
  given : s.given = []
  low : pageOffset ≤ sym .initTaskUnion
  image : (sym .initTaskUnion).toNat + 32768 ≤ b.endBrk.toNat
  fits : b.layoutEnd < 2 ^ 64
  kernel : lastKernelPage s.kernel.alloc < 5

theorem Ready.ledger (h : Ready sym b s) : Ledger sym (lastKernelPage s.kernel.alloc) s [] where
  toInRing := h.toBooted.inRing
  kernel := h.kernel
  low _ hx := absurd hx List.not_mem_nil
  image := imageBelow_of_layout h.memory h.low h.image h.fits
  forked := h.alone
  owned := by
    rw [h.given]
    exact owned_initMemory h.memory

/-- **Tasks are isolated, while `alloc_pages` takes clear pages.**  In every run of forks, calls of
`alloc_pages` and other code from the boot on: if every call takes pages whose bits are clear, and
every fork one of those the page directory maps, then in every state reached the tasks are mapped
and share no memory with each other, with the kernel or with pages that other code has obtained, and
the ring visits them in order. -/
theorem always_isolated {tr : List (KernelEvent × System)} (h : Ready sym b s)
    (hrun : Always (KernelStep sym) s tr)
    (hclear : Always (fun s e _ => e.TakesClear s) s tr)
    (hlow : Always (fun s e _ => e.ForksLow s) s tr) :
    Always (fun _ _ t => Isolated sym (lastKernelPage s.kernel.alloc) t) s tr := by
  have hboth := (hrun.and (hclear.and hlow)).invariant_both
    (P := fun s' => ∃ ps, Ledger sym (lastKernelPage s.kernel.alloc) s' ps)
    (fun _ _ _ ⟨_, hps⟩ hs => (hps.step hs.1 hs.2.1 hs.2.2).2) ⟨[], h.ledger⟩
  exact hboth.mono fun _ _ _ ⟨_, _, _, hps⟩ => hps.isolated

/-! ## A machine whose first zone starts at page 1

There the pages behind the kernel are obtained in order, until page 62 is, and no call fails. -/

/-- The page behind the kernel and all pages obtained. -/
def System.next (last : ℕ) (s : System) : ℕ := last + 1 + (s.forked.length + s.given.length)

/-- A call for pages of zone 0, which ends at `stop`, while the next page is in the first word of
the bitmap. -/
structure EarlyCall (last stop : ℕ) (s : System) (c : AllocCall) : Prop where
  zone : c.zoneSelect ≠ zoneUnmapped
  pos : 1 ≤ c.number.toNat
  le : c.number.toNat ≤ 64
  early : s.next last ≤ 62
  room : s.next last + c.number.toNat < stop

/-- All calls in a step are early, and that of a fork is for one of the pages 1 to 4. -/
def KernelEvent.Early (last stop : ℕ) (s : System) : KernelEvent → Prop
  | .fork .. => EarlyCall last stop s forkCall ∧ s.next last ≤ 4
  | .alloc c _ => EarlyCall last stop s c
  | .code => True

variable {stop : ℕ}

/-- The pages have been obtained in order. -/
structure Filling (sym : Symbol → BitVec 64) (last stop : ℕ) (s : System) (ps : List ℕ) : Prop
    extends Ledger sym last s ps where
  free : NextFree (s.next last) s.kernel.alloc
  stop : (s.kernel.alloc.zones 0).endPage = stop
  order : (ps ++ s.given).Perm (List.range' (last + 1) (s.forked.length + s.given.length))

theorem Filling.bounds (h : Filling sym last stop s ps) (hc : EarlyCall last stop s c) :
    1 ≤ s.next last ∧ s.next last + c.number.toNat < (s.kernel.alloc.zones 0).endPage := by
  refine ⟨?_, h.stop ▸ hc.room⟩
  unfold System.next
  omega

/-- The next call takes the next pages, -/
theorem Filling.movedRun {P : ℕ → Prop} (h : Filling sym last stop s ps)
    (hc : EarlyCall last stop s c)
    (hP : ∀ x, s.next last ≤ x → x < s.next last + c.number.toNat → P x) :
    c.MovedRun P s.kernel.alloc :=
  h.free.movedRun hc.zone (h.bounds hc).1 hc.early hc.pos hc.le (h.bounds hc).2 hP

/-- and gets them. -/
theorem Filling.serves (h : Filling sym last stop s ps) (hc : EarlyCall last stop s c) :
    c.TakesClear s.kernel.alloc ∧ ∃ a, c.run s.kernel.alloc = .pages (s.next last) a ∧
      NextFree (s.next last + c.number.toNat) a :=
  h.free.alloc hc.zone (h.bounds hc).1 hc.early hc.pos hc.le (h.bounds hc).2

/-- An early step takes clear pages, and a fork one that is mapped. -/
theorem Filling.takes (h : Filling sym last stop s ps) (he : e.Early last stop s) :
    e.TakesClear s ∧ e.ForksLow s := by
  cases e with
  | fork rsp regs cloneFlags stackStart stackLen =>
    obtain ⟨hc, hfour⟩ := he
    have hone : forkCall.number.toNat = 1 := rfl
    have hlow : forkCall.MovedRun (· < 5) s.kernel.alloc := by
      refine h.movedRun hc fun x _ hx => ?_
      rw [hone] at hx
      exact lt_of_lt_of_le hx (Nat.succ_le_succ hfour)
    refine ⟨fun c hcall => ?_, hlow⟩
    have hcall : forkCall = c := Option.mem_some_iff.mp hcall
    rw [← hcall]
    exact (h.serves hc).1
  | alloc c page =>
    refine ⟨?_, trivial⟩
    rintro c' ⟨⟩
    exact (h.serves he).1
  | code => exact ⟨nofun, trivial⟩

/-- **One early step.** -/
theorem Filling.step (h : Filling sym last stop s ps) (hs : KernelStep sym s e t)
    (he : e.Early last stop s) : ∃ ps', Filling sym last stop t ps' := by
  obtain ⟨hclear, hlow⟩ := h.takes he
  cases e with
  | fork rsp regs cloneFlags stackStart stackLen =>
    obtain ⟨-, a, ha, hfree⟩ := h.serves he.1
    obtain ⟨hstep, p, hp, hgiven, ht⟩ := h.fork hs (hclear forkCall rfl) hlow
    obtain ⟨rfl, rfl⟩ := AllocResult.pages.inj (hp.symm.trans ha)
    have hlen : t.forked.length = s.forked.length + 1 := by
      rw [ht.forked, h.forked, List.length_map, List.length_map, List.length_append,
        List.length_singleton]
    refine ⟨_, ht, ?_, ?_, ?_⟩
    · have hnext : t.next last = s.next last + 1 := by
        unfold System.next
        rw [hlen, hgiven]
        omega
      rw [hnext]
      exact hfree
    · have hlay : SameLayout s.kernel.alloc t.kernel.alloc :=
        AllocStep.sameLayout (l := (forkCall, some (s.next last))) ha
      rw [hlay.endPage, h.stop]
    · have hcount : t.forked.length + t.given.length =
          s.forked.length + s.given.length + 1 := by
        rw [hlen, hgiven]
        omega
      rw [hcount, List.range'_concat, Nat.one_mul, hgiven]
      refine List.Perm.trans ?_ (h.order.append_right _)
      rw [List.append_assoc, List.append_assoc]
      exact List.Perm.append_left ps List.perm_append_comm
  | alloc c page =>
    obtain ⟨-, a, ha, hfree⟩ := h.serves he
    obtain ⟨hstep, hkeeps, hgiven⟩ := hs
    have howned := h.owned.alloc hstep (hclear c rfl)
    rw [List.append_assoc, ← hgiven] at howned
    have hlay := hstep.sameLayout
    -- the call is not the one that returns `NULL`
    cases page with
    | none =>
      have hnull : c.run s.kernel.alloc = .null := hstep.1
      rw [ha] at hnull
      cases hnull
    | some p =>
      have hp : c.run s.kernel.alloc = .pages p t.kernel.alloc := hstep
      obtain ⟨rfl, rfl⟩ := AllocResult.pages.inj (hp.symm.trans ha)
      have hcall : EarlyCall last stop s c := he
      have hnew : obtained c (some (s.next last)) =
          List.range' (s.next last) c.number.toNat := by
        have hle := hcall.le
        have hearly := hcall.early
        show runFrom (s.next last) c.count = _
        rw [c.count_eq (by omega), runFrom_eq_range' (by omega)]
      have hlen : t.given.length = s.given.length + c.number.toNat := by
        rw [hgiven, List.length_append, hnew, List.length_range']
      refine ⟨ps, (h.of_keepsTasks hkeeps howned).2, ?_, ?_, ?_⟩
      · have hnext : t.next last = s.next last + c.number.toNat := by
          unfold System.next
          rw [hlen, hkeeps.1]
          omega
        rw [hnext]
        exact hfree
      · rw [hlay.endPage, h.stop]
      · have hcount : t.forked.length + t.given.length =
            s.forked.length + s.given.length + c.number.toNat := by
          rw [hlen, hkeeps.1]
          omega
        rw [hcount, List.range'_append_1.symm, hgiven, hnew, ← List.append_assoc]
        exact h.order.append_right _
  | code =>
    obtain ⟨halloc, hkeeps, hgiven⟩ := hs
    have howned := h.owned
    rw [← halloc, ← hgiven] at howned
    have hnext : t.next last = s.next last := by
      unfold System.next
      rw [hkeeps.1, hgiven]
    refine ⟨ps, (h.of_keepsTasks hkeeps howned).2, ?_, ?_, ?_⟩
    · rw [hnext, halloc]
      exact h.free
    · rw [halloc, h.stop]
    · rw [hkeeps.1, hgiven]
      exact h.order

variable {first : E820}

theorem Ready.filling (h : Ready sym b s) (hmap : SoundMap (e820Scan b.slots))
    (hfirst : (zoneEntries (e820Scan b.slots))[0]? = some first) (hstart : first.startPage = 1)
    (hroom : lastKernelPage s.kernel.alloc + 1 < first.endPage) :
    Filling sym (lastKernelPage s.kernel.alloc) first.endPage s [] := by
  obtain ⟨hfree, hstop⟩ := nextFree_initMemory hmap hfirst hstart h.memory hroom
  have hnone : s.forked.length + s.given.length = 0 := by
    rw [h.alone, h.given]
    rfl
  refine ⟨h.ledger, ?_, hstop, ?_⟩
  · rw [System.next, hnone]
    exact hfree
  · rw [hnone, h.given]
    exact List.Perm.refl []

/-- An early fork goes through, and gets the next page. -/
theorem Filling.exists_fork (h : Filling sym last stop s ps) (hcur : getCurrent rsp ∈ s.all sym)
    (hregs : (taskUnion (getCurrent rsp)).Has regs ptRegsSize.toNat)
    (hc : EarlyCall last stop s forkCall) :
    ∃ t, KernelStep sym s (.fork rsp regs cloneFlags stackStart stackLen) t ∧
      t.forked = s.forked ++ [taskAt (s.next last)] ∧ t.given = s.given := by
  obtain ⟨hclear, a, ha, -⟩ := h.serves hc
  have hstep : AllocStep s.kernel.alloc (forkCall, some (s.next last)) a := ha
  have hphy : (a.pages (s.next last)).phyAddr = pageAddr (s.next last) := by
    have hobtained := obtained_forkCall hstep
    obtain ⟨hin, hbit, -⟩ := hstep.handed h.owned.toMarked hclear rfl
      (hobtained ▸ List.mem_cons_self : s.next last ∈ obtained forkCall (some (s.next last)))
    rw [hstep.sameLayout.phyAddr, h.owned.phyAddr _ hin hbit]
  refine ⟨⟨⟨⟨a, forkMem sym s.kernel.mem rsp regs (taskAt (s.next last))⟩,
    s.forked ++ [taskAt (s.next last)]⟩, s.given⟩, ⟨hcur, hregs, _, ha, ?_, ?_, rfl⟩, rfl, rfl⟩
  · rw [doFork_pages ha, hphy]
    rfl
  · show _ = s.forked ++ [phyToVirt (a.pages (s.next last)).phyAddr]
    rw [hphy]
    rfl

/-- Another early call. -/
theorem Filling.exists_alloc (h : Filling sym last stop s ps) (hc : EarlyCall last stop s c) :
    ∃ t, KernelStep sym s (.alloc c (some (s.next last))) t ∧ t.forked = s.forked := by
  obtain ⟨-, a, ha, -⟩ := h.serves hc
  exact ⟨⟨⟨⟨a, s.kernel.mem⟩, s.forked⟩, s.given ++ obtained c (some (s.next last))⟩,
    ⟨ha, ⟨rfl, fun _ _ => ⟨rfl, rfl, rfl, rfl⟩⟩, rfl⟩, rfl⟩

/-- The first task forks, other code takes a page, and the child forks. -/
def largeKernelRun (t u v : System) : List (KernelEvent × System) :=
  [(.fork 0xffff800000127e00 0xffff800000127e40 7 0 0, t),
    (.alloc ⟨zoneNormal, 1, pgKernel⟩ (some 3), u),
    (.fork 0xffff800000407e00 0xffff800000407e40 7 0 0, v)]

theorem largeKernel_fits : SoundMap (e820Scan largeKernelBoot.slots) ∧
    (zoneEntries (e820Scan largeKernelBoot.slots))[0]? = some ⟨0x100000, 0x8900000, 1⟩ ∧
    E820.startPage ⟨0x100000, 0x8900000, 1⟩ = 1 ∧ E820.endPage ⟨0x100000, 0x8900000, 1⟩ = 69 :=
  ⟨soundMap_pcBoot, by decide, by decide, by decide⟩

/-- There is such a run. -/
theorem largeKernel_runs : ∃ s t u v, Ready linked largeKernelBoot s ∧
    lastKernelPage s.kernel.alloc = 1 ∧ Always (KernelStep linked) s (largeKernelRun t u v) ∧
    Always (fun s e _ => (e.TakesClear s ∧ e.ForksLow s) ∧ e.Early 1 69 s) s
      (largeKernelRun t u v) ∧
    v.forked = [0xffff800000400000, 0xffff800000800000] := by
  obtain ⟨a, hinit⟩ := exists_initMemory largeKernelBoot
  have hlast : lastKernelPage a = 1 := by
    rw [lastKernelPage, initMemory_desc hinit]
    decide +kernel
  obtain ⟨s, hs⟩ : ∃ s : System, s = ⟨⟨⟨a, booted.kernel.mem⟩, []⟩, []⟩ := ⟨_, rfl⟩
  have hready : Ready linked largeKernelBoot s := by
    subst hs
    exact ⟨⟨rfl, booted_linked.listInit, booted_linked.flags, booted_linked.pid⟩, hinit, rfl,
      by decide, by decide, by decide +kernel, hlast.trans_lt (by decide)⟩
  obtain ⟨hmap, hfirst, hstart, hstop⟩ := largeKernel_fits
  have halloc : s.kernel.alloc = a := by rw [hs]
  have hfill := hready.filling hmap hfirst hstart (by rw [halloc, hlast, hstop]; decide)
  rw [halloc, hlast, hstop] at hfill
  have hcall : ∀ (w : System) (c : AllocCall), w.forked.length + w.given.length ≤ 2 →
      c.zoneSelect = zoneNormal → c.number = 1 → EarlyCall 1 69 w c := by
    intro w c hlen hzone hnumber
    have hone : c.number.toNat = 1 := by rw [hnumber]; rfl
    refine ⟨by rw [hzone]; decide, by omega, by omega, ?_, ?_⟩ <;> unfold System.next <;> omega
  -- the first fork
  have hs0 : s.forked.length + s.given.length = 0 := by rw [hs]; rfl
  have hnext : s.next 1 = 2 := by rw [System.next, hs0]
  have hearlyS := hcall s forkCall (by omega) rfl rfl
  have hcur : getCurrent 0xffff800000127e00 ∈ s.all linked := by
    have hall : s.all linked = [linked .initTaskUnion] := by rw [hs]; rfl
    rw [hall]
    decide
  obtain ⟨t, ht, htf, htg⟩ : ∃ t, KernelStep linked s
      (.fork 0xffff800000127e00 0xffff800000127e40 7 0 0) t ∧
      t.forked = s.forked ++ [taskAt (s.next 1)] ∧ t.given = s.given :=
    hfill.exists_fork hcur (by decide) hearlyS
  have heS : KernelEvent.Early 1 69 s (.fork 0xffff800000127e00 0xffff800000127e40 7 0 0) :=
    ⟨hearlyS, hnext.trans_le (by decide)⟩
  obtain ⟨ps, hfillT⟩ := hfill.step ht heS
  have htf : t.forked = [taskAt 2] := by rw [htf, hnext, hs]; rfl
  have htg : t.given = [] := by rw [htg, hs]
  -- the call of other code
  have hnextT : t.next 1 = 3 := by rw [System.next, htf, htg]; rfl
  have hearlyT := hcall t ⟨zoneNormal, 1, pgKernel⟩ (by rw [htf, htg]; decide) rfl rfl
  obtain ⟨u, hu, huf⟩ := hfillT.exists_alloc hearlyT
  rw [hnextT] at hu
  have heT : KernelEvent.Early 1 69 t (.alloc ⟨zoneNormal, 1, pgKernel⟩ (some 3)) := hearlyT
  obtain ⟨ps', hfillU⟩ := hfillT.step hu heT
  have huf : u.forked = [taskAt 2] := huf.trans htf
  have hug : u.given = [3] := by
    rw [hu.2.2, htg]
    rfl
  -- the second fork
  have hnextU : u.next 1 = 4 := by rw [System.next, huf, hug]; rfl
  have hearlyU := hcall u forkCall (by rw [huf, hug]; decide) rfl rfl
  have hcurU : getCurrent 0xffff800000407e00 ∈ u.all linked := by
    rw [Tasks.all, huf]
    decide
  obtain ⟨v, hv, hvf, -⟩ : ∃ v, KernelStep linked u
      (.fork 0xffff800000407e00 0xffff800000407e40 7 0 0) v ∧
      v.forked = u.forked ++ [taskAt (u.next 1)] ∧ v.given = u.given :=
    hfillU.exists_fork hcurU (by decide) hearlyU
  have heU : KernelEvent.Early 1 69 u (.fork 0xffff800000407e00 0xffff800000407e40 7 0 0) :=
    ⟨hearlyU, hnextU.trans_le (by decide)⟩
  refine ⟨s, t, u, v, hready, by rw [halloc, hlast], ⟨ht, hu, hv, trivial⟩,
    ⟨⟨hfill.takes heS, heS⟩, ⟨hfillT.takes heT, heT⟩, ⟨hfillU.takes heU, heU⟩, trivial⟩, ?_⟩
  rw [hvf, huf, hnextU]
  decide

/-- Its states are isolated, -/
theorem largeKernel_isolated : ∃ s t u v, Ready linked largeKernelBoot s ∧
    Always (KernelStep linked) s (largeKernelRun t u v) ∧
    v.forked = [0xffff800000400000, 0xffff800000800000] ∧ Isolated linked 1 v := by
  obtain ⟨s, t, u, v, hready, hlast, hrun, hguard, hforked⟩ := largeKernel_runs
  have hall := always_isolated hready hrun (hguard.mono fun _ _ _ h => h.1.1)
    (hguard.mono fun _ _ _ h => h.1.2)
  rw [hlast] at hall
  exact ⟨s, t, u, v, hready, hrun, hforked, hall.2.2.1⟩

end Task
end OSLib
