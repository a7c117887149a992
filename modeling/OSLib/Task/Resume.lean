import OSLib.Foundation.Runs
import OSLib.Task.Switch

/-!
# What a resumed task finds

A task inside `switch_to` has left its return address, its stack pointer, `fs` and `gs` in its
`thread_struct` and `rbp` on its stack (`Saved`).  All of this lies in blocks of its own, so no
other switch touches it, and the switch that resumes the task takes it up again
(`Step.resumes`).

The other registers the calling convention lets the surrounding code rely on, `rbx` and `r12` to
`r15`, are saved nowhere, and the assembly block does not declare them as changed.  The resumed task
finds in them what the task it takes over from had there: `always_resumed_iff`.

The theorem is about any number of tasks and any schedule.  A task is in one of two conditions,
running or inside `switch_to`, and the invariant is that every task of the second kind has its words
in memory; a switch changes the condition of two tasks and the memory of one.  What the running task
does between two switches is not modelled but bounded: it may write anywhere but to the words that
are saved.

The condition is one on the registers before a switch, since the values a resumed task finds are
those of whoever made the switch.

## The order of the results

Words of different blocks share no byte (`Layout.field_apart`, `Layout.Room.has`), so each store of
a switch either is to a word in question or leaves it (`keeps_write`).  The assembly block and the
function are run one after the other, `parked_asmMem` and `saved_switchToBody` say what they have
saved, and `Inv.returning` finds it again when the task comes back.  `Inv.resumes` joins the two
ends of one call of `switch_to`, however many switches lie between them.
-/

namespace OSLib
namespace Task

open X86

variable {T : Type} {L : Layout T} {τ υ prev next : T} {c : Call} {m m' : Mem}
  {a v sp x : BitVec 64} {s t : Cpu}

/-! ## Words in their blocks -/

theorem Layout.field_has (L : Layout T) (τ : T) (f : Field) :
    (L.block (.thread τ)).Has (L.field τ f) 8 := by
  have hsize := L.thread_size τ
  have hoff : f.off + 8 ≤ 64 := by cases f <;> decide
  exact Block.has_addr _ (by omega)

/-- Fields share no byte. -/
theorem Layout.field_apart (L : Layout T) {τ υ : T} {f g : Field} (h : τ ≠ υ ∨ f ≠ g) :
    Mem.Apart (L.field τ f) (L.field υ g) := by
  by_cases hτ : τ = υ
  · subst hτ
    have hfg : f ≠ g := h.resolve_left fun hne => hne rfl
    unfold Mem.Apart Layout.field
    generalize (L.block (.thread τ)).addr = base
    cases f <;> cases g <;> first | exact absurd rfl hfg | (simp only [Field.off]; bv_omega)
  · exact (L.apart _ _ fun h => hτ (Area.thread.inj h)).words (L.field_has τ f) (L.field_has υ g)

/-- The three words below a stack pointer that has room. -/
theorem Layout.Room.has (h : L.Room τ sp) :
    (L.block (.stack τ)).Has (sp - 8) 8 ∧ (L.block (.stack τ)).Has (sp - 16) 8 ∧
      (L.block (.stack τ)).Has (sp - 16 - 8) 8 := by
  unfold Layout.Room Block.Has at h
  unfold Block.Has
  refine ⟨?_, ?_, ?_⟩ <;> bv_omega

/-- A store into one area leaves the words of the others alone. -/
theorem Layout.read_write (L : Layout T) {k k' : Area T} (hne : k ≠ k')
    (ha : (L.block k).Has a 8) (hx : (L.block k').Has x 8) : (m.write a v).read x = m.read x :=
  Mem.read_write_of_apart ((L.apart k k' hne).words ha hx)

/-- A store into one field leaves the other fields alone. -/
theorem Layout.read_write_field (L : Layout T) {f g : Field} (h : f ≠ g) :
    (m.write (L.field τ f) v).read (L.field υ g) = m.read (L.field υ g) :=
  Mem.read_write_of_apart (L.field_apart (.inr h))

/-! ## What a task has saved -/

/-- What the assembly block saves of a call. -/
structure Parked (L : Layout T) (m : Mem) (τ : T) (c : Call) : Prop where
  rip : m.read (L.field τ .rip) = c.site
  rsp : m.read (L.field τ .rsp) = c.regs.gpr .rsp - 16
  rbp : m.read (c.regs.gpr .rsp - 8) = c.regs.gpr .rbp

/-- The words of a task inside `switch_to` hold what it had at its call. -/
structure Saved (L : Layout T) (m : Mem) (τ : T) (c : Call) : Prop extends Parked L m τ c where
  fs : m.read (L.field τ .fs) = (c.regs.seg .fs).setWidth 64
  gs : m.read (L.field τ .gs) = (c.regs.seg .gs).setWidth 64

/-- The words a task has saved are as before. -/
def Keeps (L : Layout T) (τ : T) (c : Call) (m m' : Mem) : Prop :=
  ∀ w ∈ L.words τ c, m'.read w = m.read w

theorem Parked.of_keeps (h : Parked L m τ c) (hk : Keeps L τ c m m') : Parked L m' τ c := by
  simp only [Keeps, Layout.words, List.forall_mem_cons] at hk
  obtain ⟨hrip, hrsp, -, -, hrbp, -⟩ := hk
  exact ⟨hrip.trans h.rip, hrsp.trans h.rsp, hrbp.trans h.rbp⟩

theorem Saved.of_keeps (h : Saved L m τ c) (hk : Keeps L τ c m m') : Saved L m' τ c := by
  refine ⟨h.toParked.of_keeps hk, ?_, ?_⟩
  · rw [hk _ (by simp [Layout.words]), h.fs]
  · rw [hk _ (by simp [Layout.words]), h.gs]

theorem Keeps.trans {m'' : Mem} (h : Keeps L τ c m m') (h' : Keeps L τ c m' m'') :
    Keeps L τ c m m'' := fun w hw => (h' w hw).trans (h w hw)

/-- The words lie in the `thread_struct` and on the stack. -/
theorem Layout.mem_words {w : BitVec 64} (hw : w ∈ L.words τ c) :
    (∃ f, w = L.field τ f) ∨ w = c.regs.gpr .rsp - 8 ∨ w = c.regs.gpr .rsp - 16 := by
  simp only [Layout.words, List.mem_cons, List.not_mem_nil, or_false] at hw
  rcases hw with rfl | rfl | rfl | rfl | rfl | rfl
  · exact .inl ⟨_, rfl⟩
  · exact .inl ⟨_, rfl⟩
  · exact .inl ⟨_, rfl⟩
  · exact .inl ⟨_, rfl⟩
  · exact .inr (.inl rfl)
  · exact .inr (.inr rfl)

theorem Layout.words_has {w : BitVec 64} (hw : w ∈ L.words τ c)
    (hroom : L.Room τ (c.regs.gpr .rsp)) :
    (L.block (.thread τ)).Has w 8 ∨ (L.block (.stack τ)).Has w 8 := by
  rcases Layout.mem_words hw with ⟨f, rfl⟩ | rfl | rfl
  · exact .inl (L.field_has τ f)
  · exact .inr hroom.has.1
  · exact .inr hroom.has.2.1

/-- A store outside the blocks of a task. -/
theorem keeps_write {k : Area T} (hthread : k ≠ .thread τ) (hstack : k ≠ .stack τ)
    (ha : (L.block k).Has a 8) (hroom : L.Room τ (c.regs.gpr .rsp)) :
    Keeps L τ c m (m.write a v) := by
  intro w hw
  rcases Layout.words_has hw hroom with h | h
  · exact L.read_write hthread ha h
  · exact L.read_write hstack ha h

/-- A store below the saved words of the task that is to run: those of another task are in other
blocks, and its own lie above. -/
theorem keeps_write_below (ha : (L.block (.stack next)).Has (sp - 8) 8)
    (hsp : τ = next → sp = c.regs.gpr .rsp - 16) (hroom : L.Room τ (c.regs.gpr .rsp)) :
    Keeps L τ c m (m.write (sp - 8) v) := by
  by_cases hτ : τ = next
  · rw [hsp hτ] at ha ⊢
    subst hτ
    intro w hw
    rcases Layout.mem_words hw with ⟨f, rfl⟩ | rfl | rfl
    · exact L.read_write (by simp) ha (L.field_has τ f)
    · exact Mem.read_write_of_apart (by unfold Mem.Apart; bv_omega)
    · exact Mem.read_write_of_apart (by unfold Mem.Apart; bv_omega)
  · exact keeps_write (by simp) (fun h => hτ (Area.stack.inj h).symm) ha hroom

/-- What a function does in its frame, below the saved words of the task that is to run. -/
theorem keeps_frame (hm : ∀ x, ¬ InFrame L next (sp - 8) x → m' x = m x)
    (hsp : τ = next → sp = c.regs.gpr .rsp - 16) (hroom : L.Room τ (c.regs.gpr .rsp)) :
    Keeps L τ c m m' := by
  intro w hw
  refine Mem.read_congr fun o ho => hm _ fun hframe => ?_
  obtain ⟨hhas, hpos, hle⟩ := hframe
  by_cases hτ : τ = next
  · rw [hsp hτ] at hpos hle
    subst hτ
    rcases Layout.mem_words hw with ⟨f, rfl⟩ | rfl | rfl
    · exact (L.apart (.thread τ) (.stack τ) (by simp)).byte (L.field_has τ f) ho (by decide) hhas
    · bv_omega
    · bv_omega
  · rcases Layout.words_has hw hroom with h | h
    · exact (L.apart (.thread τ) (.stack next) (by simp)).byte h ho (by decide) hhas
    · exact (L.apart (.stack τ) (.stack next) fun h => hτ (Area.stack.inj h)).byte h ho
        (by decide) hhas

/-! ## The assembly block -/

/-- Memory once the block has filled in the fields of `prev`. -/
def asmMem (L : Layout T) (prev : T) (site : BitVec 64) (s : Cpu) : Mem :=
  (((s.mem.write (s.gpr .rsp - 8) (s.gpr .rbp)).write (s.gpr .rsp - 8 - 8) (s.gpr .rax)).write
    (L.field prev .rsp) (s.gpr .rsp - 8 - 8)).write (L.field prev .rip) site

/-- **The assembly block.**  It enters `__switch_to` on the stack of `next`, with the address where
`next` left off on top. -/
theorem run_switchTo (L : Layout T) (prev next : T) (site entry : BitVec 64) (s : Cpu) :
    ∃ a, run (cpuStep (link site entry)) (link site entry) (fun _ => none) 8
        (switchTo L prev next) s = some (.enters entry a) ∧
      a.gpr .rsp = (asmMem L prev site s).read (L.field next .rsp) - 8 ∧
      a.mem = (asmMem L prev site s).write (a.gpr .rsp)
        ((asmMem L prev site s).read (L.field next .rip)) ∧
      a.seg = s.seg ∧ ∀ r, r ≠ .rsp → r ≠ .rax → a.gpr r = s.gpr r := by
  have hload : (asmMem L prev site s).read (L.field next .rsp) =
      (((s.mem.write (s.gpr .rsp - 8) (s.gpr .rbp)).write (s.gpr .rsp - 8 - 8)
        (s.gpr .rax)).write (L.field prev .rsp) (s.gpr .rsp - 8 - 8)).read (L.field next .rsp) :=
    L.read_write_field (by simp)
  rw [hload]
  refine ⟨_, rfl, rfl, rfl, rfl, fun r hsp hax => ?_⟩
  cases r
  case rsp => exact absurd rfl hsp
  case rax => exact absurd rfl hax
  all_goals rfl

theorem sub_sub_eight (a : BitVec 64) : a - 8 - 8 = a - 16 := by bv_omega

/-- The block parks the task that calls it. -/
theorem parked_asmMem (hroom : L.Room prev (s.gpr .rsp)) {site : BitVec 64} :
    Parked L (asmMem L prev site s) prev ⟨site, s.toRegs⟩ := by
  obtain ⟨h8, h16, -⟩ := hroom.has
  unfold asmMem
  rw [sub_sub_eight]
  refine ⟨Mem.read_write_self, ?_, ?_⟩
  · rw [L.read_write_field (by simp), Mem.read_write_self]
  · rw [L.read_write (by simp) (L.field_has _ _) h8, L.read_write (by simp) (L.field_has _ _) h8,
      Mem.read_write_of_apart (by unfold Mem.Apart; bv_omega), Mem.read_write_self]

/-- The block touches nothing another task has saved. -/
theorem keeps_asmMem (hτ : τ ≠ prev) (hroom : L.Room prev (s.gpr .rsp))
    (hroom' : L.Room τ (c.regs.gpr .rsp)) {site : BitVec 64} :
    Keeps L τ c s.mem (asmMem L prev site s) := by
  obtain ⟨h8, h16, -⟩ := hroom.has
  have hthread : Area.thread prev ≠ Area.thread τ := fun h => hτ (Area.thread.inj h).symm
  have hstack : Area.stack prev ≠ Area.stack τ := fun h => hτ (Area.stack.inj h).symm
  unfold asmMem
  rw [sub_sub_eight]
  exact (((keeps_write (by simp) hstack h8 hroom').trans
    (keeps_write (by simp) hstack h16 hroom')).trans
    (keeps_write hthread (by simp) (L.field_has _ _) hroom')).trans
    (keeps_write hthread (by simp) (L.field_has _ _) hroom')

/-- Of the `thread_struct`s and stacks, the block changes those of `prev` only. -/
theorem asmMem_read (hτ : τ ≠ prev) (hroom : L.Room prev (s.gpr .rsp)) {k : Area T}
    (hk : k = .thread τ ∨ k = .stack τ) (hx : (L.block k).Has x 8) {site : BitVec 64} :
    (asmMem L prev site s).read x = s.mem.read x := by
  obtain ⟨h8, h16, -⟩ := hroom.has
  have hne : Area.thread prev ≠ k ∧ Area.stack prev ≠ k := by
    rcases hk with rfl | rfl
    · exact ⟨fun h => hτ (Area.thread.inj h).symm, by simp⟩
    · exact ⟨by simp, fun h => hτ (Area.stack.inj h).symm⟩
  unfold asmMem
  rw [sub_sub_eight, L.read_write hne.1 (L.field_has _ _) hx,
    L.read_write hne.1 (L.field_has _ _) hx, L.read_write hne.2 h16 hx, L.read_write hne.2 h8 hx]

/-! ## The function -/

theorem Layout.rsp0_has (L : Layout T) :
    (L.block .initTss).Has ((L.block .initTss).addr + 4) 8 :=
  Block.has_addr _ (by rw [L.tss_size.1]; decide)

theorem Layout.tss_has (L : Layout T) {o : ℕ} (ho : o ∈ tssOffsets) :
    (L.block .tss64Table).Has ((L.block .tss64Table).addr + BitVec.ofNat 64 o) 8 := by
  have hle : o ≤ 96 := by
    revert o
    decide
  exact Block.has_addr _ (by rw [L.tss_size.2]; omega)

/-- Writing the TSS changes the table only. -/
theorem read_setTss64 {k : Area T} (hk : k ≠ .tss64Table) (hx : (L.block k).Has x 8) :
    (setTss64 L m).read x = m.read x := by
  have hfold (os : List ℕ) (hos : ∀ o ∈ os, o ∈ tssOffsets) (m₁ : Mem) :
      (os.foldl (fun m' o => m'.write ((L.block .tss64Table).addr + BitVec.ofNat 64 o)
        (m.read ((L.block .initTss).addr + BitVec.ofNat 64 o))) m₁).read x = m₁.read x := by
    induction os generalizing m₁ with
    | nil => rfl
    | cons o os ih =>
      obtain ⟨ho, hos⟩ := List.forall_mem_cons.mp hos
      exact (ih hos _).trans (L.read_write hk.symm (L.tss_has ho) hx)
  exact hfold tssOffsets (fun o ho => ho) m

/-- Of the stacks and the `thread_struct`s of other tasks, `__switch_to` changes nothing. -/
theorem read_switchToBody {k : Area T} (hk : k ≠ .tss64Table) (hk' : k ≠ .initTss)
    (hprev : k ≠ .thread prev) (hx : (L.block k).Has x 8) :
    (switchToBody L prev next s).mem.read x = s.mem.read x := by
  unfold switchToBody
  rw [L.read_write hprev.symm (L.field_has _ _) hx, L.read_write hprev.symm (L.field_has _ _) hx,
    read_setTss64 hk hx, L.read_write hk'.symm L.rsp0_has hx]

/-- **What `__switch_to` leaves in memory.**  It completes what the assembly block has saved of the
calling task, and touches nothing another task has saved. -/
theorem saved_switchToBody (hparked : Parked L s.mem τ c) (hother : τ ≠ prev → Saved L s.mem τ c)
    (hself : τ = prev → c.regs.seg = s.seg) (hroom : L.Room τ (c.regs.gpr .rsp)) :
    Saved L (switchToBody L prev next s).mem τ c := by
  by_cases hτ : τ = prev
  · have hseg := hself hτ
    subst hτ
    have hfield (f : Field) : (setTss64 L (s.mem.write ((L.block .initTss).addr + 4)
        (s.mem.read (L.field next .rsp0)))).read (L.field τ f) = s.mem.read (L.field τ f) := by
      rw [read_setTss64 (by simp) (L.field_has τ f),
        L.read_write (by simp) L.rsp0_has (L.field_has τ f)]
    refine ⟨⟨?_, ?_, ?_⟩, ?_, ?_⟩
    · unfold switchToBody
      rw [L.read_write_field (by simp),
        L.read_write_field (by simp), hfield, hparked.rip]
    · unfold switchToBody
      rw [L.read_write_field (by simp),
        L.read_write_field (by simp), hfield, hparked.rsp]
    · rw [read_switchToBody (by simp) (by simp) (by simp) hroom.has.1, hparked.rbp]
    · unfold switchToBody
      rw [L.read_write_field (by simp), Mem.read_write_self, hseg]
    · unfold switchToBody
      rw [Mem.read_write_self, hseg]
  · have hthread : Area.thread τ ≠ Area.thread prev := fun h => hτ (Area.thread.inj h)
    refine (hother hτ).of_keeps fun w hw => ?_
    rcases Layout.words_has hw hroom with h | h
    · exact read_switchToBody (by simp) (by simp) hthread h
    · exact read_switchToBody (by simp) (by simp) (by simp) h

/-- The function entered in the state `a` and left in the state `b`, in a switch out of `s`; the
stack pointer of `next` is `nsp`. -/
structure Passes (L : Layout T) (prev next : T) (site : BitVec 64) (s a b : Cpu) (nsp : BitVec 64) :
    Prop where
  nsp_eq : nsp = (asmMem L prev site s).read (L.field next .rsp)
  rsp : a.gpr .rsp = nsp - 8
  mem : a.mem = (asmMem L prev site s).write (nsp - 8)
    ((asmMem L prev site s).read (L.field next .rip))
  seg : a.seg = s.seg
  gpr : ∀ r, r ≠ .rsp → r ≠ .rax → a.gpr r = s.gpr r
  saved : ∀ r ∈ calleeSaved, b.gpr r = a.gpr r
  body_seg : b.seg = (switchToBody L prev next a).seg
  body_mem : ∀ x, ¬ InFrame L next (nsp - 8) x → b.mem x = (switchToBody L prev next a).mem x

/-- A switch passes through the assembly block and the function. -/
theorem passes_of_run {site entry : BitVec 64} {a b : Cpu} (hrdi : s.gpr .rdi = L.task prev)
    (hrsi : s.gpr .rsi = L.task next)
    (hrun : run (cpuStep (link site entry)) (link site entry) (fun _ => none) 8
      (switchTo L prev next) s = some (.enters entry a))
    (hfun : SwitchTo L a b) : ∃ nsp, Passes L prev next site s a b nsp := by
  obtain ⟨a', ha', hsp, hmem, hseg, hgpr⟩ := run_switchTo L prev next site entry s
  rw [hrun] at ha'
  obtain rfl : a = a' := by
    injection ha' with ha'
    injection ha'
  obtain ⟨prev', next', hprev, hnext, hsaved, hbseg, hframe⟩ := hfun
  rw [hgpr _ (by decide) (by decide)] at hprev hnext
  obtain rfl := L.task_injective (hprev.symm.trans hrdi)
  obtain rfl := L.task_injective (hrsi.symm.trans hnext)
  rw [hsp] at hmem hframe
  exact ⟨_, rfl, hsp, hmem, hseg, hgpr, hsaved, hbseg, hframe⟩

/-- The return address lies above the frame of the function. -/
theorem Passes.rip {site : BitVec 64} {a b : Cpu} {nsp : BitVec 64}
    (h : Passes L prev next site s a b nsp)
    (hslot : (L.block (.stack next)).Has (nsp - 8) 8) :
    b.mem.read (nsp - 8) = (asmMem L prev site s).read (L.field next .rip) := by
  have hret : b.mem.read (nsp - 8) = (switchToBody L prev next a).mem.read (nsp - 8) := by
    refine Mem.read_congr fun o ho => h.body_mem _ fun hin => ?_
    obtain ⟨-, hpos, hle⟩ := hin
    bv_omega
  rw [hret, read_switchToBody (by simp) (by simp) (by simp) hslot, h.mem, Mem.read_write_self]

/-- The end of the assembly block. -/
theorem exec_switchToOne {p : BitVec 64} (h : exec (link p 0) switchToOne s = some t) :
    t.mem = s.mem ∧ t.gpr .rsp = s.gpr .rsp + 8 + 8 ∧ t.gpr .rbp = s.mem.read (s.gpr .rsp + 8) ∧
      t.seg = s.seg ∧ ∀ r, r ≠ .rsp → r ≠ .rbp → r ≠ .rax → t.gpr r = s.gpr r := by
  obtain rfl := Option.some.inj h
  refine ⟨rfl, rfl, ?_, rfl, fun r hsp hbp hax => ?_⟩
  · exact congrArg s.mem.read (BitVec.add_zero _)
  · cases r
    case rsp => exact absurd rfl hsp
    case rbp => exact absurd rfl hbp
    case rax => exact absurd rfl hax
    all_goals rfl

/-- Going on from the popped address changes no memory. -/
theorem Resume.mem {p : BitVec 64} {sym : Label → BitVec 64} {b d : Cpu} {pos : Position}
    (h : Resume L p d t pos) (hret : Instr.ret.step sym b = .enter p d) : t.mem = b.mem := by
  injection hret with _ hd
  subst hd
  rcases h with ⟨-, hexec, -⟩ | ⟨-, heq, -⟩
  · exact (exec_switchToOne hexec).1
  · rw [heq]
    rfl

/-! ## One switch -/

variable [DecidableEq T] {σ σ' : State T} {e : Event T} {site : BitVec 64}

/-- Every task inside `switch_to` has its words in memory. -/
structure Inv (L : Layout T) (σ : State T) : Prop where
  saved : ∀ τ c, σ.inside τ = some c → Saved L σ.cpu.mem τ c
  room : ∀ τ c, σ.inside τ = some c → L.Room τ (c.regs.gpr .rsp)
  site : ∀ τ c, σ.inside τ = some c → c.site ∈ L.sites

omit [DecidableEq T] in
theorem Inv.of_none (h : ∀ τ, σ.inside τ = none) : Inv L σ := by
  refine ⟨fun τ c hc => ?_, fun τ c hc => ?_, fun τ c hc => ?_⟩
  all_goals exact absurd ((h τ).symm.trans hc) (Option.some_ne_none c).symm

/-- A task that has called `switch_to` is the running one, or it was inside before. -/
theorem State.calls_cases (h : σ.calls site τ = some c) :
    (τ = σ.cur ∧ c = ⟨site, σ.cpu.toRegs⟩) ∨ (τ ≠ σ.cur ∧ σ.inside τ = some c) := by
  unfold State.calls at h
  by_cases hτ : τ = σ.cur
  · subst hτ
    rw [Function.update_self] at h
    exact .inl ⟨rfl, (Option.some.inj h).symm⟩
  · rw [Function.update_of_ne hτ] at h
    exact .inr ⟨hτ, h⟩

theorem Inv.room_calls (hσ : Inv L σ) (hroom : L.Room σ.cur (σ.cpu.gpr .rsp))
    (h : σ.calls site τ = some c) : L.Room τ (c.regs.gpr .rsp) := by
  rcases State.calls_cases h with ⟨rfl, rfl⟩ | ⟨-, h⟩
  · exact hroom
  · exact hσ.room τ c h

theorem Inv.parked_calls (hσ : Inv L σ) (hroom : L.Room σ.cur (σ.cpu.gpr .rsp))
    (h : σ.calls site τ = some c) : Parked L (asmMem L σ.cur site σ.cpu) τ c := by
  rcases State.calls_cases h with ⟨rfl, rfl⟩ | ⟨hτ, h⟩
  · exact parked_asmMem hroom
  · exact (hσ.saved τ c h).toParked.of_keeps (keeps_asmMem hτ hroom (hσ.room τ c h))

/-- Where the stack pointer of `next` is, there is room for a return address. -/
theorem Inv.slot (hσ : Inv L σ) (hroom : L.Room σ.cur (σ.cpu.gpr .rsp))
    (hfresh : σ.calls site next = none →
      (L.block (.stack next)).Has (σ.cpu.mem.read (L.field next .rsp) - 8) 8) :
    (L.block (.stack next)).Has
      ((asmMem L σ.cur site σ.cpu).read (L.field next .rsp) - 8) 8 := by
  cases hc : σ.calls site next with
  | none =>
    have hne : next ≠ σ.cur := by
      rintro rfl
      rw [State.calls, Function.update_self] at hc
      exact Option.some_ne_none _ hc
    rw [asmMem_read hne hroom (.inl rfl) (L.field_has _ _)]
    exact hfresh hc
  | some c =>
    rw [(hσ.parked_calls hroom hc).rsp]
    exact (hσ.room_calls hroom hc).has.2.2

/-- The state in which `__switch_to` returns, in a switch from `σ` to `next`. -/
structure Returning (L : Layout T) (σ : State T) (next : T) (site : BitVec 64) (b : Cpu) :
    Prop where
  rsp : ∀ c, σ.calls site next = some c → b.gpr .rsp = c.regs.gpr .rsp - 16 - 8
  rip : ∀ c, σ.calls site next = some c → b.mem.read (b.gpr .rsp) = c.site
  gpr : ∀ r ∈ calleeSaved, r ≠ .rsp → b.gpr r = σ.cpu.gpr r
  saved : ∀ τ c, σ.calls site τ = some c → Saved L b.mem τ c
  seg : ∀ c, σ.calls site next = some c →
    b.seg .fs = c.regs.seg .fs ∧ b.seg .gs = c.regs.seg .gs

/-- **One switch**, up to the return from `__switch_to`. -/
theorem Inv.returning (hσ : Inv L σ) (hroom : L.Room σ.cur (σ.cpu.gpr .rsp))
    (hfresh : σ.calls site next = none →
      (L.block (.stack next)).Has (σ.cpu.mem.read (L.field next .rsp) - 8) 8)
    {a b : Cpu} {nsp : BitVec 64} (hab : Passes L σ.cur next site σ.cpu a b nsp) :
    Returning L σ next site b := by
  -- where the stack pointer of `next` is
  have hpop (c : Call) (hc : σ.calls site next = some c) : nsp = c.regs.gpr .rsp - 16 :=
    hab.nsp_eq.trans (hσ.parked_calls hroom hc).rsp
  have hslot : (L.block (.stack next)).Has (nsp - 8) 8 := by
    rw [hab.nsp_eq]
    exact hσ.slot hroom hfresh
  have hbelow (τ : T) (c : Call) (hc : σ.calls site τ = some c) :
      τ = next → nsp = c.regs.gpr .rsp - 16 := by
    rintro rfl
    exact hpop c hc
  have hret : b.gpr .rsp = nsp - 8 := by rw [hab.saved _ (by decide), hab.rsp]
  -- the words of each task, through the push, the function and its frame
  have hbody (τ : T) (c : Call) (hc : σ.calls site τ = some c) :
      Saved L (switchToBody L σ.cur next a).mem τ c := by
    have hr := hσ.room_calls hroom hc
    have hpush {v : BitVec 64} : Keeps L τ c (asmMem L σ.cur site σ.cpu)
        ((asmMem L σ.cur site σ.cpu).write (nsp - 8) v) :=
      keeps_write_below hslot (hbelow τ c hc) hr
    refine saved_switchToBody ?_ (fun hτ => ?_) (fun hτ => ?_) hr
    · rw [hab.mem]
      exact (hσ.parked_calls hroom hc).of_keeps hpush
    · rcases State.calls_cases hc with ⟨rfl, -⟩ | ⟨-, hin⟩
      · exact absurd rfl hτ
      · rw [hab.mem]
        exact (hσ.saved τ c hin).of_keeps ((keeps_asmMem hτ hroom hr).trans hpush)
    · rcases State.calls_cases hc with ⟨-, rfl⟩ | ⟨hne, -⟩
      · exact hab.seg.symm
      · exact absurd hτ hne
  refine ⟨fun c hc => ?_, fun c hc => ?_, fun r hr hne => ?_, fun τ c hc => ?_, fun c hc => ?_⟩
  · rw [hret, hpop c hc]
  · rw [hret, hab.rip hslot]
    exact (hσ.parked_calls hroom hc).rip
  · have hax : r ≠ .rax := by
      rintro rfl
      exact absurd hr (by decide)
    rw [hab.saved r hr, hab.gpr r hne hax]
  · exact (hbody τ c hc).of_keeps
      (keeps_frame hab.body_mem (hbelow τ c hc) (hσ.room_calls hroom hc))
  · have hs := hbody next c hc
    rw [hab.body_seg]
    constructor
    · have hfs : (switchToBody L σ.cur next a).seg .fs =
          ((switchToBody L σ.cur next a).mem.read (L.field next .fs)).setWidth 16 := rfl
      rw [hfs, hs.fs]
      simp
    · have hgs : (switchToBody L σ.cur next a).seg .gs =
          ((switchToBody L σ.cur next a).mem.read (L.field next .gs)).setWidth 16 := rfl
      rw [hgs, hs.gs]
      simp

/-- The registers the assembly block neither saves nor declares as changed. -/
def unsaved : List Reg := [.rbx, .r12, .r13, .r14, .r15]

/-- A step that resumes a task inside `switch_to` takes it behind its call, with all registers it
may rely on as they were there. -/
def Resumed (σ : State T) (e : Event T) (σ' : State T) : Prop :=
  ∀ next site c, e = .switchTo next site → σ.calls site next = some c →
    σ'.pos = .after c.site ∧ (∀ r ∈ calleeSaved, σ'.cpu.gpr r = c.regs.gpr r) ∧
      σ'.cpu.seg .fs = c.regs.seg .fs ∧ σ'.cpu.seg .gs = c.regs.seg .gs

/-- A step that resumes a task inside `switch_to` is taken with the unsaved registers of that task's
call. -/
def SharesUnsaved (σ : State T) (e : Event T) : Prop :=
  ∀ next site c, e = .switchTo next site → σ.calls site next = some c →
    ∀ r ∈ unsaved, σ.cpu.gpr r = c.regs.gpr r

/-- **What a switch restores.**  The resumed task goes on behind its call with its own `rsp`, `rbp`,
`fs` and `gs`; the unsaved registers are those of the task that ran before. -/
theorem Inv.resumes (hσ : Inv L σ) (h : Step L σ (.switchTo next site) σ')
    (hc : σ.calls site next = some c) :
    σ'.pos = .after c.site ∧ σ'.cpu.gpr .rsp = c.regs.gpr .rsp ∧
      σ'.cpu.gpr .rbp = c.regs.gpr .rbp ∧ σ'.cpu.seg .fs = c.regs.seg .fs ∧
      σ'.cpu.seg .gs = c.regs.seg .gs ∧ ∀ r ∈ unsaved, σ'.cpu.gpr r = σ.cpu.gpr r := by
  obtain ⟨hsite, hroom, hfresh, hrdi, hrsi, entry, a, b, p, d, hrun, hfun, hret, hres, -, -⟩ := h
  obtain ⟨nsp, hab⟩ := passes_of_run hrdi hrsi hrun hfun
  have hb := hσ.returning hroom hfresh hab
  injection hret with hp hd
  subst hd
  have hp : p = c.site := by
    rw [← hp, Cpu.top_zero, hb.rip c hc]
  have hsites : p ∈ L.sites := by
    rw [hp]
    rcases State.calls_cases hc with ⟨-, rfl⟩ | ⟨-, hin⟩
    · exact hsite
    · exact hσ.site next c hin
  rcases hres with ⟨-, hexec, hpos⟩ | ⟨hno, -, -⟩
  · obtain ⟨-, hsp, hbp, hseg, hgpr⟩ := exec_switchToOne hexec
    have hdrop : (b.drop 8).gpr .rsp = c.regs.gpr .rsp - 16 := by
      rw [Cpu.drop, Cpu.withRegs, Regs.gpr_set_self, hb.rsp c hc, BitVec.sub_add_cancel]
    refine ⟨by rw [hpos, hp], ?_, ?_, ?_, ?_, fun r hr => ?_⟩
    · rw [hsp, hdrop]
      bv_omega
    · rw [hbp, hdrop, show c.regs.gpr .rsp - 16 + 8 = c.regs.gpr .rsp - 8 by bv_omega]
      exact (hb.saved next c hc).rbp
    · rw [hseg]
      exact (hb.seg c hc).1
    · rw [hseg]
      exact (hb.seg c hc).2
    · have hmem : r ∈ calleeSaved ∧ r ≠ .rsp ∧ r ≠ .rbp ∧ r ≠ .rax := by
        revert r
        decide
      rw [hgpr r hmem.2.1 hmem.2.2.1 hmem.2.2.2, Cpu.drop, Cpu.withRegs,
        Regs.gpr_set_of_ne _ _ _ _ hmem.2.1, hb.gpr r hmem.1 hmem.2.1]
  · exact absurd hsites hno

/-- **Every step keeps what the tasks inside `switch_to` have saved.** -/
theorem Inv.step (hσ : Inv L σ) (h : Step L σ e σ') : Inv L σ' := by
  cases e with
  | code =>
    obtain ⟨-, hin, hkeep⟩ := h
    refine ⟨fun τ c hc => ?_, fun τ c hc => hσ.room τ c (hin ▸ hc),
      fun τ c hc => hσ.site τ c (hin ▸ hc)⟩
    rw [hin] at hc
    exact (hσ.saved τ c hc).of_keeps (hkeep τ c hc)
  | switchTo next site =>
    obtain ⟨hsite, hroom, hfresh, hrdi, hrsi, entry, a, b, p, d, hrun, hfun, hret, hres, -, hin⟩ :=
      h
    obtain ⟨nsp, hab⟩ := passes_of_run hrdi hrsi hrun hfun
    have hb := hσ.returning hroom hfresh hab
    have hcalls {τ : T} {c : Call} (hc : σ'.inside τ = some c) : σ.calls site τ = some c := by
      rw [hin] at hc
      by_cases hτ : τ = next
      · subst hτ
        rw [Function.update_self] at hc
        exact absurd hc.symm (Option.some_ne_none c)
      · rwa [Function.update_of_ne hτ] at hc
    have hmem : σ'.cpu.mem = b.mem := hres.mem hret
    refine ⟨fun τ c hc => ?_, fun τ c hc => hσ.room_calls hroom (hcalls hc), fun τ c hc => ?_⟩
    · rw [hmem]
      exact hb.saved τ c (hcalls hc)
    · rcases State.calls_cases (hcalls hc) with ⟨-, rfl⟩ | ⟨-, h⟩
      · exact hsite
      · exact hσ.site τ c h

/-! ## Whole schedules -/

/-- A step resumes a task with everything it may rely on exactly when it is taken with that task's
unsaved registers. -/
theorem Inv.resumed_iff (hσ : Inv L σ) (h : Step L σ e σ') :
    Resumed σ e σ' ↔ SharesUnsaved σ e := by
  have hunsaved : ∀ r ∈ unsaved, r ∈ calleeSaved := by decide
  constructor
  · rintro hres next site c rfl hc r hr
    obtain ⟨-, -, -, -, -, hgpr⟩ := hσ.resumes h hc
    rw [← hgpr r hr]
    exact (hres next site c rfl hc).2.1 r (hunsaved r hr)
  · rintro hshare next site c rfl hc
    obtain ⟨hpos, hsp, hbp, hfs, hgs, hgpr⟩ := hσ.resumes h hc
    refine ⟨hpos, fun r hr => ?_, hfs, hgs⟩
    have hcases : r = .rsp ∨ r = .rbp ∨ r ∈ unsaved := by
      revert r
      decide
    rcases hcases with rfl | rfl | hr
    · exact hsp
    · exact hbp
    · exact (hgpr r hr).trans (hshare next site c rfl hc r hr)

/-- **What tasks find when they are resumed.**  In a schedule that starts with no task inside
`switch_to`, every resumed task goes on behind its call with `rsp`, `rbp`, `rbx`, `r12` to `r15`,
`fs` and `gs` as they were there exactly when every switch to a task inside `switch_to` is made with
`rbx` and `r12` to `r15` as they were at that task's call. -/
theorem always_resumed_iff (hs : ∀ τ, σ.inside τ = none) {tr : List (Event T × State T)}
    (hrun : Always (Step L) σ tr) :
    Always Resumed σ tr ↔ Always (fun σ e _ => SharesUnsaved σ e) σ tr := by
  exact Always.congr_of_invariant (K := Inv L) (fun _ _ _ hσ h => hσ.step h)
    (fun _ _ _ hσ h => hσ.resumed_iff h) (Inv.of_none hs) hrun

/-! Two tasks, the first of `init_task_union` and a forked one. -/

/-- Where the two tasks lie. -/
def twoTasks : Layout Bool where
  task τ := if τ then 0xffff800000200000 else 0xffff800000120000
  block
    | .thread τ => if τ then ⟨0xffff800000200058, 64⟩ else ⟨0xffff800000118000, 64⟩
    | .stack τ => if τ then ⟨0xffff800000200098, 32616⟩ else ⟨0xffff800000120058, 32680⟩
    | .initTss => ⟨0xffff800000119000, 104⟩
    | .tss64Table => ⟨0xffff80000011a000, 104⟩
  sites := [0xffff800000109100]
  task_injective := by decide
  apart a b h := by
    rcases a with (_ | _) | (_ | _) | _ | _ <;> rcases b with (_ | _) | (_ | _) | _ | _ <;>
      first | exact absurd rfl h | decide
  thread_size τ := by cases τ <;> rfl
  tss_size := ⟨rfl, rfl⟩

/-- The state after a switch in which `__switch_to` uses no frame. -/
def State.switch (L : Layout T) (σ : State T) (next : T) (site : BitVec 64) : State T :=
  let enter := run (cpuStep (link site 0)) (link site 0) (fun _ => none) 8
    (switchTo L σ.cur next) σ.cpu
  let a := match enter with
    | some (.enters _ a) => a
    | _ => σ.cpu
  let b := switchToBody L σ.cur next a
  let p := b.top 0
  { cur := next
    cpu := if p ∈ L.sites then ((exec (link p 0) switchToOne (b.drop 8)).getD b) else b.drop 8
    pos := if p ∈ L.sites then .after p else .at p
    inside := Function.update (σ.calls site) next none }

/-- Such a switch is a step. -/
theorem step_switch {L : Layout T} (hsite : site ∈ L.sites) (hroom : L.Room σ.cur (σ.cpu.gpr .rsp))
    (hfresh : σ.calls site next = none →
      (L.block (.stack next)).Has (σ.cpu.mem.read (L.field next .rsp) - 8) 8)
    (hrdi : σ.cpu.gpr .rdi = L.task σ.cur) (hrsi : σ.cpu.gpr .rsi = L.task next) :
    Step L σ (.switchTo next site) (σ.switch L next site) := by
  obtain ⟨a, ha, hsp, -, -, hgpr⟩ := run_switchTo L σ.cur next site 0 σ.cpu
  refine ⟨hsite, hroom, hfresh, hrdi, hrsi, 0, a, switchToBody L σ.cur next a, _, _, ha, ?_, rfl,
    ?_, rfl, rfl⟩
  · refine ⟨σ.cur, next, ?_, ?_, fun _ _ => rfl, rfl, fun _ _ => rfl⟩
    · rw [hgpr _ (by decide) (by decide), hrdi]
    · rw [hgpr _ (by decide) (by decide), hrsi]
  · unfold State.switch
    rw [ha]
    simp only
    by_cases hp : (switchToBody L σ.cur next a).top 0 ∈ L.sites
    · refine .inl ⟨hp, ?_, if_pos hp⟩
      rw [if_pos hp]
      rfl
    · exact .inr ⟨hp, if_neg hp, if_neg hp⟩

/-- The first task runs, and the stack pointer of the second one is set up. -/
def firstRuns : State Bool where
  cur := false
  cpu :=
    { gpr := fun r => match r with
        | .rsp => 0xffff800000127f00
        | .rdi => 0xffff800000120000
        | .rsi => 0xffff800000200000
        | _ => 1
      seg := fun _ => 0x10
      rflags := 0x202
      mem := Mem.write (fun _ => 0) (twoTasks.field true .rsp) 0xffff800000207f40 }
  pos := .at 0xffff800000109000
  inside := fun _ => none

/-- The second task runs and has put a value into `rbx`. -/
def secondRuns (rbx : BitVec 64) : State Bool :=
  let σ := firstRuns.switch twoTasks true 0xffff800000109100
  { σ with
    cpu :=
      { σ.cpu with
        gpr := fun r => match r with
          | .rsp => 0xffff800000207f00
          | .rdi => 0xffff800000200000
          | .rsi => 0xffff800000120000
          | .rbx => rbx
          | _ => 1 } }

/-- The first task switches to the second one and is resumed by it. -/
def thereAndBack (rbx : BitVec 64) : List (Event Bool × State Bool) :=
  [(.switchTo true 0xffff800000109100, firstRuns.switch twoTasks true 0xffff800000109100),
   (.code, secondRuns rbx),
   (.switchTo false 0xffff800000109100,
     (secondRuns rbx).switch twoTasks false 0xffff800000109100)]

theorem thereAndBack_steps (rbx : BitVec 64) :
    Always (Step twoTasks) firstRuns (thereAndBack rbx) := by
  refine ⟨step_switch (by decide) (by unfold Layout.Room; decide +kernel)
    (fun _ => by decide +kernel) rfl rfl, ⟨rfl, rfl, fun _ _ _ _ _ => rfl⟩,
    step_switch (by decide) ?_ (fun h => absurd h ?_) rfl rfl, trivial⟩
  · show (twoTasks.block (.stack true)).Has (0xffff800000207f00 - 24) 24
    decide
  · exact Option.some_ne_none _

/-- With its own value in `rbx` the first task finds everything as it was. -/
theorem thereAndBack_resumed : Always Resumed firstRuns (thereAndBack 1) := by
  refine (always_resumed_iff (fun _ => rfl) (thereAndBack_steps 1)).mpr ⟨?_, ?_, ?_, trivial⟩
  · rintro next site c h hc
    cases h
    cases hc
  · rintro next site c h
    cases h
  · rintro next site c h hc
    cases h
    cases hc
    decide

/-- **A switch loses `rbx`.**  The first task calls `switch_to` with 1 in `rbx` and finds there the
2 of the second one. -/
theorem thereAndBack_not_resumed :
    (∀ τ, firstRuns.inside τ = none) ∧ Always (Step twoTasks) firstRuns (thereAndBack 2) ∧
      ¬ Always Resumed firstRuns (thereAndBack 2) := by
  refine ⟨fun _ => rfl, thereAndBack_steps 2, fun h => ?_⟩
  obtain ⟨-, -, hres, -⟩ := h
  have hrbx := (hres false _ _ rfl rfl).2.1 .rbx (by decide)
  exact absurd hrbx (by decide +kernel)

end Task
end OSLib
