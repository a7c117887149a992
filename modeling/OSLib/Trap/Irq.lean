import OSLib.Foundation.Pic8259
import OSLib.Trap.Gates

/-!
# Interrupt requests

`init_interrupt` sets both interrupt controllers up, masks every line but that of the keyboard, and
enables interrupts.  `do_IRQ` ends each interrupt at the first controller only, whatever the vector.

That is enough: `irq_run` says so of every order in which the devices raise and lower their lines
and the CPU goes on, from whatever the firmware has left in the controllers.  The one request that
can be lost is an early one.  The first command of `init_interrupt` makes the controller forget the
edges it has seen, so a line that is high at that time makes a request only once it has been low
again; the statement is about keys pressed later.

Of `do_IRQ` and `init_interrupt` only the port accesses are here, which is all the controllers see;
what the stubs do around them is the subject of `OSLib.Trap.Handlers`.  The byte that is read from
the keyboard is not, as nothing depends on it.
-/

namespace OSLib
namespace Trap

open Pic8259

/-- The port accesses of `init_interrupt`, up to `sti`. -/
def initPorts : List PortOp :=
  [ -- 8259A-master ICW1-4
    .out8 0x20 0x11, .out8 0x21 0x20, .out8 0x21 0x04, .out8 0x21 0x01,
    -- 8259A-slave ICW1-4
    .out8 0xa0 0x11, .out8 0xa1 0x28, .out8 0xa1 0x02, .out8 0xa1 0x01,
    -- 8259A-M/S OCW1
    .out8 0x21 0xfd, .out8 0xa1 0xff]

/-- The port accesses of `do_IRQ`. -/
def doIrq (nr : ℕ) : List PortOp :=
  (if nr = 0x21 then [.in8 0x60] else []) ++ [.out8 0x20 0x20]

/-- What the gate of a vector leads to with interrupts off, if it is one of the stubs that call
`do_IRQ`. -/
def irqCode (v : BitVec 8) : Option (List PortOp) :=
  match (kernelIdt v.toNat).addr with
  | .irqInterrupt nr => if (kernelIdt v.toNat).isIntr then some (doIrq nr) else none
  | _ => none

/-- What `init_interrupt` leaves in the controllers. -/
def irqConfig : Config × Config :=
  ({ imr := fun n => (0xfd#8).getLsbD n, isr := fun _ => false, base := 0x20, cascade := 0x04,
     autoEoi := false, phase := .ready },
   { imr := fun n => (0xff#8).getLsbD n, isr := fun _ => false, base := 0x28, cascade := 0x02,
     autoEoi := false, phase := .ready })

/-- Whatever has been set up before. -/
theorem execAll_initPorts {g : Config × Config} (hmaster : g.1.isr = fun _ => false)
    (hslave : g.2.isr = fun _ => false) : Pair.execAll g initPorts = some irqConfig := by
  obtain ⟨⟨imr, isr, base, cascade, autoEoi, phase⟩,
    ⟨imr', isr', base', cascade', autoEoi', phase'⟩⟩ := g
  simp only at hmaster hslave
  subst hmaster hslave
  rfl

theorem irqConfig_onlyLine : OnlyLine 1 0x20 irqConfig where
  ne_two := by decide
  imr := by decide
  isr := by decide
  base := rfl
  alone := by decide
  autoEoi := rfl

/-- The end of an interrupt of the keyboard. -/
theorem execAll_eoi :
    Pair.execAll (inService 1 irqConfig) [.out8 0x20 0x20] = some irqConfig := by
  have hupdate : Pair.execAll (inService 1 irqConfig) [.out8 0x20 0x20] =
      some ({ irqConfig.1 with
        isr := Function.update (Function.update irqConfig.1.isr 1 true) 1 false },
        irqConfig.2) := rfl
  rw [hupdate, Function.update_idem, Function.update_eq_self_iff.mpr]
  rfl

/-- `do_IRQ` ends the interrupt of the keyboard, and does no harm where there is none. -/
theorem doIrq_serves (nr : ℕ) : Serves irqConfig (inService 1 irqConfig) (doIrq nr) := by
  unfold doIrq
  split
  · refine ⟨?_, rfl, execAll_eoi⟩
    rintro op (_ | ⟨_, _ | ⟨_, hop⟩⟩)
    · trivial
    · exact fun _ => rfl
    · cases hop
  · refine ⟨?_, rfl, execAll_eoi⟩
    rintro op (_ | ⟨_, hop⟩)
    · exact fun _ => rfl
    · cases hop

theorem irqCode_handles : Machine.Handles irqCode 1 0x20 irqConfig := by
  have hcode : ∀ v : BitVec 8, v = 0x21 ∨ v = 0x27 → irqCode v = some (doIrq v.toNat) := by
    rintro v (rfl | rfl) <;> rfl
  intro v hv
  exact ⟨doIrq v.toNat, hcode v hv, doIrq_serves _⟩

/-- The CPU is at the start of `init_interrupt`, and nothing is in service. -/
structure BeforeInit (s : Machine) : Prop where
  control : s.control = .setup initPorts
  master : s.pics.master.isr = fun _ => false
  slave : s.pics.slave.isr = fun _ => false

theorem BeforeInit.inv {s : Machine} (hs : BeforeInit s) : Machine.Inv 1 0x20 irqConfig s := by
  obtain ⟨p, c⟩ := s
  obtain rfl : c = .setup initPorts := hs.control
  exact execAll_initPorts hs.master hs.slave

/-- From the first command on, `init_interrupt` does not initialize the first controller again. -/
theorem BeforeInit.keeps {s : Machine} (hs : BeforeInit s) {tr : List (Action × Machine)}
    (hrun : Always (Machine.Step irqCode) s tr) (hbegun : 0 < Machine.cpuSteps tr) :
    (final s tr).Keeps := by
  induction tr generalizing s with
  | nil => exact absurd hbegun (Nat.lt_irrefl 0)
  | cons x tr ih =>
    obtain ⟨a, t⟩ := x
    obtain ⟨hstep, hrun⟩ : Machine.Step irqCode s a t ∧ Always (Machine.Step irqCode) t tr := hrun
    have hinv := hs.inv.step irqConfig_onlyLine irqCode_handles hstep
    obtain ⟨p, c⟩ := s
    obtain rfl : c = .setup initPorts := hs.control
    cases a with
    | device l b =>
      simp only [Machine.Step, Machine.step] at hstep
      split at hstep
      · cases hstep
      · obtain rfl := Option.some.inj hstep
        have hconfig : (p.setLevel b l).config = p.config := Pair.config_setLevel b l
        refine ih ⟨rfl, ?_, ?_⟩ hrun (by simpa [Machine.cpuSteps] using hbegun)
        · exact (congrArg (fun g => g.1.isr) hconfig).trans hs.master
        · exact (congrArg (fun g => g.2.isr) hconfig).trans hs.slave
    | cpu =>
      have hstep : ((p.exec (.out8 0x20 0x11)).map fun q =>
        (⟨q, .setup initPorts.tail⟩ : Machine)) = some t := hstep
      obtain ⟨q, -, rfl⟩ := Option.map_eq_some_iff.mp hstep
      have hkeeps : Machine.Keeps ⟨q, .setup initPorts.tail⟩ := by
        show ∀ op ∈ initPorts.tail, KeepsRequests op
        simp only [initPorts, List.tail_cons, List.forall_mem_cons]
        decide
      -- the code under way stays so in the rest of the run
      have hboth := Always.invariant_final
        (P := fun s => Machine.Inv 1 0x20 irqConfig s ∧ s.Keeps)
        (fun s a t h hstep => ⟨h.1.step irqConfig_onlyLine irqCode_handles hstep,
          h.2.step irqConfig_onlyLine irqCode_handles h.1 hstep⟩) ⟨hinv, hkeeps⟩ hrun
      exact hboth.2

/-- In a run out of `s` a key is pressed, and the keyboard keeps its request up: its line is low at
the end of `pre`, when the CPU has written the first command, is raised, and not lowered in
`post`. -/
structure KeyPressed (s : Machine) (tr pre : List (Action × Machine)) (t : Machine)
    (post : List (Action × Machine)) : Prop where
  run : tr = pre ++ (.device (.irq 1) true, t) :: post
  begun : 0 < Machine.cpuSteps pre
  low : (final s pre).pics.master.level 1 = false
  kept : ∀ x ∈ post, x.1 ≠ .device (.irq 1) false

/-- **Interrupts of the kernel.**  In every run from `init_interrupt` on, in which the devices act
in any order, each step is `Safe` for line 1 and vectors from `0x20` on: the CPU never gets stuck;
while it runs the kernel the controllers are as `init_interrupt` left them, with nothing in service,
and it is interrupted for a key; and it serves vector `0x21`, or `0x27` where the keyboard withdrew
its request before the CPU acknowledged it.

And when a key is pressed and the request kept up, the CPU acknowledges it and serves `0x21` within
as many of its own steps as it needs to end what it is about, whatever the devices do meanwhile. -/
theorem irq_run {s : Machine} (hs : BeforeInit s) {tr : List (Action × Machine)}
    (hrun : Always (Machine.Step irqCode) s tr) :
    Always (fun s _ t => Machine.Safe irqCode 1 0x20 irqConfig s t) s tr ∧
    ∀ pre t post, KeyPressed s tr pre t post → t.control.rank ≤ Machine.cpuSteps post →
      ∃ pre' u post', post = pre' ++ (.cpu, u) :: post' ∧
        Machine.Acknowledges irqCode 0x21 (final t pre') u := by
  refine ⟨hs.inv.always irqConfig_onlyLine irqCode_handles hrun, ?_⟩
  rintro pre t post ⟨rfl, hbegun, hlow, hkept⟩ hsteps
  obtain ⟨hpre, hstep, hpost⟩ :
      Always (Machine.Step irqCode) s pre ∧ Machine.Step irqCode (final s pre) _ t ∧
        Always (Machine.Step irqCode) t post := Always.append.mp hrun
  have hinv : Machine.Inv 1 0x20 irqConfig (final s pre) := Always.invariant_final
    (fun _ _ _ hs hstep => hs.step irqConfig_onlyLine irqCode_handles hstep) hs.inv hpre
  have hraised := hinv.step irqConfig_onlyLine irqCode_handles hstep
  obtain rfl := Option.some.inj hstep
  have hwaits := Machine.Waits.of_raise irqConfig_onlyLine.ne_two (hs.keeps hpre hbegun) hlow
  exact hwaits.served irqConfig_onlyLine irqCode_handles hraised hpost hkept hsteps

/-- The controllers as a BIOS leaves them: with its vectors, and the clock and a disk enabled. -/
def biosPics : Pair where
  master :=
    { imr := fun n => (0xb8#8).getLsbD n, isr := fun _ => false, base := 0x08, cascade := 0x04,
      autoEoi := false, phase := .ready, irr := fun n => n.val = 0,
      level := fun n => n.val = 0 }
  slave :=
    { imr := fun n => (0x8e#8).getLsbD n, isr := fun _ => false, base := 0x70, cascade := 0x02,
      autoEoi := false, phase := .ready, irr := fun n => n.val = 6,
      level := fun n => n.val = 6 }

/-- The clock ticks while the controllers are set up. -/
def beforeKey : List Action :=
  .device (.irq 0) false :: List.replicate 4 .cpu ++ .device (.irq 0) true :: List.replicate 8 .cpu

/-- Once a key is pressed the clock and a disk go on. -/
def afterKey : List Action :=
  [.cpu, .device (.irq 0) false, .device (.irq 14) false, .cpu, .cpu, .device (.irq 0) true, .cpu,
    .cpu]

/-- A run with these actions, in which the key is served. -/
theorem keyPressed_run :
    ∃ tr : List (Action × Machine),
      tr.map Prod.fst = beforeKey ++ .device (.irq 1) true :: afterKey ∧
      Always (Machine.Step irqCode) ⟨biosPics, .setup initPorts⟩ tr ∧
      Always (fun s _ t => Machine.Safe irqCode 1 0x20 irqConfig s t)
        ⟨biosPics, .setup initPorts⟩ tr ∧
      ∃ pre u post, tr = pre ++ (.cpu, u) :: post ∧
        Machine.Acknowledges irqCode 0x21 (final ⟨biosPics, .setup initPorts⟩ pre) u := by
  have hs : BeforeInit ⟨biosPics, .setup initPorts⟩ := ⟨rfl, rfl, rfl⟩
  have hacts : ∀ b, .device (.master 2) b ∉ beforeKey ++ .device (.irq 1) true :: afterKey := by
    decide
  obtain ⟨tr, hmap, hrun⟩ := hs.inv.exists_run irqConfig_onlyLine irqCode_handles hacts
  obtain ⟨hsafe, hserved⟩ := irq_run hs hrun
  refine ⟨tr, hmap, hrun, hsafe, ?_⟩
  -- the part of the run before the key is pressed, and the one after
  obtain ⟨pre, rest, rfl, hpre, hrest⟩ := List.map_eq_append_iff.mp hmap
  obtain ⟨⟨a, t⟩, post, rfl, rfl, hpost⟩ := List.map_eq_cons_iff.mp hrest
  have hcount : ∀ tr : List (Action × Machine),
      Machine.cpuSteps tr = (tr.map Prod.fst).count .cpu := by
    intro tr
    rw [List.count, List.countP_map]
    rfl
  have hpreRun := (Always.append.mp hrun).1
  have hstep : Machine.Step irqCode _ _ t := (Always.append.mp hrun).2.1
  have hstart := Machine.final_eq_foldl hpreRun
  rw [hpre] at hstart
  have hkey : KeyPressed ⟨biosPics, .setup initPorts⟩ (pre ++ (.device (.irq 1) true, t) :: post)
      pre t post := by
    refine ⟨rfl, ?_, ?_, fun x hx hdown => ?_⟩
    · rw [hcount, hpre]
      decide
    · rw [hstart]
      decide +kernel
    · have hmem := hdown ▸ List.mem_map_of_mem (f := Prod.fst) hx
      rw [hpost] at hmem
      exact absurd hmem (by decide)
  have hrank : t.control.rank ≤ Machine.cpuSteps post := by
    obtain rfl := Option.some.inj hstep
    rw [hcount, hpost, hstart]
    decide +kernel
  obtain ⟨pre', u, post', rfl, hack⟩ := hserved pre t post hkey hrank
  refine ⟨pre ++ (.device (.irq 1) true, t) :: pre', u, post', by simp, ?_⟩
  rwa [final_append, final]

end Trap
end OSLib
