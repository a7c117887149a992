import OSLib.Foundation.Emits
import OSLib.Foundation.Runs
import Mathlib.Data.Fin.Basic
import Mathlib.Logic.Function.Basic

/-!
# Two interrupt controllers

An 8259A watches eight request lines.  It interrupts the CPU for the request of highest priority
that is neither masked nor held back by a line in service; when the CPU acknowledges, the line goes
into service, until a command ends it.  A request that is withdrawn before it is acknowledged leaves
the controller without one, and then it names line 7.  On a PC a second controller is on line 2 of
the first one.

What commands write is kept apart, as `Config`, from what the devices do: `Config` changes with the
commands only, so a sequence of them can be run once and holds in whatever order the devices act
(`Pair.config_exec`).

The CPU is a `Machine` that runs a list of port accesses with interrupts off, enables them, and
serves each vector with a list of port accesses, again with interrupts off.  `Inv.always` is about
any run of it in which line `k` of the first controller is the only one that is not masked, and
`Waits.served` about the requests on that line: `Control.rank` counts the steps the CPU needs to
acknowledge one, and whatever the devices do meanwhile only a step of the CPU changes it.

Left out are the commands that neither an initialization nor an end of interrupt needs, requests by
levels, and the registers a program can read back.

## The order of the results

`config_exec` separates the two halves of a controller, and from there on a piece of code is known
by what it does to `Config` (`exec_of_execAll`).  `request_eq` and `acknowledge_eq` say what the
first controller asks and answers when one line is not masked.  The invariant `Inv` has a clause for
each `Control` of the CPU: code that is still to run leads from the present configuration to the one
in which interrupts are accepted.  One step keeps it, of the CPU or of a device, and `exists_run`
makes it certain that the CPU is never without a step.

The second half is about time.  A run has no fairness to rely on, as the devices may act as often as
they like; so the bound is on the steps of the CPU alone, and a request is served within that many
of them.
-/

namespace OSLib
namespace Pic8259

/-! ## One controller -/

/-- The writes to the odd port the controller still expects of an initialization. -/
inductive Phase where
  | ready
  | icw2 (single icw4 : Bool)
  | icw3 (icw4 : Bool)
  | icw4
  deriving DecidableEq

/-- A bit for each line. -/
abbrev Lines := Fin 8 → Bool

/-- What the commands set up, and the lines in service. -/
structure Config where
  imr : Lines
  isr : Lines
  base : BitVec 8
  cascade : BitVec 8
  autoEoi : Bool
  phase : Phase

/-- A controller: also the requests, and the levels of the lines. -/
structure Chip extends Config where
  irr : Lines
  level : Lines

namespace Config

variable (g : Config)

/-- A non-specific end of interrupt, for the line in service of highest priority. -/
def endOfInterrupt : Config :=
  match (List.finRange 8).find? g.isr with
  | some n => { g with isr := Function.update g.isr n false }
  | none => g

/-- A write to the even port: an initialization, for requests by edges, or an end of interrupt.  The
other commands are left out. -/
def writeCommand (v : BitVec 8) : Option Config :=
  if v.getLsbD 4 then
    if v.getLsbD 3 then none
    else some { g with
      imr := fun _ => false, autoEoi := false, phase := .icw2 (v.getLsbD 1) (v.getLsbD 0) }
  else if v = 0x20 then some g.endOfInterrupt
  else none

/-- A write to the odd port.  Of the fourth word only the mode for the 8086 is here, with or without
the automatic end of interrupt. -/
def writeData (v : BitVec 8) : Option Config :=
  match g.phase with
  | .ready => some { g with imr := fun n => v.getLsbD n }
  | .icw2 single icw4 =>
    some { g with
      base := v &&& 0xf8,
      phase := if single then (if icw4 then .icw4 else .ready) else .icw3 icw4 }
  | .icw3 icw4 => some { g with cascade := v, phase := if icw4 then .icw4 else .ready }
  | .icw4 =>
    if v &&& 0xfd = 0x01 then some { g with autoEoi := v.getLsbD 1, phase := .ready } else none

end Config

namespace Chip

variable (c : Chip)

/-- A line changes.  A request is an edge, and lasts as long as the level does. -/
def setLevel (n : Fin 8) (b : Bool) : Chip :=
  { c with
    level := Function.update c.level n b,
    irr := Function.update c.irr n (b && (c.irr n || !c.level n)) }

/-- The line the controller interrupts the CPU for. -/
def request : Option (Fin 8) :=
  (List.finRange 8).find? fun n => c.irr n && !c.imr n && decide (∀ i ≤ n, c.isr i = false)

/-- What the controller does when the CPU acknowledges, and the line it names. -/
def acknowledge : Fin 8 × Chip :=
  match c.request with
  | some n =>
    (n, { c with
      irr := Function.update c.irr n false,
      isr := if c.autoEoi then c.isr else Function.update c.isr n true })
  | none => (7, c)

/-- A write to the even port.  An initialization also forgets the edges. -/
def writeCommand (v : BitVec 8) : Option Chip :=
  (c.toConfig.writeCommand v).map fun g =>
    { toConfig := g, irr := if v.getLsbD 4 then fun _ => false else c.irr, level := c.level }

/-- A write to the odd port. -/
def writeData (v : BitVec 8) : Option Chip :=
  (c.toConfig.writeData v).map fun g => { c with toConfig := g }

end Chip

/-! ## Both -/

/-- The controller at ports `0x20` and `0x21`, and the one at `0xa0` and `0xa1`. -/
structure Pair where
  master : Chip
  slave : Chip

/-- A line a device may be on. -/
inductive Line where
  | master (n : Fin 8)
  | slave (n : Fin 8)
  deriving DecidableEq

/-- The lines numbered through. -/
def Line.irq (n : ℕ) : Line :=
  if h : n < 8 then .master ⟨n, h⟩ else .slave ⟨n % 8, Nat.mod_lt n (by decide)⟩

/-- An access to a port. -/
inductive PortOp where
  | in8 (port : BitVec 16)
  | out8 (port : BitVec 16) (v : BitVec 8)
  deriving DecidableEq

/-- The ports of the controllers. -/
def ports : List (BitVec 16) := [0x20, 0x21, 0xa0, 0xa1]

namespace Pair

variable (p : Pair)

/-- The output of the second controller is line 2 of the first one. -/
def wire : Pair := { p with master := p.master.setLevel 2 p.slave.request.isSome }

/-- The CPU is asked to take an interrupt. -/
def intr : Bool := p.master.request.isSome

/-- A device changes its line. -/
def setLevel (b : Bool) : Line → Pair
  | .master n => wire { p with master := p.master.setLevel n b }
  | .slave n => wire { p with slave := p.slave.setLevel n b }

/-- The vector the CPU reads when it acknowledges.  For a line with a controller on it that one
gives the vector, if the line is the one it has been told. -/
def acknowledge : Option (BitVec 8 × Pair) :=
  let (n, master) := p.master.acknowledge
  if p.master.request = some n ∧ p.master.cascade.getLsbD n then
    if p.slave.cascade = BitVec.ofNat 8 n then
      let (k, slave) := p.slave.acknowledge
      some (p.slave.base + BitVec.ofNat 8 k, wire ⟨master, slave⟩)
    else none
  else some (p.master.base + BitVec.ofNat 8 n, wire { p with master := master })

/-- An access to a port.  The registers of the controllers are not read. -/
def exec : PortOp → Option Pair
  | .in8 port => if port ∈ ports then none else some p
  | .out8 port v =>
    if port = 0x20 then (p.master.writeCommand v).map fun c => wire { p with master := c }
    else if port = 0x21 then (p.master.writeData v).map fun c => wire { p with master := c }
    else if port = 0xa0 then (p.slave.writeCommand v).map fun c => wire { p with slave := c }
    else if port = 0xa1 then (p.slave.writeData v).map fun c => wire { p with slave := c }
    else some p

end Pair

/-! ## The CPU -/

/-- What the CPU does: it sets the controllers up with interrupts off, runs a program with
interrupts on, acknowledges, or serves a vector with interrupts off. -/
inductive Control where
  | setup (rest : List PortOp)
  | running
  | accepting
  | serving (v : BitVec 8) (rest : List PortOp)

/-- The accesses still to be made with interrupts off. -/
def Control.rest : Control → List PortOp
  | .setup rest => rest
  | .running => []
  | .accepting => []
  | .serving _ rest => rest

/-- How many steps the CPU needs to acknowledge a request: it ends the code under way, enables
interrupts, and sees the request. -/
def Control.rank : Control → ℕ
  | .setup rest => rest.length + 3
  | .running => 2
  | .accepting => 1
  | .serving _ rest => rest.length + 3

/-- The CPU and the controllers. -/
structure Machine where
  pics : Pair
  control : Control

/-- What can happen: a device changes its line, or the CPU goes on. -/
inductive Action where
  | device (l : Line) (b : Bool)
  | cpu
  deriving DecidableEq

namespace Machine

variable (serve : BitVec 8 → Option (List PortOp))

/-- The CPU goes on.  Where interrupts are on it looks for a request after each instruction. -/
def cpuStep (s : Machine) : Option Machine :=
  match s.control with
  | .setup [] => some { s with control := .running }
  | .setup (op :: rest) => (s.pics.exec op).map fun p => ⟨p, .setup rest⟩
  | .running => some { s with control := if s.pics.intr then .accepting else .running }
  | .accepting => do
    let (v, p) ← s.pics.acknowledge
    let code ← serve v
    return ⟨p, .serving v code⟩
  | .serving _ [] => some { s with control := .running }
  | .serving v (op :: rest) => (s.pics.exec op).map fun p => ⟨p, .serving v rest⟩

/-- One step.  Line 2 of the first controller is not a device's. -/
def step (s : Machine) : Action → Option Machine
  | .device l b => if l = .master 2 then none else some { s with pics := s.pics.setLevel b l }
  | .cpu => s.cpuStep serve

/-- The step as a relation. -/
def Step (s : Machine) (a : Action) (t : Machine) : Prop := s.step serve a = some t

end Machine

/-! ## What the commands set up -/

namespace Pair

variable {p q : Pair} {op : PortOp}

/-- Both configurations. -/
def config (p : Pair) : Config × Config := (p.master.toConfig, p.slave.toConfig)

/-- What an access does to them. -/
def execConfig (g : Config × Config) : PortOp → Option (Config × Config)
  | .in8 port => if port ∈ ports then none else some g
  | .out8 port v =>
    if port = 0x20 then (g.1.writeCommand v).map fun c => (c, g.2)
    else if port = 0x21 then (g.1.writeData v).map fun c => (c, g.2)
    else if port = 0xa0 then (g.2.writeCommand v).map fun c => (g.1, c)
    else if port = 0xa1 then (g.2.writeData v).map fun c => (g.1, c)
    else some g

/-- What a list of accesses does. -/
def execAll (g : Config × Config) (ops : List PortOp) : Option (Config × Config) :=
  ops.foldlM execConfig g

@[simp] theorem config_wire : p.wire.config = p.config := rfl

@[simp] theorem config_setLevel (b : Bool) (l : Line) : (p.setLevel b l).config = p.config := by
  cases l <;> rfl

/-- **The devices have no part in what a command sets up.** -/
theorem config_exec (p : Pair) (op : PortOp) : (p.exec op).map config = execConfig p.config op := by
  cases op with
  | in8 port =>
    simp only [exec, execConfig]
    split <;> rfl
  | out8 port v =>
    have hcommand : ∀ c : Chip,
        (c.writeCommand v).map Chip.toConfig = c.toConfig.writeCommand v := by
      intro c
      simp [Chip.writeCommand, Function.comp_def]
    have hdata : ∀ c : Chip, (c.writeData v).map Chip.toConfig = c.toConfig.writeData v := by
      intro c
      simp [Chip.writeData, Function.comp_def]
    simp only [exec, execConfig, config, ← hcommand, ← hdata]
    split
    · simp [config, wire, Function.comp_def, Chip.setLevel]
    split
    · simp [config, wire, Function.comp_def, Chip.setLevel]
    split
    · simp [config, wire, Function.comp_def, Chip.setLevel]
    split
    · simp [config, wire, Function.comp_def, Chip.setLevel]
    · rfl

/-- An access that its configuration allows is made. -/
theorem exec_of_execAll {g : Config × Config} {ops : List PortOp}
    (h : execAll p.config (op :: ops) = some g) :
    ∃ q, p.exec op = some q ∧ execAll q.config ops = some g := by
  rw [execAll, List.foldlM_cons, ← config_exec] at h
  cases hq : p.exec op with
  | none => simp [hq] at h
  | some q => exact ⟨q, rfl, by simpa [hq, execAll] using h⟩

end Pair

/-! ## One line that is not masked -/

variable {k : Fin 8} {v : BitVec 8} {g : Config × Config} {p q : Pair}

/-- The first controller is set up with vectors from `base` on, all its lines but `k` are masked,
and none is in service. -/
structure OnlyLine (k : Fin 8) (base : BitVec 8) (g : Config × Config) : Prop where
  ne_two : k ≠ 2
  imr : ∀ n, g.1.imr n = decide (n ≠ k)
  isr : ∀ n, g.1.isr n = false
  base : g.1.base = base
  alone : g.1.cascade.getLsbD k = false
  autoEoi : g.1.autoEoi = false

/-- The line is in service. -/
def inService (k : Fin 8) (g : Config × Config) : Config × Config :=
  ({ g.1 with isr := Function.update g.1.isr k true }, g.2)

namespace OnlyLine

variable {base : BitVec 8}

/-- The line is the one the CPU is interrupted for. -/
theorem request_eq (hg : OnlyLine k base g) (hp : p.config = g) :
    p.master.request = if p.master.irr k then some k else none := by
  have himr : ∀ n, p.master.imr n = decide (n ≠ k) := by
    intro n
    rw [← hg.imr n, ← hp]
    rfl
  have hisr : ∀ n, p.master.isr n = false := by
    intro n
    rw [← hg.isr n, ← hp]
    rfl
  have hpred : (fun n => p.master.irr n && !p.master.imr n &&
      decide (∀ i ≤ n, p.master.isr i = false)) = fun n => decide (n = k) && p.master.irr k := by
    ext n
    by_cases hn : n = k
    · simp [hn, himr, hisr]
    · simp [hn, himr]
  have hfind : ∀ k : Fin 8, (List.finRange 8).find? (fun n => decide (n = k)) = some k := by decide
  rw [Chip.request, hpred]
  cases p.master.irr k with
  | false => simp
  | true => simp [hfind]

theorem intr_eq (hg : OnlyLine k base g) (hp : p.config = g) : p.intr = p.master.irr k := by
  rw [Pair.intr, hg.request_eq hp]
  cases p.master.irr k <;> rfl

/-- **What the CPU reads**: the vector of the line, or that of line 7 if the request has gone. -/
theorem acknowledge_eq (hg : OnlyLine k base g) (hp : p.config = g) :
    if p.master.irr k then
      ∃ q, p.acknowledge = some (base + BitVec.ofNat 8 k, q) ∧ q.config = inService k g
    else ∃ q, p.acknowledge = some (base + 7, q) ∧ q.config = g := by
  have hrequest := hg.request_eq hp
  have hbase : p.master.base = base := by
    rw [← hg.base, ← hp]
    rfl
  have halone : p.master.cascade[(k : ℕ)] = false := by
    rw [← BitVec.getLsbD_eq_getElem, ← hg.alone, ← hp]
    rfl
  have heoi : p.master.autoEoi = false := by
    rw [← hg.autoEoi, ← hp]
    rfl
  cases hirr : p.master.irr k with
  | false =>
    rw [hirr] at hrequest
    simp only [Bool.false_eq_true, if_false] at hrequest ⊢
    refine ⟨Pair.wire p, ?_, hp⟩
    simp [Pair.acknowledge, Chip.acknowledge, hrequest, hbase]
  | true =>
    rw [hirr] at hrequest
    simp only [if_true] at hrequest ⊢
    refine ⟨Pair.wire { p with master := p.master.acknowledge.2 }, ?_, ?_⟩
    · simp [Pair.acknowledge, Chip.acknowledge, hrequest, halone, hbase]
    · rw [Pair.config_wire]
      simp [Pair.config, Chip.acknowledge, hrequest, inService, ← hp, heoi]

end OnlyLine

/-! ## Code that serves a vector -/

/-- An access that does not start an initialization of the first controller. -/
def KeepsRequests : PortOp → Prop
  | .in8 _ => True
  | .out8 port v => port = 0x20 → v.getLsbD 4 = false

instance (op : PortOp) : Decidable (KeepsRequests op) := by
  cases op <;> unfold KeepsRequests <;> infer_instance

/-- Code that serves a vector: whether the line is in service or not, nothing is afterwards. -/
structure Serves (g g' : Config × Config) (code : List PortOp) : Prop where
  keeps : ∀ op ∈ code, KeepsRequests op
  ends : Pair.execAll g code = some g
  ends' : Pair.execAll g' code = some g

/-- A request on another line than 2 is not affected. -/
theorem irr_exec {op : PortOp} (hk : k ≠ 2) (hop : KeepsRequests op) (h : p.exec op = some q) :
    q.master.irr k = p.master.irr k := by
  have hwire : ∀ r : Pair, r.wire.master.irr k = r.master.irr k := by
    intro r
    simp [Pair.wire, Chip.setLevel, hk]
  cases op with
  | in8 port =>
    simp only [Pair.exec] at h
    split at h
    · cases h
    · rw [Option.some.inj h]
  | out8 port v =>
    simp only [Pair.exec] at h
    split at h
    · next hport =>
      have hv : v.getLsbD 4 = false := hop hport
      obtain ⟨c, hc, rfl⟩ := Option.map_eq_some_iff.mp h
      obtain ⟨g, -, rfl⟩ := Option.map_eq_some_iff.mp hc
      simp only [hwire, hv, Bool.false_eq_true, if_false]
    split at h
    · obtain ⟨c, hc, rfl⟩ := Option.map_eq_some_iff.mp h
      obtain ⟨g, -, rfl⟩ := Option.map_eq_some_iff.mp hc
      simp [hwire]
    split at h
    · obtain ⟨c, -, rfl⟩ := Option.map_eq_some_iff.mp h
      simp [hwire]
    split at h
    · obtain ⟨c, -, rfl⟩ := Option.map_eq_some_iff.mp h
      simp [hwire]
    · rw [Option.some.inj h]

/-! ## Runs -/

namespace Machine

variable {serve : BitVec 8 → Option (List PortOp)} {base : BitVec 8} {s t : Machine} {a : Action}

/-- What holds in every state.  Code that is under way leads to the configuration `g`. -/
def Inv (k : Fin 8) (base : BitVec 8) (g : Config × Config) (s : Machine) : Prop :=
  match s.control with
  | .setup rest => Pair.execAll s.pics.config rest = some g
  | .running => s.pics.config = g
  | .accepting => s.pics.config = g
  | .serving v rest =>
    (v = base + BitVec.ofNat 8 k ∨ v = base + 7) ∧ Pair.execAll s.pics.config rest = some g ∧
      ∀ op ∈ rest, KeepsRequests op

/-- The code that serves the two vectors. -/
def Handles (serve : BitVec 8 → Option (List PortOp)) (k : Fin 8) (base : BitVec 8)
    (g : Config × Config) : Prop :=
  ∀ v, v = base + BitVec.ofNat 8 k ∨ v = base + 7 →
    ∃ code, serve v = some code ∧ Serves g (inService k g) code

/-- A device changes nothing of it. -/
theorem Inv.device (h : Inv k base g s) (b : Bool) (l : Line) :
    Inv k base g { s with pics := s.pics.setLevel b l } := by
  obtain ⟨p, c⟩ := s
  cases c <;> simpa [Inv] using h

theorem acceptingStep {code : List PortOp} (hq : p.acknowledge = some (v, q))
    (hcode : serve v = some code) :
    (⟨p, .accepting⟩ : Machine).cpuStep serve = some ⟨q, .serving v code⟩ := by
  simp [Machine.cpuStep, hq, hcode]

/-- **The CPU can always go on**, and what holds is kept. -/
theorem Inv.cpuStep (hg : OnlyLine k base g) (hserve : Handles serve k base g)
    (h : Inv k base g s) : ∃ t, s.cpuStep serve = some t ∧ Inv k base g t := by
  obtain ⟨p, c⟩ := s
  cases c with
  | setup rest =>
    cases rest with
    | nil => exact ⟨⟨p, .running⟩, rfl, Option.some.inj h⟩
    | cons op rest =>
      obtain ⟨q, hq, hrest⟩ := Pair.exec_of_execAll h
      exact ⟨⟨q, .setup rest⟩, by simp [Machine.cpuStep, hq], hrest⟩
  | running =>
    refine ⟨_, rfl, ?_⟩
    cases p.intr <;> exact h
  | accepting =>
    have hack := hg.acknowledge_eq (p := p) h
    split at hack
    · obtain ⟨q, hq, hconfig⟩ := hack
      obtain ⟨code, hcode, hserves⟩ := hserve _ (.inl rfl)
      refine ⟨⟨q, .serving _ code⟩, acceptingStep hq hcode, .inl rfl, ?_, hserves.keeps⟩
      rw [hconfig]
      exact hserves.ends'
    · obtain ⟨q, hq, hconfig⟩ := hack
      obtain ⟨code, hcode, hserves⟩ := hserve _ (.inr rfl)
      refine ⟨⟨q, .serving _ code⟩, acceptingStep hq hcode, .inr rfl, ?_, hserves.keeps⟩
      rw [hconfig]
      exact hserves.ends
  | serving v rest =>
    obtain ⟨hv, hrest, hkeeps⟩ := h
    cases rest with
    | nil => exact ⟨⟨p, .running⟩, rfl, Option.some.inj hrest⟩
    | cons op rest =>
      obtain ⟨q, hq, hend⟩ := Pair.exec_of_execAll hrest
      exact ⟨⟨q, .serving v rest⟩, by simp [Machine.cpuStep, hq], hv, hend,
        fun op' hop' => hkeeps op' (List.mem_cons_of_mem _ hop')⟩

theorem Inv.step (hg : OnlyLine k base g) (hserve : Handles serve k base g) (h : Inv k base g s)
    (hstep : Step serve s a t) : Inv k base g t := by
  cases a with
  | device l b =>
    simp only [Step, Machine.step] at hstep
    split at hstep
    · cases hstep
    · rw [← Option.some.inj hstep]
      exact h.device b l
  | cpu =>
    obtain ⟨u, hu, hinv⟩ := h.cpuStep hg hserve
    rw [← Option.some.inj (hu.symm.trans hstep)]
    exact hinv

/-- The devices and the CPU may act in any order. -/
theorem Inv.exists_run (hg : OnlyLine k base g) (hserve : Handles serve k base g)
    (h : Inv k base g s) {acts : List Action} (hacts : ∀ b, .device (.master 2) b ∉ acts) :
    ∃ tr : List (Action × Machine), tr.map Prod.fst = acts ∧ Always (Step serve) s tr := by
  induction acts generalizing s with
  | nil => exact ⟨[], rfl, trivial⟩
  | cons a acts ih =>
    have hstep : ∃ t, Step serve s a t := by
      cases a with
      | device l b =>
        have hl : l ≠ .master 2 := by
          rintro rfl
          exact hacts b List.mem_cons_self
        exact ⟨_, if_neg hl⟩
      | cpu =>
        obtain ⟨t, ht, -⟩ := h.cpuStep hg hserve
        exact ⟨t, ht⟩
    obtain ⟨t, ht⟩ := hstep
    obtain ⟨tr, hacts', hrun⟩ := ih (h.step hg hserve ht) fun b hb =>
      hacts b (List.mem_cons_of_mem _ hb)
    exact ⟨(a, t) :: tr, by simp [hacts'], ht, hrun⟩

/-- The actions determine the run. -/
theorem final_eq_foldl {tr : List (Action × Machine)} (hrun : Always (Step serve) s tr) :
    final s tr = (tr.map Prod.fst).foldl (fun s a => (s.step serve a).getD s) s := by
  induction tr generalizing s with
  | nil => rfl
  | cons x tr ih =>
    obtain ⟨hstep, hrun⟩ : s.step serve x.1 = some x.2 ∧ Always (Step serve) x.2 tr := hrun
    rw [final, ih hrun, List.map_cons, List.foldl_cons, hstep, Option.getD_some]

/-- Which vector is served. -/
theorem Inv.withdrawn {rest : List PortOp} (hg : OnlyLine k base g)
    (hserve : Handles serve k base g) (h : Inv k base g s) (hstep : Step serve s a t)
    (haccepting : s.control = .accepting) (hserving : t.control = .serving v rest) :
    v = base + BitVec.ofNat 8 (if s.pics.master.irr k then k else 7) := by
  obtain ⟨p, c⟩ := s
  obtain rfl : c = .accepting := haccepting
  cases a with
  | device l b =>
    simp only [Step, Machine.step] at hstep
    split at hstep
    · cases hstep
    · rw [← Option.some.inj hstep] at hserving
      cases hserving
  | cpu =>
    have hack := hg.acknowledge_eq (p := p) h
    have hvector : ∀ w q, p.acknowledge = some (w, q) → (∃ code, serve w = some code) → w = v := by
      rintro w q hq ⟨code, hcode⟩
      rw [← Option.some.inj ((acceptingStep hq hcode).symm.trans hstep)] at hserving
      exact (Control.serving.inj hserving).1
    cases hirr : p.master.irr k with
    | true =>
      rw [if_pos hirr] at hack
      obtain ⟨q, hq, -⟩ := hack
      obtain ⟨code, hcode, -⟩ := hserve _ (.inl rfl)
      simp [← hvector _ _ hq ⟨code, hcode⟩]
    | false =>
      rw [if_neg (by simp [hirr])] at hack
      obtain ⟨q, hq, -⟩ := hack
      obtain ⟨code, hcode, -⟩ := hserve _ (.inr rfl)
      rw [← hvector _ _ hq ⟨code, hcode⟩]
      simp

/-- What a step may do. -/
structure Safe (serve : BitVec 8 → Option (List PortOp)) (k : Fin 8) (base : BitVec 8)
    (g : Config × Config) (s t : Machine) : Prop where
  goes : ∃ u, t.cpuStep serve = some u
  running : t.control = .running → t.pics.config = g ∧ t.pics.intr = t.pics.master.irr k
  vector : ∀ v rest, t.control = .serving v rest → v = base + BitVec.ofNat 8 k ∨ v = base + 7
  withdrawn : ∀ v rest, s.control = .accepting → t.control = .serving v rest →
    v = base + BitVec.ofNat 8 (if s.pics.master.irr k then k else 7)

/-- **Runs of a system with one line that is not masked.**  The CPU never gets stuck.  While it runs
its program nothing is in service, and it is interrupted when there is a request on the line.  It
serves no vectors but that of the line and, where a request was withdrawn before the CPU
acknowledged it, that of line 7. -/
theorem Inv.always (hg : OnlyLine k base g) (hserve : Handles serve k base g) (h : Inv k base g s)
    {tr : List (Action × Machine)} (hrun : Always (Step serve) s tr) :
    Always (fun s _ t => Safe serve k base g s t) s tr := by
  have hstep : ∀ s a t, Inv k base g s → Step serve s a t → Inv k base g t :=
    fun _ _ _ hs ht => hs.step hg hserve ht
  refine Always.mono ?_ (Always.invariant_both hstep h hrun)
  rintro s a t ⟨hs, hstep, ht⟩
  refine ⟨?_, ?_, ?_, ?_⟩
  · obtain ⟨u, hu, -⟩ := ht.cpuStep hg hserve
    exact ⟨u, hu⟩
  · intro hcontrol
    have hconfig : t.pics.config = g := by simpa [Inv, hcontrol] using ht
    exact ⟨hconfig, hg.intr_eq hconfig⟩
  · intro v rest hcontrol
    simp only [Inv, hcontrol] at ht
    exact ht.1
  · intro v rest haccepting hserving
    exact hs.withdrawn hg hserve hstep haccepting hserving

/-! ## Requests that are kept up -/

/-- The code under way starts no initialization of the first controller. -/
def Keeps (s : Machine) : Prop := ∀ op ∈ s.control.rest, KeepsRequests op

theorem Keeps.step (hg : OnlyLine k base g) (hserve : Handles serve k base g) (h : Inv k base g s)
    (hkeeps : s.Keeps) (hstep : Step serve s a t) : t.Keeps := by
  have hinv := h.step hg hserve hstep
  obtain ⟨p, c⟩ := s
  cases a with
  | device l b =>
    simp only [Step, Machine.step] at hstep
    split at hstep
    · cases hstep
    · obtain rfl := Option.some.inj hstep
      exact hkeeps
  | cpu =>
    have hstep : (⟨p, c⟩ : Machine).cpuStep serve = some t := hstep
    cases c with
    | setup rest =>
      cases rest with
      | nil =>
        obtain rfl := Option.some.inj hstep
        exact fun op hop => absurd hop List.not_mem_nil
      | cons op rest =>
        obtain ⟨q, -, rfl⟩ := Option.map_eq_some_iff.mp hstep
        exact (List.forall_mem_cons.mp hkeeps).2
    | running =>
      obtain rfl := Option.some.inj hstep
      cases p.intr <;> exact fun op hop => absurd hop List.not_mem_nil
    | accepting =>
      simp only [Machine.cpuStep, Option.bind_eq_bind, Option.bind_eq_some_iff,
        Prod.exists] at hstep
      obtain ⟨v, q, -, code, -, ht⟩ := hstep
      obtain rfl := Option.some.inj ht
      exact hinv.2.2
    | serving v rest =>
      cases rest with
      | nil =>
        obtain rfl := Option.some.inj hstep
        exact fun op hop => absurd hop List.not_mem_nil
      | cons op rest =>
        obtain ⟨q, -, rfl⟩ := Option.map_eq_some_iff.mp hstep
        exact (List.forall_mem_cons.mp hkeeps).2

/-- There is a request on the line, and the code under way does not forget it. -/
structure Waits (k : Fin 8) (s : Machine) : Prop where
  irr : s.pics.master.irr k = true
  keeps : s.Keeps

/-- A device makes a request when it raises its line. -/
theorem Waits.of_raise (hk : k ≠ 2) (hkeeps : s.Keeps) (hlow : s.pics.master.level k = false) :
    Waits k { s with pics := s.pics.setLevel true (.master k) } where
  irr := by simp [Pair.setLevel, Pair.wire, Chip.setLevel, hk, hlow]
  keeps := hkeeps

/-- The devices cannot take a request back, but for the one that made it. -/
theorem Waits.device (hk : k ≠ 2) (h : s.Waits k) {l : Line} {b : Bool}
    (hkept : l = .master k → b = true) :
    Waits k { s with pics := s.pics.setLevel b l } where
  irr := by
    have hirr := h.irr
    cases l with
    | slave n => simpa [Pair.setLevel, Pair.wire, Chip.setLevel, hk] using hirr
    | master n =>
      by_cases hn : n = k
      · obtain rfl := hkept (by rw [hn])
        simp [Pair.setLevel, Pair.wire, Chip.setLevel, hk, hn, hirr]
      · simpa [Pair.setLevel, Pair.wire, Chip.setLevel, hk, Ne.symm hn] using hirr
  keeps := h.keeps

/-- The CPU acknowledges the request in this step, and goes on to serve it. -/
def Acknowledges (serve : BitVec 8 → Option (List PortOp)) (v : BitVec 8) (s t : Machine) : Prop :=
  s.control = .accepting ∧ ∃ code, serve v = some code ∧ t.control = .serving v code

/-- **Each step of the CPU brings it closer** to the acknowledgement, or is that. -/
theorem Waits.cpu (hg : OnlyLine k base g) (hserve : Handles serve k base g) (h : Inv k base g s)
    (hw : s.Waits k) (hstep : Step serve s .cpu t) :
    Acknowledges serve (base + BitVec.ofNat 8 k) s t ∨
      t.Waits k ∧ t.control.rank + 1 = s.control.rank := by
  have hkeeps : t.Keeps := hw.keeps.step hg hserve h hstep
  have hexec : ∀ {p q : Pair} {op : PortOp}, p.master.irr k = true → KeepsRequests op →
      p.exec op = some q → q.master.irr k = true := fun hirr hop hq =>
    (irr_exec hg.ne_two hop hq).trans hirr
  obtain ⟨p, c⟩ := s
  have hirr : p.master.irr k = true := hw.irr
  have hstep : (⟨p, c⟩ : Machine).cpuStep serve = some t := hstep
  cases c with
  | setup rest =>
    cases rest with
    | nil =>
      obtain rfl := Option.some.inj hstep
      exact .inr ⟨⟨hirr, hkeeps⟩, rfl⟩
    | cons op rest =>
      obtain ⟨q, hq, rfl⟩ := Option.map_eq_some_iff.mp hstep
      exact .inr ⟨⟨hexec hirr (hw.keeps op List.mem_cons_self) hq, hkeeps⟩, rfl⟩
  | running =>
    -- the CPU sees the request
    have hintr : p.intr = true := (hg.intr_eq h).trans hirr
    simp only [Machine.cpuStep, hintr, if_true] at hstep
    obtain rfl := Option.some.inj hstep
    exact .inr ⟨⟨hirr, hkeeps⟩, rfl⟩
  | accepting =>
    have hack := hg.acknowledge_eq (p := p) h
    rw [if_pos hirr] at hack
    obtain ⟨q, hq, -⟩ := hack
    obtain ⟨code, hcode, -⟩ := hserve _ (.inl rfl)
    obtain rfl := Option.some.inj ((acceptingStep hq hcode).symm.trans hstep)
    exact .inl ⟨rfl, code, hcode, rfl⟩
  | serving v rest =>
    cases rest with
    | nil =>
      obtain rfl := Option.some.inj hstep
      exact .inr ⟨⟨hirr, hkeeps⟩, rfl⟩
    | cons op rest =>
      obtain ⟨q, hq, rfl⟩ := Option.map_eq_some_iff.mp hstep
      exact .inr ⟨⟨hexec hirr (hw.keeps op List.mem_cons_self) hq, hkeeps⟩, rfl⟩

/-- How often the CPU goes on in a run. -/
def cpuSteps (tr : List (Action × Machine)) : ℕ := tr.countP fun x => x.1 = .cpu

/-- **A request that is kept up is served**, whatever else the devices do: as soon as the CPU has
made as many steps as it needs. -/
theorem Waits.served (hg : OnlyLine k base g) (hserve : Handles serve k base g)
    (h : Inv k base g s) (hw : s.Waits k) {tr : List (Action × Machine)}
    (hrun : Always (Step serve) s tr) (hkept : ∀ x ∈ tr, x.1 ≠ .device (.master k) false)
    (hsteps : s.control.rank ≤ cpuSteps tr) :
    ∃ pre t post, tr = pre ++ (.cpu, t) :: post ∧
      Acknowledges serve (base + BitVec.ofNat 8 k) (final s pre) t := by
  induction tr generalizing s with
  | nil =>
    obtain ⟨p, c⟩ := s
    cases c <;> exact absurd hsteps (by simp [Control.rank, cpuSteps])
  | cons x tr ih =>
    obtain ⟨a, t⟩ := x
    obtain ⟨hstep, hrun⟩ : Step serve s a t ∧ Always (Step serve) t tr := hrun
    obtain ⟨hx, hkept⟩ := List.forall_mem_cons.mp hkept
    have hinv := h.step hg hserve hstep
    have hlater : t.Waits k → t.control.rank ≤ cpuSteps tr →
        ∃ pre u post, (a, t) :: tr = pre ++ (.cpu, u) :: post ∧
          Acknowledges serve (base + BitVec.ofNat 8 k) (final s pre) u := by
      intro hw hsteps
      obtain ⟨pre, u, post, rfl, hserves⟩ := ih hinv hw hrun hkept hsteps
      exact ⟨(a, t) :: pre, u, post, rfl, hserves⟩
    cases a with
    | device l b =>
      simp only [Step, Machine.step] at hstep
      split at hstep
      · cases hstep
      · obtain rfl := Option.some.inj hstep
        refine hlater (hw.device hg.ne_two fun hl => ?_) (by simpa [cpuSteps] using hsteps)
        by_contra hb
        exact hx (by rw [hl, (Bool.not_eq_true b).mp hb])
    | cpu =>
      rcases hw.cpu hg hserve h hstep with hserves | ⟨hw, hrank⟩
      · exact ⟨[], t, tr, rfl, hserves⟩
      · have hcount : cpuSteps ((.cpu, t) :: tr) = cpuSteps tr + 1 := by simp [cpuSteps]
        exact hlater hw (by omega)

end Machine

end Pic8259
end OSLib
