import OSLib.Foundation.Runs
import OSLib.Trap.Gates

/-!
# Nested deliveries

An exception or an interrupt request is delivered on the stack its gate names: the CPU loads `rsp`
from the slot of the TSS and pushes its frame there.  The handler then uses the stack below the
frame until it returns.  Exceptions may come at any time; interrupt requests need interrupts
enabled, and they find them enabled inside a handler that was entered through a trap gate.

The exceptions share slot 1 and the requests slot 2, and both slots hold the same address.  So a
delivery inside a handler starts again at the top of the stack the handler lives on:
`always_intact_iff` says that the frames and stacks of a run stay intact exactly when no delivery
of the run comes while a handler is active.

The handlers are abstract: an active handler owns the stack from the frame of its delivery down, and
whatever is pushed there by another delivery while it is active destroys it.  How much of its stack
it has used does not come into it, as the new frame is put at the top.
-/

namespace OSLib
namespace Trap

/-! ## The CPU and its handlers -/

/-- A handler that has not returned: its vector, its stack from `low` up to `top`, and the interrupt
flag that was saved. -/
structure Handler where
  vector : ℕ
  top : ℕ
  low : ℕ
  savedIf : Bool

/-- The interrupt flag, the TSS and the active handlers, the innermost one first. -/
structure CpuState where
  intrFlag : Bool
  tss : Tss
  active : List Handler

/-- What can happen: a delivery; the innermost handler moving its stack down or up; its `iretq`; the
code outside all handlers setting the interrupt flag; and a task switch there, which writes the TSS
again. -/
inductive Event where
  | deliver (v : ℕ)
  | useStack (low : ℕ)
  | iret
  | setIf (b : Bool)
  | switchTo (rsp0 rsp1 rsp2 : BitVec 64)

/-- The bytes the CPU pushes: `ss`, `rsp`, `rflags`, `cs`, `rip` and perhaps an error code. -/
def frameSize (v : ℕ) : ℕ := if HasErrorCode v then 48 else 40

namespace CpuState

variable (s : CpuState)

/-- The end of the frame of a delivery. -/
def stackTop (v : ℕ) : ℕ := ((kernelIdt v).stackTop s.tss).toNat

/-- An installed exception comes at any time, an interrupt request when interrupts are enabled. -/
def Permits (v : ℕ) : Prop := v ∈ sysVectors ∨ v ∈ irqVectors ∧ s.intrFlag = true

/-- The state after a delivery. -/
def deliver (v : ℕ) : CpuState where
  intrFlag := if (kernelIdt v).isIntr then false else s.intrFlag
  tss := s.tss
  active := ⟨v, s.stackTop v, s.stackTop v - frameSize v, s.intrFlag⟩ :: s.active

end CpuState

/-- One step of the CPU. -/
def Step (s : CpuState) (e : Event) (t : CpuState) : Prop :=
  match e with
  | .deliver v => s.Permits v ∧ t = s.deliver v
  | .useStack low => ∃ h hs, s.active = h :: hs ∧ low + frameSize h.vector ≤ h.top ∧
      t = { s with active := { h with low := low } :: hs }
  | .iret => ∃ h hs, s.active = h :: hs ∧ t = { s with active := hs, intrFlag := h.savedIf }
  | .setIf b => s.active = [] ∧ t = { s with intrFlag := b }
  | .switchTo rsp0 rsp1 rsp2 =>
      s.active = [] ∧ t = { s with tss := kernelTss rsp0 rsp1 rsp2 s.tss }

/-- The step overwrites nothing of an active handler: no address of its frame and stack is one the
CPU pushes the new frame to. -/
def Intact (s : CpuState) (e : Event) : Prop :=
  ∀ v, e = .deliver v → ∀ h ∈ s.active, ∀ a, h.low ≤ a → a < h.top →
    ¬ (s.stackTop v - frameSize v ≤ a ∧ a < s.stackTop v)

/-- The step is no delivery inside a handler. -/
def Unnested (s : CpuState) (e : Event) : Prop := ∀ v, e = .deliver v → s.active = []

/-! ## One step -/

/-- All slots hold the one address, and every active handler lives below it. -/
structure OneStack (s : CpuState) : Prop where
  ist : ∀ n, 1 ≤ n → n ≤ 7 → s.tss.ist n = istTop
  handler : ∀ h ∈ s.active, h.top = istTop.toNat ∧ h.low + frameSize h.vector ≤ h.top

variable {s t : CpuState} {e : Event} {v : ℕ}

theorem frameSize_ge (v : ℕ) : 40 ≤ frameSize v ∧ frameSize v ≤ 48 := by
  unfold frameSize
  split <;> omega

/-- Every delivery starts at the same address. -/
theorem OneStack.stackTop (hs : OneStack s) (hv : s.Permits v) : s.stackTop v = istTop.toNat := by
  have hslot : 1 ≤ (kernelIdt v).ist.toNat % 8 ∧ (kernelIdt v).ist.toNat % 8 ≤ 7 := by
    rcases hv with hv | ⟨hv, -⟩
    · rw [kernelIdt_ist.1 v hv]
      decide
    · rw [kernelIdt_ist.2 v hv]
      decide
  rw [CpuState.stackTop, Gate.stackTop, hs.ist _ hslot.1 hslot.2]
  decide

theorem OneStack.step (hs : OneStack s) (h : Step s e t) : OneStack t := by
  cases e with
  | deliver v =>
    obtain ⟨hv, rfl⟩ := h
    refine ⟨hs.ist, fun h hh => ?_⟩
    rcases List.mem_cons.mp hh with rfl | hh
    · have hsize := frameSize_ge v
      have htop : istTop.toNat = 0xffff800000007c00 := by decide
      simp only [hs.stackTop hv]
      exact ⟨trivial, by omega⟩
    · exact hs.handler h hh
  | useStack low =>
    obtain ⟨h, hs', heq, hlow, rfl⟩ := h
    refine ⟨hs.ist, fun h' hh' => ?_⟩
    rcases List.mem_cons.mp hh' with rfl | hh'
    · exact ⟨(hs.handler h (heq ▸ List.mem_cons_self)).1, hlow⟩
    · exact hs.handler h' (heq ▸ List.mem_cons_of_mem _ hh')
  | iret =>
    obtain ⟨h, hs', heq, rfl⟩ := h
    exact ⟨hs.ist, fun h' hh' => hs.handler h' (heq ▸ List.mem_cons_of_mem _ hh')⟩
  | setIf b =>
    obtain ⟨-, rfl⟩ := h
    exact ⟨hs.ist, hs.handler⟩
  | switchTo rsp0 rsp1 rsp2 =>
    obtain ⟨-, rfl⟩ := h
    exact ⟨fun n h1 h7 => ist_kernelTss rsp0 rsp1 rsp2 s.tss h1 h7, hs.handler⟩

/-- A delivery leaves everything intact exactly when there is nothing to overwrite. -/
theorem intact_iff (hs : OneStack s) (h : Step s e t) : Intact s e ↔ Unnested s e := by
  constructor
  · rintro hintact v rfl
    obtain ⟨hv, -⟩ := h
    have hsize := frameSize_ge v
    cases hactive : s.active with
    | nil => rfl
    | cons h hs' =>
      -- the top word of the handler's frame is the first one pushed
      have hmem : h ∈ s.active := hactive ▸ List.mem_cons_self
      obtain ⟨htop, hlow⟩ := hs.handler h hmem
      have hframe := frameSize_ge h.vector
      refine absurd ?_ (hintact v rfl h hmem (istTop.toNat - 1) (by omega) (by omega))
      rw [hs.stackTop hv]
      omega
  · rintro hun v rfl h hh
    rw [hun v rfl] at hh
    exact absurd hh List.not_mem_nil

/-! ## Whole runs -/

/-- The state once `kernel_start` has written the TSS, with no handler active. -/
def Booted (s : CpuState) : Prop :=
  s.active = [] ∧ ∃ rsp0 rsp1 rsp2 t, s.tss = kernelTss rsp0 rsp1 rsp2 t

theorem Booted.oneStack (h : Booted s) : OneStack s := by
  obtain ⟨hactive, rsp0, rsp1, rsp2, t, htss⟩ := h
  refine ⟨fun n h1 h7 => htss ▸ ist_kernelTss rsp0 rsp1 rsp2 t h1 h7, fun h hh => ?_⟩
  rw [hactive] at hh
  exact absurd hh List.not_mem_nil

/-- **When handlers stay intact.**  In a run of deliveries and returns, in any order and at any
depth the gates permit, the frames and stacks of the handlers that have not returned are never
overwritten by a later delivery exactly when no delivery comes while a handler is active. -/
theorem always_intact_iff (hs : Booted s) {tr : List (Event × CpuState)} (hrun : Always Step s tr) :
    Always (fun s e _ => Intact s e) s tr ↔ Always (fun s e _ => Unnested s e) s tr :=
  Always.congr_of_invariant (K := OneStack) (fun _ _ _ hs h => hs.step h)
    (fun _ _ _ hs h => intact_iff hs h) hs.oneStack hrun

/-- The booted machine with interrupts enabled. -/
def bootedCpu : CpuState := ⟨true, kernelTss 0 0 0 fun _ => 0, []⟩

theorem bootedCpu_booted : Booted bootedCpu := ⟨rfl, 0, 0, 0, _, rfl⟩

/-- Two keyboard interrupts, one after the other. -/
def twoKeys : List (Event × CpuState) :=
  [(.deliver 0x21, bootedCpu.deliver 0x21), (.iret, bootedCpu),
   (.deliver 0x21, bootedCpu.deliver 0x21)]

theorem twoKeys_steps : Always Step bootedCpu twoKeys := by
  refine ⟨⟨Or.inr ⟨by decide, rfl⟩, rfl⟩, ⟨_, _, rfl, rfl⟩, ⟨Or.inr ⟨by decide, rfl⟩, rfl⟩, trivial⟩

/-- Handlers one after the other stay intact. -/
theorem twoKeys_intact : Always (fun s e _ => Intact s e) bootedCpu twoKeys :=
  (always_intact_iff bootedCpu_booted twoKeys_steps).mpr
    ⟨fun _ _ => rfl, fun _ h => by simp at h, fun _ _ => rfl, trivial⟩

/-- A key is pressed while the handler of a page fault runs. -/
def keyInPageFault : List (Event × CpuState) :=
  [(.deliver 14, bootedCpu.deliver 14), (.deliver 0x21, (bootedCpu.deliver 14).deliver 0x21)]

/-- **A key press destroys the frame of a page fault.**  The trap gate of the page fault leaves
interrupts enabled, and the frame of the interrupt request is pushed over its frame. -/
theorem keyInPageFault_not_intact :
    Booted bootedCpu ∧ Always Step bootedCpu keyInPageFault ∧
      ¬ Always (fun s e _ => Intact s e) bootedCpu keyInPageFault := by
  refine ⟨bootedCpu_booted, ?_, ?_⟩
  · have hif : (bootedCpu.deliver 14).intrFlag = true := by decide +kernel
    exact ⟨⟨Or.inl (by decide), rfl⟩, ⟨Or.inr ⟨by decide, hif⟩, rfl⟩, trivial⟩
  · rintro ⟨-, h, -⟩
    exact h 0x21 rfl _ List.mem_cons_self 0xffff800000007bff (by decide +kernel)
      (by decide +kernel) (by decide +kernel)

end Trap
end OSLib
