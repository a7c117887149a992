import OSLib.Foundation.X86

/-!
# Running assembly on a list

Code that saves and restores registers only ever touches the words it has pushed itself.  The stack
machine runs such code with a list in place of the memory: it keeps all registers, the stack
pointer among them, and the words known to lie on the stack.  An instruction that reads or writes
memory elsewhere, or moves the stack pointer in another way, has no meaning here.

`leaves_of_run` says that a run of the stack machine is a run of the CPU.  So a question about a
text becomes an evaluation on lists, and the overlap of bytes in memory never comes up again.

The memory below the stack pointer is not part of the list, as an interrupt may overwrite it at any
time, and the memory above the known words is left as it was.  An instruction that the stack machine
cannot do has the value none, so an evaluation that comes through is itself the proof that the text
keeps to its own words.
-/

namespace OSLib
namespace X86

/-- The registers, and the words on the stack from the stack pointer on. -/
structure StackCpu extends Regs where
  stk : List (BitVec 64)

/-- The CPU has these registers and these words on its stack. -/
def StackCpu.Describes (a : StackCpu) (s : Cpu) : Prop :=
  s.toRegs = a.toRegs ∧ s.mem.StackAt (a.gpr .rsp) a.stk

variable {α : Type}

namespace StackCpu

/-! ## Instructions on a list -/

/-- Load a register other than the stack pointer. -/
def set (a : StackCpu) (r : Reg) (v : BitVec 64) : Option StackCpu :=
  if r = .rsp then none else some { a with toRegs := a.toRegs.set r v }

/-- Push a word; a stack never fills the whole memory. -/
def push (a : StackCpu) (v : BitVec 64) : Option StackCpu :=
  if 8 * (a.stk.length + 1) ≤ 2 ^ 64 then
    some { toRegs := a.toRegs.set .rsp (a.gpr .rsp - 8), stk := v :: a.stk }
  else none

/-- The stack without its first word. -/
def tail (a : StackCpu) (ws : List (BitVec 64)) : StackCpu where
  toRegs := a.toRegs.set .rsp (a.gpr .rsp + 8)
  stk := ws

/-- `iretq` with the five words it takes. -/
def iretq (a : StackCpu) (cs rflags rsp ss : BitVec 64) : StackCpu where
  toRegs := { (((a.toRegs.setSeg .cs (cs.setWidth 16)).set .rsp rsp).setSeg .ss
    (ss.setWidth 16)) with rflags := rflags }
  stk := []

/-- One instruction on registers and stack words. -/
def step (sym : α → BitVec 64) (a : StackCpu) : Instr α → Option (Next α StackCpu)
  | .push r => (a.push (a.gpr r)).map .next
  | .pushImm v => (a.push v).map .next
  | .pop r =>
    match a.stk with
    | [] => none
    | w :: ws => ((a.tail ws).set r w).map .next
  | .mov src dst => (a.set dst (a.gpr src)).map .next
  | .movImm v dst => (a.set dst v).map .next
  | .movFromSeg src dst => (a.set dst ((a.seg src).setWidth 64)).map .next
  | .movToSeg src dst => some (.next { a with toRegs := a.setSeg dst ((a.gpr src).setWidth 16) })
  | .load (.base off .rsp) dst =>
    match a.stk[off.toNat / 8]? with
    | none => none
    | some w => if off.toNat % 8 = 0 then (a.set dst w).map .next else none
  | .lea l dst => (a.set dst (sym l)).map .next
  | .xchg r (.base off .rsp) =>
    match a.stk with
    | [] => none
    | w :: ws =>
      if off = 0 ∧ 8 * (ws.length + 1) ≤ 2 ^ 64 then
        (set { a with stk := a.gpr r :: ws } r w).map .next
      else none
  | .xor src dst => (a.set dst (a.gpr dst ^^^ a.gpr src)).map .next
  | .add v dst =>
    if dst = .rsp then
      if 8 * (v.toNat / 8) = v.toNat then
        some (.next
          { toRegs := a.toRegs.set .rsp (a.gpr .rsp + v), stk := a.stk.drop (v.toNat / 8) })
      else none
    else (a.set dst (a.gpr dst + v)).map .next
  | .cld => some (.next { a with toRegs := a.toRegs.cld })
  | .jmp l => some (.jump l a)
  | .call l next => (a.push (sym next)).map (.jump l)
  | .callReg r next => (a.push (sym next)).map (.enter (a.gpr r))
  | .ret =>
    match a.stk with
    | [] => none
    | w :: ws => some (.enter w (a.tail ws))
  | .iretq =>
    match a.stk with
    | rip :: cs :: rflags :: rsp :: ss :: _ => some (.iret rip (a.iretq cs rflags rsp ss))
    | _ => none
  | .pushMem _ | .load _ _ | .store _ _ | .xchg _ _ => none

/-! ## The CPU follows -/

variable {a b : StackCpu} {s : Cpu} {r : Reg} {v : BitVec 64} {w : BitVec 64}
  {ws : List (BitVec 64)} {sym : α → BitVec 64}

theorem Describes.gpr (h : a.Describes s) (r : Reg) : s.gpr r = a.gpr r := by rw [h.1]

theorem Describes.set (h : a.Describes s) (hset : a.set r v = some b) :
    b.Describes (s.withRegs (·.set r v)) := by
  unfold StackCpu.set at hset
  split at hset
  · cases hset
  · next hr =>
    cases hset
    refine ⟨by rw [Cpu.withRegs, h.1], ?_⟩
    rw [Regs.gpr_set_of_ne _ _ _ _ (Ne.symm hr)]
    exact h.2

theorem Describes.push (h : a.Describes s) (hpush : a.push v = some b) :
    b.Describes (s.push v) := by
  unfold StackCpu.push at hpush
  split at hpush
  · next hlen =>
    cases hpush
    refine ⟨by rw [Cpu.push, h.1], ?_⟩
    rw [Cpu.push, h.gpr, Regs.gpr_set_self]
    exact h.2.push hlen
  · cases hpush

theorem Describes.top (h : a.Describes s) {k : ℕ} (hk : a.stk[k]? = some w) :
    s.top (BitVec.ofNat 64 (8 * k)) = w := by
  obtain ⟨hlt, rfl⟩ := List.getElem?_eq_some_iff.mp hk
  rw [Cpu.top, h.gpr]
  exact Mem.stackAt_iff.mp h.2 k hlt

/-- Taking words off the stack. -/
theorem Describes.drop (h : a.Describes s) (k : ℕ) :
    StackCpu.Describes
      { toRegs := a.toRegs.set .rsp (a.gpr .rsp + BitVec.ofNat 64 (8 * k)), stk := a.stk.drop k }
      (s.drop (BitVec.ofNat 64 (8 * k))) := by
  refine ⟨by rw [Cpu.drop, Cpu.withRegs, h.1], ?_⟩
  rw [Cpu.drop, Cpu.withRegs, Regs.gpr_set_self, Mem.stackAt_iff]
  intro j hj
  rw [List.length_drop] at hj
  rw [List.getElem_drop, ← Mem.stackAt_iff.mp h.2 (k + j) (by omega), BitVec.add_assoc,
    ← BitVec.ofNat_add, Nat.mul_add]

theorem Describes.tail (h : a.Describes s) (hstk : a.stk = w :: ws) :
    (a.tail ws).Describes (s.drop 8) := by
  have hdrop := h.drop 1
  rwa [hstk, List.drop_one, List.tail_cons] at hdrop

/-- Changing other registers than the stack pointer. -/
theorem Describes.withRegs (h : a.Describes s) (f : Regs → Regs)
    (hf : (f a.toRegs).gpr .rsp = a.gpr .rsp) :
    StackCpu.Describes { a with toRegs := f a.toRegs } (s.withRegs f) := by
  refine ⟨by rw [Cpu.withRegs, h.1], ?_⟩
  rw [hf]
  exact h.2

theorem Describes.top_zero (h : a.Describes s) (hstk : a.stk = w :: ws) : s.top 0 = w :=
  h.top (k := 0) (by rw [hstk]; rfl)

theorem Describes.addr_zero (h : a.Describes s) :
    Operand.addr s.toRegs (.base 0 .rsp) = a.gpr .rsp := by
  rw [Operand.addr, h.gpr, BitVec.ofNat_eq_ofNat, BitVec.add_zero]

/-- A load from the stack. -/
theorem Describes.read (h : a.Describes s) {off : BitVec 64} (hw : a.stk[off.toNat / 8]? = some w)
    (hoff : off.toNat % 8 = 0) : s.mem.read (Operand.addr s.toRegs (.base off .rsp)) = w := by
  have htop := h.top hw
  rwa [show 8 * (off.toNat / 8) = off.toNat by omega, BitVec.ofNat_toNat,
    BitVec.setWidth_eq] at htop

theorem Describes.read_top (h : a.Describes s) (hstk : a.stk = w :: ws) :
    s.mem.read (a.gpr .rsp) = w := by
  have hw := h.2
  rw [hstk] at hw
  exact hw.1

/-- A store into the first word. -/
theorem Describes.write_top (h : a.Describes s) (hstk : a.stk = w :: ws)
    (hlen : 8 * (ws.length + 1) ≤ 2 ^ 64) :
    StackCpu.Describes { a with stk := v :: ws } { s with mem := s.mem.write (a.gpr .rsp) v } := by
  have hw := h.2
  rw [hstk] at hw
  exact ⟨h.1, hw.replace hlen⟩

theorem Describes.iretq (h : a.Describes s) {rip cs rflags rsp ss : BitVec 64}
    (hstk : a.stk = rip :: cs :: rflags :: rsp :: ss :: ws) :
    s.top 0 = rip ∧ (a.iretq cs rflags rsp ss).Describes s.iretq := by
  have htop {k : ℕ} {w : BitVec 64} (hk : a.stk[k]? = some w) := h.top hk
  rw [hstk] at htop
  refine ⟨htop (k := 0) rfl, ?_, trivial⟩
  rw [Cpu.iretq, Cpu.withRegs, h.1, StackCpu.iretq]
  simp only [← htop (k := 1) rfl, ← htop (k := 2) rfl, ← htop (k := 3) rfl, ← htop (k := 4) rfl]
  rfl

/-- **The CPU follows the stack machine, instruction by instruction.** -/
theorem Describes.step (h : a.Describes s) {i : Instr α} {x : Next α StackCpu}
    (hstep : a.step sym i = some x) : Next.Rel StackCpu.Describes x (i.step sym s) := by
  have hgpr := h.gpr
  cases i with
  | push r =>
    obtain ⟨b, hb, rfl⟩ := Option.map_eq_some_iff.mp hstep
    rw [Instr.step, hgpr]
    exact .next (h.push hb)
  | pushImm v =>
    obtain ⟨b, hb, rfl⟩ := Option.map_eq_some_iff.mp hstep
    exact .next (h.push hb)
  | pushMem o => cases hstep
  | pop r =>
    rw [StackCpu.step] at hstep
    split at hstep
    · cases hstep
    · next w ws hstk =>
      obtain ⟨b, hb, rfl⟩ := Option.map_eq_some_iff.mp hstep
      rw [Instr.step, h.top_zero hstk]
      exact .next ((h.tail hstk).set hb)
  | mov src dst =>
    obtain ⟨b, hb, rfl⟩ := Option.map_eq_some_iff.mp hstep
    rw [Instr.step, hgpr]
    exact .next (h.set hb)
  | movImm v dst =>
    obtain ⟨b, hb, rfl⟩ := Option.map_eq_some_iff.mp hstep
    exact .next (h.set hb)
  | movFromSeg src dst =>
    obtain ⟨b, hb, rfl⟩ := Option.map_eq_some_iff.mp hstep
    rw [Instr.step, h.1]
    exact .next (h.set hb)
  | movToSeg src dst =>
    cases hstep
    rw [Instr.step, hgpr]
    exact .next (h.withRegs (·.setSeg dst ((a.gpr src).setWidth 16)) rfl)
  | load o dst =>
    cases o with
    | abs => cases hstep
    | base off r =>
      cases r
      case rsp =>
        rw [StackCpu.step] at hstep
        split at hstep
        · cases hstep
        · next w hw =>
          split at hstep
          · next hoff =>
            obtain ⟨b, hb, rfl⟩ := Option.map_eq_some_iff.mp hstep
            rw [Instr.step, h.read hw hoff]
            exact .next (h.set hb)
          · cases hstep
      all_goals cases hstep
  | store src o => cases hstep
  | lea l dst =>
    obtain ⟨b, hb, rfl⟩ := Option.map_eq_some_iff.mp hstep
    exact .next (h.set hb)
  | xchg r o =>
    cases o with
    | abs => cases hstep
    | base off q =>
      cases q
      case rsp =>
        rw [StackCpu.step] at hstep
        split at hstep
        · cases hstep
        · next w ws hstk =>
          split at hstep
          · next hoff =>
            obtain ⟨rfl, hlen⟩ := hoff
            obtain ⟨b, hb, rfl⟩ := Option.map_eq_some_iff.mp hstep
            rw [Instr.step, h.addr_zero, h.read_top hstk, hgpr]
            exact .next ((h.write_top hstk hlen).set hb)
          · cases hstep
      all_goals cases hstep
  | xor src dst =>
    obtain ⟨b, hb, rfl⟩ := Option.map_eq_some_iff.mp hstep
    rw [Instr.step, hgpr, hgpr]
    exact .next (h.set hb)
  | add v dst =>
    rw [StackCpu.step] at hstep
    split at hstep
    · next hdst =>
      split at hstep
      · next hv =>
        cases hstep
        have hdrop := h.drop (v.toNat / 8)
        rw [hv, BitVec.ofNat_toNat, BitVec.setWidth_eq] at hdrop
        subst hdst
        exact .next hdrop
      · cases hstep
    · obtain ⟨b, hb, rfl⟩ := Option.map_eq_some_iff.mp hstep
      rw [Instr.step, hgpr]
      exact .next (h.set hb)
  | cld =>
    cases hstep
    exact .next (h.withRegs (·.cld) rfl)
  | jmp l =>
    cases hstep
    exact .jump h
  | call l next =>
    obtain ⟨b, hb, rfl⟩ := Option.map_eq_some_iff.mp hstep
    exact .jump (h.push hb)
  | callReg r next =>
    obtain ⟨b, hb, rfl⟩ := Option.map_eq_some_iff.mp hstep
    rw [Instr.step, hgpr]
    exact .enter (h.push hb)
  | ret =>
    rw [StackCpu.step] at hstep
    split at hstep
    · cases hstep
    · next w ws hstk =>
      cases hstep
      rw [Instr.step, h.top_zero hstk]
      exact .enter (h.tail hstk)
  | iretq =>
    rw [StackCpu.step] at hstep
    split at hstep
    · next rip cs rflags rsp ss ws hstk =>
      cases hstep
      obtain ⟨hrip, hdesc⟩ := h.iretq hstk
      exact hrip ▸ .iret hdesc
    · cases hstep

/-- **A run of the stack machine is a run of the CPU.** -/
theorem leaves_of_run {text : α → Option (List (Instr α))} {l : α} {n : ℕ}
    {x : Exit StackCpu} (h : a.Describes s)
    (hrun : run (StackCpu.step sym) sym text n [.jmp l] a = some x) :
    ∃ y, Leaves sym text l s y ∧ Exit.Rel StackCpu.Describes x y := by
  have hstep (a : StackCpu) (s : Cpu) (i : Instr α) (x : Next α StackCpu) (h : a.Describes s)
      (hx : a.step sym i = some x) :
      ∃ y, cpuStep sym s i = some y ∧ Next.Rel StackCpu.Describes x y := ⟨_, rfl, h.step hx⟩
  obtain ⟨y, hy, hrel⟩ := run_simulates hstep h hrun
  exact ⟨y, ⟨n, hy⟩, hrel⟩

end StackCpu
end X86
end OSLib
