import Mathlib.Data.BitVec
import Mathlib.Data.Fintype.Card
import OSLib.Task.Ring

/-!
# Process ids

A new task has the pid of the task that forks it, plus one, and nothing else is consulted.  So the
pids along the ring are 0, 1, 2, … as long as every fork is made by the task linked last, and the
first fork by any other task repeats a pid: that of the task linked behind the one that forks.
`pids_nodup_iff` is this for whole runs.

The pid is one of the words of a task that nothing but `do_fork` writes (`KeepsTask`).  It is a word
of 64 bits and wraps around, but a list of different words is no longer than `2 ^ 64`, so that a run
never comes to it with all pids different (`length_le_of_nodup`).
-/

namespace OSLib
namespace Task

open Memory Lib

/-! ## Consecutive numbers -/

/-- The numbers below `n` as words. -/
def numbers (n : ℕ) : List (BitVec 64) := (List.range n).map (BitVec.ofNat 64)

variable {n : ℕ} {x : BitVec 64}

theorem numbers_succ (n : ℕ) : numbers (n + 1) = numbers n ++ [BitVec.ofNat 64 n] := by
  rw [numbers, List.range_succ, List.map_append, List.map_singleton, numbers]

theorem mem_numbers (hn : n ≤ 2 ^ 64) : x ∈ numbers n ↔ x.toNat < n := by
  rw [numbers, List.mem_map]
  constructor
  · rintro ⟨k, hk, rfl⟩
    rw [List.mem_range] at hk
    rw [BitVec.toNat_ofNat, Nat.mod_eq_of_lt (by omega)]
    exact hk
  · intro h
    exact ⟨x.toNat, List.mem_range.mpr h, by simp⟩

theorem numbers_nodup (hn : n ≤ 2 ^ 64) : (numbers n).Nodup := by
  refine (List.nodup_range).map_on fun a ha b hb hab => ?_
  rw [List.mem_range] at ha hb
  have h := congrArg BitVec.toNat hab
  rwa [BitVec.toNat_ofNat, BitVec.toNat_ofNat, Nat.mod_eq_of_lt (by omega),
    Nat.mod_eq_of_lt (by omega)] at h

/-- There are no more different words than that. -/
theorem length_le_of_nodup {l : List (BitVec 64)} (h : l.Nodup) : l.length ≤ 2 ^ 64 := by
  have hfin : (l.map BitVec.toFin).Nodup := h.map BitVec.toFin_injective
  have hlen := hfin.length_le_card
  rwa [List.length_map, Fintype.card_fin] at hlen

/-- **The successor of a number is new** only behind the last one. -/
theorem nodup_concat_succ (hn : n < 2 ^ 64) (hx : x ∈ numbers n) :
    (numbers n ++ [x + 1]).Nodup ↔ x.toNat + 1 = n := by
  have hlt : x.toNat < n := (mem_numbers (by omega)).mp hx
  have hsucc : (x + 1).toNat = x.toNat + 1 := by
    have hone : (1 : BitVec 64).toNat = 1 := rfl
    rw [BitVec.toNat_add, hone, Nat.mod_eq_of_lt (by omega)]
  rw [← List.concat_eq_append, List.nodup_concat, mem_numbers (by omega), hsucc]
  constructor
  · rintro ⟨hge, -⟩
    omega
  · intro h
    exact ⟨by omega, numbers_nodup (by omega)⟩

/-! ## The pids of the ring -/

/-- The pids of the tasks in the order of the ring. -/
def pids (sym : Symbol → BitVec 64) (s : Tasks) : List (BitVec 64) :=
  (s.all sym).map fun a => s.kernel.mem.read (a + TaskField.pid.off)

/-- The task linked last. -/
def lastTask (sym : Symbol → BitVec 64) (s : Tasks) : BitVec 64 :=
  s.forked.getLastD (sym .initTaskUnion)

/-- If the step is a fork, the task linked last makes it. -/
def ByLast (sym : Symbol → BitVec 64) (s : Tasks) : ForkEvent → Prop
  | .fork rsp _ _ _ _ => getCurrent rsp = lastTask sym s
  | .code => True

variable {sym : Symbol → BitVec 64} {s t : Tasks} {e : ForkEvent}
  {tr : List (ForkEvent × Tasks)} {rsp regs cloneFlags stackStart stackLen : BitVec 64}

/-- **A fork adds the pid of its caller, plus one.** -/
theorem pids_fork (h : InRing sym s)
    (hs : ForkStep sym s (.fork rsp regs cloneFlags stackStart stackLen) t) :
    pids sym t =
      pids sym s ++ [s.kernel.mem.read (getCurrent rsp + TaskField.pid.off) + 1] := by
  obtain ⟨tsk, hforked, -, -, hforks⟩ := forkStep_fork h hs
  have hall : t.all sym = s.all sym ++ [tsk] := all_concat hforked
  rw [pids, hall, List.map_append, List.map_singleton, hforks.newPid, pids]
  exact congrArg (· ++ _) (List.map_congr_left fun a ha => hforks.pid a ha)

theorem pids_code (hs : ForkStep sym s .code t) : pids sym t = pids sym s := by
  obtain ⟨hforked, hkeeps⟩ := hs
  have hall : t.all sym = s.all sym := by rw [Tasks.all, hforked, Tasks.all]
  rw [pids, hall, pids]
  exact List.map_congr_left fun a ha => (hkeeps a ha).pid

theorem lastTask_mem : lastTask sym s ∈ s.all sym := by
  rw [lastTask, Tasks.all]
  rcases List.eq_nil_or_concat' s.forked with hl | ⟨l, a, hl⟩ <;> rw [hl]
  · exact List.mem_cons_self
  · rw [List.getLastD_concat]
    exact List.mem_cons_of_mem _ (List.mem_append_right _ List.mem_cons_self)

/-- While the pids are different they are the numbers from 0 on. -/
structure Counted (sym : Symbol → BitVec 64) (s : Tasks) : Prop extends InRing sym s where
  numbers : (pids sym s).Nodup → pids sym s = numbers (s.forked.length + 1)

/-- The pid of the task linked last. -/
theorem pid_lastTask (h : pids sym s = numbers (s.forked.length + 1)) :
    s.kernel.mem.read (lastTask sym s + TaskField.pid.off) =
      BitVec.ofNat 64 s.forked.length := by
  have hlast := congrArg List.getLast? h
  rw [numbers_succ, List.getLast?_concat, pids, Tasks.all, List.getLast?_map,
    List.getLast?_cons, ← List.getLastD_eq_getLast?] at hlast
  exact Option.some.inj hlast

/-- **One fork.**  The pids stay different exactly if the task linked last forks. -/
theorem Counted.nodup_fork_iff (h : Counted sym s) (hnodup : (pids sym s).Nodup)
    (hs : ForkStep sym s (.fork rsp regs cloneFlags stackStart stackLen) t) :
    (pids sym t).Nodup ↔ getCurrent rsp = lastTask sym s := by
  have hpids := h.numbers hnodup
  have ht : InRing sym t := h.toInRing.step hs
  have hmem : s.kernel.mem.read (getCurrent rsp + TaskField.pid.off) ∈ pids sym s :=
    List.mem_map_of_mem hs.1
  -- there is no room for a pid that wraps around
  have hlen : s.forked.length + 2 ≤ 2 ^ 64 := by
    obtain ⟨tsk, hforked, -⟩ := forkStep_fork h.toInRing hs
    have hle := length_le_of_nodup ht.nodup
    rw [Tasks.all, hforked, List.length_cons, List.length_append, List.length_singleton] at hle
    exact hle
  have hlast := pid_lastTask hpids
  rw [pids_fork h.toInRing hs, hpids]
  rw [hpids] at hmem
  rw [nodup_concat_succ (by omega) hmem]
  constructor
  · intro hpid
    refine List.inj_on_of_nodup_map hnodup hs.1 lastTask_mem ?_
    rw [hlast]
    refine BitVec.eq_of_toNat_eq ?_
    rw [BitVec.toNat_ofNat, Nat.mod_eq_of_lt (by omega)]
    omega
  · intro hcur
    rw [hcur, hlast, BitVec.toNat_ofNat, Nat.mod_eq_of_lt (by omega)]

/-! ## The pids along a run -/

theorem Booted.counted (h : Booted sym s) : Counted sym s := by
  refine ⟨h.inRing, fun _ => ?_⟩
  rw [pids, Tasks.all, h.alone, List.map_singleton, h.pid]
  rfl

theorem Booted.pids_nodup (h : Booted sym s) : (pids sym s).Nodup := by
  rw [pids, Tasks.all, h.alone]
  exact List.nodup_singleton _

/-- A step from different pids keeps them counted. -/
theorem Counted.step (h : Counted sym s) (hnodup : (pids sym s).Nodup)
    (hs : ForkStep sym s e t) : Counted sym t := by
  refine ⟨h.toInRing.step hs, fun ht => ?_⟩
  cases e with
  | fork rsp regs cloneFlags stackStart stackLen =>
    have hcur := (h.nodup_fork_iff hnodup hs).mp ht
    obtain ⟨tsk, hforked, -⟩ := forkStep_fork h.toInRing hs
    have hlast := pid_lastTask (h.numbers hnodup)
    have hsucc : BitVec.ofNat 64 s.forked.length + 1 = BitVec.ofNat 64 (s.forked.length + 1) :=
      (BitVec.ofNat_add _ _).symm
    rw [pids_fork h.toInRing hs, h.numbers hnodup, hforked, List.length_append,
      List.length_singleton, numbers_succ (s.forked.length + 1), hcur, hlast, hsucc]
  | code =>
    rw [pids_code hs, hs.1]
    rw [pids_code hs] at ht
    exact h.numbers ht

/-- A step keeps the pids different exactly if it is not a fork by another task. -/
theorem Counted.nodup_iff (h : Counted sym s) (hnodup : (pids sym s).Nodup)
    (hs : ForkStep sym s e t) : (pids sym t).Nodup ↔ ByLast sym s e := by
  cases e with
  | fork rsp regs cloneFlags stackStart stackLen => exact h.nodup_fork_iff hnodup hs
  | code =>
    rw [pids_code hs]
    exact iff_of_true hnodup trivial

/-- **When all tasks have different pids.**  In a run from `task_init`'s ring the pids are different
in every state exactly if every fork is made by the task linked last, the first one by `init_task`.
-/
theorem pids_nodup_iff (h0 : Booted sym s) (hrun : Always (ForkStep sym) s tr) :
    Always (fun _ _ t => (pids sym t).Nodup) s tr ↔ Always (fun s e _ => ByLast sym s e) s tr :=
  always_iff_guard (K := Counted sym) (G := ByLast sym) (fun _ _ _ h hn hs => h.step hn hs)
    (fun _ _ _ h hn hs => h.nodup_iff hn hs) h0.counted h0.pids_nodup hrun

/-- In a chain of forks the pids are different. -/
theorem chain_pids_nodup : ∃ t u, Booted linked booted ∧
    Always (ForkStep linked) booted [(.fork 0xffff800000127e00 0xffff800000127e40 7 0 0, t),
      (.fork 0xffff800000207e00 0xffff800000207e40 7 0 0, u)] ∧
    (pids linked t).Nodup ∧ (pids linked u).Nodup := by
  obtain ⟨t, u, hrun, ht, -⟩ := two_forks 0xffff800000127e00 0xffff800000207e00
    0xffff800000127e40 0xffff800000207e40 (by decide) (by decide)
  have hguard : Always (fun s e _ => ByLast linked s e) booted
      [(.fork 0xffff800000127e00 0xffff800000127e40 7 0 0, t),
        (.fork 0xffff800000207e00 0xffff800000207e40 7 0 0, u)] := by
    refine ⟨?_, ?_, trivial⟩
    · show getCurrent 0xffff800000127e00 = lastTask linked booted
      decide
    · show getCurrent 0xffff800000207e00 = lastTask linked t
      rw [lastTask, ht]
      decide
  obtain ⟨hnodup, hnodup', -⟩ := (pids_nodup_iff booted_linked hrun).mpr hguard
  exact ⟨t, u, booted_linked, hrun, hnodup, hnodup'⟩

/-- **Two tasks with the same pid.**  The first task forks twice. -/
theorem siblings_pids_not_nodup : ∃ t u, Booted linked booted ∧
    Always (ForkStep linked) booted [(.fork 0xffff800000127e00 0xffff800000127e40 7 0 0, t),
      (.fork 0xffff800000127e00 0xffff800000127e40 7 0 0, u)] ∧ ¬ (pids linked u).Nodup := by
  obtain ⟨t, u, hrun, ht, -⟩ := two_forks 0xffff800000127e00 0xffff800000127e00
    0xffff800000127e40 0xffff800000127e40 (by decide) (by decide)
  obtain ⟨hstep, hstep', -⟩ := hrun
  have hcounted : Counted linked t := booted_linked.counted.step booted_linked.pids_nodup hstep
  have hnodup : (pids linked t).Nodup :=
    (booted_linked.counted.nodup_fork_iff booted_linked.pids_nodup hstep).mpr (by decide)
  refine ⟨t, u, booted_linked, ⟨hstep, hstep', trivial⟩, fun hu => ?_⟩
  have hlast := (hcounted.nodup_fork_iff hnodup hstep').mp hu
  rw [lastTask, ht] at hlast
  exact absurd hlast (by decide)

end Task
end OSLib
