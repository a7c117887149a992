import OSLib.Memory.Places

/-!
# No page is handed out twice

`init_memory` reserves the pages `0, …, i` of the kernel, and every successful call of `alloc_pages`
hands out a run of page structs.  The bitmap is what should keep all of these apart: a page given
away has its bit set, and a set bit is never taken again.

## What holds in every run

A page struct that `page_init` has run on is in use from then on: with flags other than 0 its
attribute is not 0 again (`AllocStep.attr_ne_zero`).  And a clear bit of the bitmap belongs to a
page struct that is not in use and holds the page's own address (`Marked`).

## What does not

The page structs taken are not those of the bits found clear but lie `shift - 1` places above them,
and nothing looks at the bits there.  `handed_disjoint` says what is left: in a run no page is
handed out twice and no reserved page is handed out while every call is `Aligned`, so that `shift`
is 1 and the bits found are those of the pages taken, or else moves its run to page structs that are
not in use.
-/

namespace OSLib
namespace Memory

variable {s t : MemState} {p x n : ℕ} {flags : BitVec 64} {ps : List ℕ} {b : Boot}

/-! ## Clear bits belong to free pages -/

/-- A clear bit of the bitmap belongs to a free page struct with the page's own address. -/
structure Marked (s : MemState) : Prop where
  bitsSize_le : s.desc.bitsSize ≤ 2 ^ 43
  attr : ∀ x < s.desc.bitsSize, s.bits.bit x = false → (s.pages x).attr = 0
  phyAddr : ∀ x < s.desc.bitsSize, s.bits.bit x = false → (s.pages x).phyAddr = pageAddr x

/-- `page_init` sets the bit of its page. -/
theorem pageInit_bit_self (hs : Marked s) (hp : p < s.desc.bitsSize)
    (h : pageInit s p flags = some t) : t.bits.bit p = true := by
  by_cases hbit : s.bits.bit p = true
  · exact pageInit_bit_of_set h hbit
  · rw [Bool.not_eq_true] at hbit
    have hattr := hs.attr p hp hbit
    have hpage : pageNo (s.pages p).phyAddr = p := by
      rw [hs.phyAddr p hp hbit]
      exact pageNo_pageAddr (lt_of_lt_of_le hp hs.bitsSize_le)
    rcases pageInit_cases h with ⟨-, -, rfl⟩ | ⟨hne, -⟩ | ⟨hne, -⟩
    · simp [hpage]
    · exact absurd hattr hne
    · exact absurd hattr hne

/-- `page_init` on any page struct keeps the bitmap marked. -/
theorem Marked.pageInit (hs : Marked s) (h : pageInit s p flags = some t) : Marked t := by
  have hdesc := (pageInit_sameLayout h).desc
  -- a bit that is clear afterwards was clear before, and is not the bit of `p`
  have hold : ∀ x < s.desc.bitsSize, t.bits.bit x = false →
      s.bits.bit x = false ∧ t.pages x = s.pages x := by
    intro x hx hclear
    have hbit : s.bits.bit x = false := by
      by_contra hset
      rw [Bool.not_eq_false] at hset
      rw [pageInit_bit_of_set h hset] at hclear
      exact Bool.noConfusion hclear
    refine ⟨hbit, pageInit_pages_of_ne h ?_⟩
    rintro rfl
    rw [pageInit_bit_self hs hx h] at hclear
    exact Bool.noConfusion hclear
  refine ⟨hdesc ▸ hs.bitsSize_le, fun x hx hclear => ?_, fun x hx hclear => ?_⟩
  · rw [hdesc] at hx
    obtain ⟨hbit, hpage⟩ := hold x hx hclear
    rw [hpage]
    exact hs.attr x hx hbit
  · rw [hdesc] at hx
    obtain ⟨hbit, hpage⟩ := hold x hx hclear
    rw [hpage]
    exact hs.phyAddr x hx hbit

theorem Marked.pageInits (hs : Marked s) (h : pageInits flags s ps = some t) : Marked t :=
  pageInits_invariant (P := Marked) (fun _ _ _ _ hs hu => hs.pageInit hu) h hs

/-- The loop sets the bits of all its pages that are in the bitmap. -/
theorem pageInits_bit (hs : Marked s) (h : pageInits flags s ps = some t) (hp : p ∈ ps)
    (hlt : p < s.desc.bitsSize) : t.bits.bit p = true := by
  induction ps generalizing s with
  | nil => exact absurd hp List.not_mem_nil
  | cons p' ps ih =>
    obtain ⟨u, hu, ht⟩ := pageInits_cons.mp h
    rcases List.mem_cons.mp hp with rfl | hp
    · exact pageInits_bit_of_set ht (pageInit_bit_self hs hlt hu)
    · exact ih (hs.pageInit hu) ht hp ((pageInit_sameLayout hu).desc ▸ hlt)

/-! ## After `init_memory` -/

theorem marked_initArrays (b : Boot) : Marked (initArrays b) where
  bitsSize_le := (pageNo_lt _).le
  attr x hx hclear := by
    rw [initArrays_bit hx] at hclear
    exact Bool.noConfusion hclear
  phyAddr x hx hclear := by
    rw [initArrays_bit hx] at hclear
    exact Bool.noConfusion hclear

theorem Marked.addZone (hs : Marked s) (e : E820) : Marked (addZone s e) := by
  rcases addZone_cases s e with ⟨-, heq⟩ | ⟨-, -, bits, heq, hbits⟩
  · rw [heq]
    exact hs
  · rw [heq]
    -- outside the new zone bits and page structs are the old ones
    have hold : ∀ x, ¬ (e.startPage ≤ x ∧ x < e.endPage) → bits.bit x = false →
        s.bits.bit x = false := by
      intro x hx hclear
      rwa [hbits, decide_eq_false hx, Bool.false_xor] at hclear
    refine ⟨hs.bitsSize_le, fun x hlt hclear => ?_, fun x hlt hclear => ?_⟩
    · change (ite _ _ _ : Page).attr = 0
      split
      · rfl
      · next hx => exact hs.attr x hlt (hold x hx hclear)
    · change (ite _ _ _ : Page).phyAddr = _
      split
      · rfl
      · next hx => exact hs.phyAddr x hlt (hold x hx hclear)

theorem Marked.addZones (hs : Marked s) (table : List E820) : Marked (addZones s table) := by
  induction table generalizing s with
  | nil => exact hs
  | cons e table ih => exact ih (hs.addZone e)

theorem Marked.initPage0 (hs : Marked s) : Marked (initPage0 s) := by
  refine ⟨hs.bitsSize_le, fun x hlt hclear => ?_, fun x hlt hclear => ?_⟩
  · by_cases hx : x = 0
    · subst hx
      rfl
    · simp only [Memory.initPage0, Function.update_of_ne hx]
      exact hs.attr x hlt hclear
  · by_cases hx : x = 0
    · subst hx
      rfl
    · simp only [Memory.initPage0, Function.update_of_ne hx]
      exact hs.phyAddr x hlt hclear

theorem marked_beforeReserve (b : Boot) : Marked (beforeReserve b) := by
  have h := ((marked_initArrays b).addZones (initDesc b).e820).initPage0
  exact ⟨h.bitsSize_le, h.attr, h.phyAddr⟩

theorem marked_initMemory (h : initMemory b = some s) : Marked s := by
  obtain ⟨t, ht, rfl⟩ := initMemory_eq_some_iff.mp h
  have hm := (marked_beforeReserve b).pageInits ht
  exact ⟨hm.bitsSize_le, hm.attr, hm.phyAddr⟩

/-- The reserved pages of the bitmap have their bit set. -/
theorem initMemory_bit (h : initMemory b = some s) (hx : x ≤ lastKernelPage s)
    (hlt : x < s.desc.bitsSize) : s.bits.bit x = true := by
  obtain ⟨t, ht, rfl⟩ := initMemory_eq_some_iff.mp h
  have hdesc : t.desc = (beforeReserve b).desc := (pageInits_sameLayout ht).desc
  have hset : t.bits.bit x = true :=
    pageInits_bit (marked_beforeReserve b) ht (mem_reserved ht hx) (hdesc ▸ hlt)
  exact hset

/-! ## Runs of `alloc_pages` -/

/-- The lowest run of the call, moved, is one of clear bits of the bitmap. -/
def AllocCall.TakesClear (c : AllocCall) (s : MemState) : Prop :=
  c.MovedRun (fun x => x < s.desc.bitsSize ∧ s.bits.bit x = false) s

instance (c : AllocCall) (s : MemState) : Decidable (c.TakesClear s) := by
  unfold AllocCall.TakesClear
  infer_instance

/-- The lowest run of the call, moved, is one of page structs that are not in use. -/
def AllocCall.TakesUnused (c : AllocCall) (s : MemState) : Prop :=
  c.MovedRun (fun x => (s.pages x).attr = 0) s

instance (c : AllocCall) (s : MemState) : Decidable (c.TakesUnused s) := by
  unfold AllocCall.TakesUnused
  infer_instance

/-- **Aligned calls take what they tested**, and so nothing that is in use. -/
theorem AllocCall.Aligned.takesUnused {c : AllocCall} (h : c.Aligned s) (hs : Marked s)
    (hn : c.number.toNat ≤ 64) : c.TakesUnused s := by
  intro i b hrun l hl
  obtain ⟨hlt, hclear⟩ := h.movedRun hn hs.bitsSize_le i b hrun l hl
  exact hs.attr _ hlt hclear

/-- The runs of pages handed out along a run. -/
def handed (tr : List ((AllocCall × Option ℕ) × MemState)) : List (List ℕ) :=
  tr.filterMap fun x => x.1.2.map fun page => runFrom page x.1.1.count

/-- The pages a step hands out were clear before it and are set after it. -/
theorem AllocStep.handed (hs : Marked s) {l : AllocCall × Option ℕ} (h : AllocStep s l t)
    (hclear : l.1.TakesClear s) {page : ℕ} (hpage : l.2 = some page)
    (hx : x ∈ runFrom page l.1.count) :
    x < s.desc.bitsSize ∧ s.bits.bit x = false ∧ t.bits.bit x = true := by
  rcases h.cases with ⟨hnone, -⟩ | ⟨q, hq, hsome, ht⟩
  · rw [hnone] at hpage
    exact absurd hpage (by simp)
  · obtain rfl : q.page = page := Option.some.inj (hsome.symm.trans hpage)
    obtain ⟨hlt, hbit⟩ := AllocCall.movedRun_iff.mp hclear q hq x hx
    exact ⟨hlt, hbit, pageInits_bit hs ht hx hlt⟩

theorem AllocStep.marked (hs : Marked s) {l : AllocCall × Option ℕ} (h : AllocStep s l t) :
    Marked t := by
  rcases h.cases with ⟨-, -, rfl⟩ | ⟨q, -, -, ht⟩
  · exact hs
  · exact hs.pageInits ht

/-! ## Page structs in use -/

/-- `page_init` leaves a page struct in use so. -/
theorem pageInit_attr_ne_zero (h : pageInit s p flags = some t) (hx : (s.pages x).attr ≠ 0) :
    (t.pages x).attr ≠ 0 := by
  by_cases hxp : x = p
  · subst hxp
    have hor : (s.pages x).attr ||| flags ≠ 0 := fun h0 => hx (BitVec.or_eq_zero_iff.mp h0).1
    rcases pageInit_cases h with ⟨h0, -⟩ | ⟨-, -, -, rfl⟩ | ⟨-, -, -, rfl⟩
    · exact absurd h0 hx
    · simpa using hor
    · simpa using hor
  · rwa [pageInit_pages_of_ne h hxp]

/-- With flags it puts its own page struct in use. -/
theorem pageInit_attr_self (h : pageInit s p flags = some t) (hflags : flags ≠ 0) :
    (t.pages p).attr ≠ 0 := by
  have hor : (s.pages p).attr ||| flags ≠ 0 := fun h0 => hflags (BitVec.or_eq_zero_iff.mp h0).2
  rcases pageInit_cases h with ⟨-, -, rfl⟩ | ⟨-, -, -, rfl⟩ | ⟨-, -, -, rfl⟩
  · simpa using hflags
  · simpa using hor
  · simpa using hor

theorem pageInits_attr_ne_zero (h : pageInits flags s ps = some t) (hx : (s.pages x).attr ≠ 0) :
    (t.pages x).attr ≠ 0 :=
  pageInits_invariant (P := fun s => (s.pages x).attr ≠ 0)
    (fun _ _ _ _ hs hu => pageInit_attr_ne_zero hu hs) h hx

/-- The loop puts all its page structs in use. -/
theorem pageInits_attr (h : pageInits flags s ps = some t) (hflags : flags ≠ 0) (hp : p ∈ ps) :
    (t.pages p).attr ≠ 0 := by
  induction ps generalizing s with
  | nil => exact absurd hp List.not_mem_nil
  | cons p' ps ih =>
    obtain ⟨u, hu, ht⟩ := pageInits_cons.mp h
    rcases List.mem_cons.mp hp with rfl | hp
    · exact pageInits_attr_ne_zero ht (pageInit_attr_self hu hflags)
    · exact ih ht hp

/-- The reserved page structs are in use. -/
theorem initMemory_attr (h : initMemory b = some s) (hx : x ≤ lastKernelPage s) :
    (s.pages x).attr ≠ 0 := by
  obtain ⟨t, ht, rfl⟩ := initMemory_eq_some_iff.mp h
  have hused : (t.pages x).attr ≠ 0 := pageInits_attr ht (by decide) (mem_reserved ht hx)
  exact hused

/-- No call takes a page struct out of use. -/
theorem AllocStep.attr_ne_zero {l : AllocCall × Option ℕ} (h : AllocStep s l t)
    (hx : (s.pages x).attr ≠ 0) : (t.pages x).attr ≠ 0 := by
  rcases h.cases with ⟨-, -, rfl⟩ | ⟨q, -, -, ht⟩
  · exact hx
  · exact pageInits_attr_ne_zero ht hx

/-- The page structs a step hands out were not in use before it and are after it. -/
theorem AllocStep.takes {l : AllocCall × Option ℕ} (h : AllocStep s l t)
    (hunused : l.1.TakesUnused s) (hflags : l.1.pageFlags ≠ 0) {page : ℕ} (hpage : l.2 = some page)
    (hx : x ∈ runFrom page l.1.count) : (s.pages x).attr = 0 ∧ (t.pages x).attr ≠ 0 := by
  rcases h.cases with ⟨hnone, -⟩ | ⟨q, hq, hsome, ht⟩
  · rw [hnone] at hpage
    exact absurd hpage (by simp)
  · obtain rfl : q.page = page := Option.some.inj (hsome.symm.trans hpage)
    exact ⟨AllocCall.movedRun_iff.mp hunused q hq x hx, pageInits_attr ht hflags hx⟩

/-! ## Runs -/

/-- All pages a run hands out were not in use at its start. -/
theorem handed_unused {tr : List ((AllocCall × Option ℕ) × MemState)} (hrun : Always AllocStep s tr)
    (hunused : Always (fun s l _ => l.1.TakesUnused s) s tr)
    (hflags : Always (fun _ l _ => l.1.pageFlags ≠ 0) s tr) :
    ∀ run ∈ handed tr, ∀ x ∈ run, (s.pages x).attr = 0 := by
  induction tr generalizing s with
  | nil => exact fun run hr => absurd hr List.not_mem_nil
  | cons y tr ih =>
    obtain ⟨l, t⟩ := y
    have hstep : AllocStep s l t := hrun.1
    intro run hr x hx
    unfold handed at hr
    obtain ⟨z, hz, hzrun⟩ := List.mem_filterMap.mp hr
    rcases List.mem_cons.mp hz with rfl | hz
    · obtain ⟨page, hpage, rfl⟩ := Option.map_eq_some_iff.mp hzrun
      exact (hstep.takes hunused.1 hflags.1 hpage hx).1
    · have hlater := ih hrun.2 hunused.2 hflags.2 run (List.mem_filterMap.mpr ⟨z, hz, hzrun⟩) x hx
      by_contra hused
      exact hstep.attr_ne_zero hused hlater

/-- The runs of pages handed out along such a run are pairwise disjoint. -/
theorem handed_pairwise {tr : List ((AllocCall × Option ℕ) × MemState)}
    (hrun : Always AllocStep s tr) (hunused : Always (fun s l _ => l.1.TakesUnused s) s tr)
    (hflags : Always (fun _ l _ => l.1.pageFlags ≠ 0) s tr) :
    (handed tr).Pairwise List.Disjoint := by
  induction tr generalizing s with
  | nil => exact List.Pairwise.nil
  | cons y tr ih =>
    obtain ⟨⟨c, res⟩, t⟩ := y
    have hstep : AllocStep s (c, res) t := hrun.1
    have htail := ih hrun.2 hunused.2 hflags.2
    cases res with
    | none => exact htail
    | some page =>
      refine List.pairwise_cons.mpr ⟨fun run hr x hx hxr => ?_, htail⟩
      -- `x` is in use after the first step, and whatever is handed out later is not
      have hused := (hstep.takes hunused.1 hflags.1 rfl hx).2
      exact hused (handed_unused hrun.2 hunused.2 hflags.2 run hr x hxr)

/-- **No page is handed out twice, while the calls take what they tested or what is not in use.** In
a run of `alloc_pages` calls after `init_memory`, for at most 64 pages and with flags other than 0,
in which every call is made in a state where it is aligned or moves its lowest run to page structs
that are not in use, the runs of pages handed out are pairwise disjoint, and none of them has a page
that `init_memory` reserved. -/
theorem handed_disjoint (hinit : initMemory b = some s)
    {tr : List ((AllocCall × Option ℕ) × MemState)} (hrun : Always AllocStep s tr)
    (hcalls : Always (fun _ l _ => l.1.number.toNat ≤ 64 ∧ l.1.pageFlags ≠ 0) s tr)
    (hplaces : Always (fun s l _ => l.1.Aligned s ∨ l.1.TakesUnused s) s tr) :
    (handed tr).Pairwise List.Disjoint ∧
      ∀ run ∈ handed tr, ∀ x ∈ run, lastKernelPage s < x := by
  have hboth := Always.invariant_both (P := Marked) (fun s l t hs (h : AllocStep s l t ∧
    (l.1.number.toNat ≤ 64 ∧ l.1.pageFlags ≠ 0) ∧ (l.1.Aligned s ∨ l.1.TakesUnused s)) =>
      h.1.marked hs) (marked_initMemory hinit) (hrun.and (hcalls.and hplaces))
  have hunused : Always (fun s l _ => l.1.TakesUnused s) s tr := by
    refine hboth.mono fun s l t ⟨hs, ⟨_, hcall, hplace⟩, _⟩ => ?_
    exact hplace.elim (fun haligned => haligned.takesUnused hs hcall.1) id
  have hflags : Always (fun _ l _ => l.1.pageFlags ≠ 0) s tr := hcalls.mono fun _ _ _ h => h.2
  refine ⟨handed_pairwise hrun hunused hflags, fun run hr x hx => ?_⟩
  by_contra hle
  exact initMemory_attr hinit (Nat.le_of_not_lt hle) (handed_unused hrun hunused hflags run hr x hx)

/-! ## A PC with 138 MiB of memory -/

/-- Three calls that end inside the first word of the bitmap. -/
theorem pcState_handed_disjoint :
    (handed (runCalls pcState (normalCalls [1, 2, 3]))).Pairwise List.Disjoint ∧
      ∀ run ∈ handed (runCalls pcState (normalCalls [1, 2, 3])), ∀ x ∈ run,
        lastKernelPage pcState < x :=
  handed_disjoint initMemory_pcBoot (runCalls_steps _ _) (by decide +kernel) (by decide +kernel)

/-- **Page 63 is handed out twice.**  Once the pages 1 to 62 are taken, the search goes on at page
64, finds bit 64 clear and takes page 63, twice in a row. -/
theorem pcState_handed_twice :
    initMemory pcBoot = some pcState ∧
      Always AllocStep pcState (runCalls pcState (normalCalls [62, 1, 1])) ∧
      (∀ c ∈ normalCalls [62, 1, 1], c.Valid ∧ c.pageFlags ≠ 0 ∧ ¬ Shared c.pageFlags) ∧
      ¬ (handed (runCalls pcState (normalCalls [62, 1, 1]))).Pairwise List.Disjoint := by
  refine ⟨initMemory_pcBoot, runCalls_steps _ _, by decide, ?_⟩
  have hruns : (handed (runCalls pcState (normalCalls [62, 1, 1]))).drop 1 = [[63], [63]] := by
    decide +kernel
  intro h
  have hpair := h.drop (i := 1)
  rw [hruns, List.pairwise_pair] at hpair
  exact hpair List.mem_cons_self List.mem_cons_self

end Memory
end OSLib
