import OSLib.Foundation.Paging
import OSLib.Memory.FirstWord

/-!
# The low zone and the boot page tables

The kernel uses a page it got from `alloc_pages` through `Phy_To_Virt`, so the page must be mapped
there.  The page tables are those of `head.sx`: one entry of the `PML4` for the kernel half, one
page-directory-pointer entry, and a page directory whose first five entries map the first 10 MiB and
whose next eight map the frame buffer from `0xe0000000` on.

`usable_iff` says that exactly the pages 0 to 4 are mapped to themselves.  The allocator does not
know, and hands out what it finds.  `always_usable_iff` says when a run of calls stays among these
pages all the same, in two ways: for every memory map, by the bits of the bitmap in the state before
each call; and for the maps of a PC, whose first zone starts at page 1, by the size of the kernel
and the numbers of pages asked for alone, since there the pages go out in order (`NextFree`).

## The tables as they are in memory

`bootMem` is a memory with the entries that the directives of `head.sx` assemble, at the addresses
they are assembled for, and the walk over them is `Paging.walk`, which knows nothing of this kernel.
`HasTables` asks for the entries of the three tables and for nothing else, so that the walk is also
known in a memory to which other things have been written; `AddressSpace` uses it so.  The accessed
and dirty bits are not part of the entries: the processor sets them, and no walk depends on them.
-/

namespace OSLib
namespace Memory

open Paging

variable {m : PhysMem} {s t : MemState} {b : Boot} {x : ℕ}

/-! ## The tables of `head.sx` -/

/-- `cr3`. -/
def bootCr3 : ℕ := 0x101000

/-- `__PML4E`.  The first entry of `head.sx` is one of the ten that `init_memory` zeroes at its
end. -/
def bootPml4e (i : ℕ) : BitVec 64 := if i = 256 then 0x102007 else 0

/-- `__PDPTE`. -/
def bootPdpte (i : ℕ) : BitVec 64 := if i = 0 then 0x103003 else 0

/-- `__PDE`. -/
def bootPde (i : ℕ) : BitVec 64 :=
  [0x000083, 0x200083, 0x400083, 0x600083, 0x800083,
    0xe0000083, 0xe0200083, 0xe0400083, 0xe0600083, 0xe0800083, 0xe0a00083, 0xe0c00083,
    0xe0e00083].getD i 0

/-- Physical memory with the three tables in place; the rest is arbitrary. -/
def bootMem (m : PhysMem) : PhysMem := fun a =>
  if 0x101000 ≤ a ∧ a < 0x102000 then bootPml4e ((a - 0x101000) / 8)
  else if 0x102000 ≤ a ∧ a < 0x103000 then bootPdpte ((a - 0x102000) / 8)
  else if 0x103000 ≤ a ∧ a < 0x104000 then bootPde ((a - 0x103000) / 8)
  else m a

/-- The kernel can use the page at a physical address through `Phy_To_Virt`: every address of it is
translated back to itself. -/
def Usable (m : PhysMem) (phy : BitVec 64) : Prop :=
  ∀ o < 2 ^ 21, walk (bootMem m) bootCr3 (phyToVirt phy + BitVec.ofNat 64 o) = some (phy.toNat + o)

/-! ## What such tables map -/

/-- The three tables are in memory, with the entries `pml4e` in the first one. -/
structure HasTables (pml4e : ℕ → BitVec 64) (m : PhysMem) : Prop where
  pml4 : ∀ i < 512, m (bootCr3 + 8 * i) = pml4e i
  pdpt : ∀ i < 512, m (0x102000 + 8 * i) = bootPdpte i
  pd : ∀ i < 512, m (0x103000 + 8 * i) = bootPde i

/-- The page-directory-pointer table and the page directory have an entry for the address. -/
def InDirectory (va : BitVec 64) : Prop := index 3 va = 0 ∧ index 2 va < 13

instance (va : BitVec 64) : Decidable (InDirectory va) := by unfold InDirectory; infer_instance

/-- Where the page directory sends an address. -/
def target (va : BitVec 64) : ℕ := frame 21 (bootPde (index 2 va)) + va.toNat % 2 ^ 21

variable {pml4e : ℕ → BitVec 64} {va : BitVec 64}

/-- The walk from the page-directory-pointer table on. -/
theorem HasTables.walkFrom_pdpt (h : HasTables pml4e m) :
    walkFrom m va 3 0x102000 = if InDirectory va then some (target va) else none := by
  have hzero : ¬ Present 0 := by decide
  have e2 : m (0x103000 + 8 * index 2 va) = bootPde (index 2 va) :=
    h.pd _ (Nat.mod_lt _ (by decide))
  have ht : m 0x102000 = 0x103003 := h.pdpt 0 (by decide)
  have htable : Present (m 0x102000) ∧ ¬ PageSize (m 0x102000) ∧
      frame 12 (m 0x102000) = 0x103000 := by
    rw [ht]
    decide
  by_cases h3 : index 3 va = 0
  · by_cases h2 : index 2 va < 13
    · have hentries : ∀ i < 13, Present (bootPde i) ∧ PageSize (bootPde i) := by decide
      obtain ⟨hp, hs⟩ := hentries _ h2
      rw [walkFrom_of_directory h3 htable (e2 ▸ hp) (e2 ▸ hs), e2, if_pos ⟨h3, h2⟩, target]
    · have hnone : bootPde (index 2 va) = 0 := by
        rw [bootPde, List.getD_eq_getElem?_getD, List.getElem?_eq_none (Nat.not_lt.mp h2)]
        rfl
      have e3 : entry m 0x102000 3 va = 0x103003 := by rw [entry, h3]; exact ht
      have hentry : entry m 0x103000 2 va = 0 := e2.trans hnone
      rw [walkFrom_of_table (by rw [e3]; decide) (by rw [e3]; decide), e3,
        show frame 12 0x103003 = 0x103000 by decide, walkFrom_of_not_present (hentry ▸ hzero),
        if_neg fun h => h2 h.2]
  · have e3 : entry m 0x102000 3 va = 0 :=
      (h.pdpt _ (Nat.mod_lt _ (by decide))).trans (if_neg h3)
    rw [walkFrom_of_not_present (e3 ▸ hzero), if_neg fun h => h3 h.1]

/-- **What the tables map**, as long as each entry of the `PML4` is empty or leads to the one
page-directory-pointer table. -/
theorem HasTables.walk_eq (h : HasTables pml4e m)
    (hpml4 : ∀ i < 512, pml4e i = 0x102007 ∨ pml4e i = 0) :
    walk m bootCr3 va =
      if Canonical va ∧ pml4e (index 4 va) = 0x102007 ∧ InDirectory va then some (target va)
      else none := by
  have hindex : index 4 va < 512 := Nat.mod_lt _ (by decide)
  have e4 : entry m bootCr3 4 va = pml4e (index 4 va) := h.pml4 _ hindex
  by_cases hcan : Canonical va
  · rw [walk_of_canonical hcan]
    rcases hpml4 _ hindex with htable | hzero
    · rw [htable] at e4
      rw [walkFrom_of_table (by rw [e4]; decide) (by rw [e4]; decide), e4,
        show frame 12 0x102007 = 0x102000 by decide, h.walkFrom_pdpt]
      exact if_congr ⟨fun hw => ⟨hcan, htable, hw⟩, fun hw => hw.2.2⟩ rfl rfl
    · rw [hzero] at e4
      have hnot : pml4e (index 4 va) ≠ 0x102007 := by
        rw [hzero]
        decide
      rw [walkFrom_of_not_present (by rw [e4]; decide), if_neg fun hw => hnot hw.2.1]
  · rw [walk_of_not_canonical hcan, if_neg fun hw => hcan hw.1]

/-- A memory written as `bootMem` is holds the tables. -/
theorem hasTables_of_ite (pml4e : ℕ → BitVec 64) (m : PhysMem) : HasTables pml4e fun a =>
    if 0x101000 ≤ a ∧ a < 0x102000 then pml4e ((a - 0x101000) / 8)
    else if 0x102000 ≤ a ∧ a < 0x103000 then bootPdpte ((a - 0x102000) / 8)
    else if 0x103000 ≤ a ∧ a < 0x104000 then bootPde ((a - 0x103000) / 8)
    else m a := by
  have hcr3 : bootCr3 = 0x101000 := rfl
  refine ⟨fun i hi => ?_, fun i hi => ?_, fun i hi => ?_⟩
  · rw [if_pos (by omega)]
    exact congrArg pml4e (by omega)
  · rw [if_neg (by omega), if_pos (by omega)]
    exact congrArg bootPdpte (by omega)
  · rw [if_neg (by omega), if_neg (by omega), if_pos (by omega)]
    exact congrArg bootPde (by omega)

theorem hasTables_bootMem : HasTables bootPml4e (bootMem m) := hasTables_of_ite bootPml4e m

/-- **What the tables map**: an address of the kernel half whose page-directory-pointer index is 0
goes where its page-directory entry says, and no other address goes anywhere. -/
theorem walk_bootMem (va : BitVec 64) :
    walk (bootMem m) bootCr3 va =
      if Canonical va ∧ index 4 va = 256 ∧ index 3 va = 0 ∧ index 2 va < 13 then
        some (frame 21 (bootPde (index 2 va)) + va.toNat % 2 ^ 21)
      else none := by
  have hpml4 : ∀ i, bootPml4e i = 0x102007 ↔ i = 256 := by
    intro i
    unfold bootPml4e
    split
    · exact iff_of_true rfl ‹_›
    · exact iff_of_false (by decide) ‹_›
  rw [hasTables_bootMem.walk_eq fun i _ => ?_]
  · exact if_congr (by rw [hpml4, InDirectory]) rfl rfl
  · unfold bootPml4e
    split
    · exact .inl rfl
    · exact .inr rfl

/-! ## Which pages are usable -/

/-- The virtual address of an offset into a page. -/
theorem toNat_phyToVirt (hx : x < 2 ^ 43) (o : ℕ) :
    (phyToVirt (pageAddr x) + BitVec.ofNat 64 o).toNat =
      (2 ^ 64 - 2 ^ 47 + x * 2 ^ 21 + o) % 2 ^ 64 := by
  have hoff : pageOffset.toNat = 2 ^ 64 - 2 ^ 47 := by decide
  rw [phyToVirt, BitVec.toNat_add, BitVec.toNat_add, toNat_pageAddr hx, hoff, BitVec.toNat_ofNat]
  omega

/-- **The usable pages are the first five.** -/
theorem usable_iff (hx : x < 2 ^ 43) : Usable m (pageAddr x) ↔ x < 5 := by
  have hframe : ∀ i < 13, frame 21 (bootPde i) =
      if i < 5 then i * 2 ^ 21 else 0xe0000000 + (i - 5) * 2 ^ 21 := by decide
  constructor
  · intro h
    have h0 := h 0 (by decide)
    have hva := toNat_phyToVirt hx 0
    rw [walk_bootMem] at h0
    split at h0
    · next hmap =>
      obtain ⟨hcan, h4, h3, h2⟩ := hmap
      have haddr := Option.some.inj h0
      rw [hframe _ h2, toNat_pageAddr hx] at haddr
      by_contra hge
      by_cases h5 : index 2 (phyToVirt (pageAddr x) + BitVec.ofNat 64 0) < 5
      · rw [if_pos h5] at haddr
        simp only [index] at h4 h3 h2 haddr h5
        omega
      · rw [if_neg h5] at haddr
        simp only [index] at h4 h3 h2 haddr h5
        omega
    · exact absurd h0 (by simp)
  · intro hlt o ho
    have hva := toNat_phyToVirt hx o
    have h4 : index 4 (phyToVirt (pageAddr x) + BitVec.ofNat 64 o) = 256 := by
      simp only [index]
      omega
    have h3 : index 3 (phyToVirt (pageAddr x) + BitVec.ofNat 64 o) = 0 := by
      simp only [index]
      omega
    have h2 : index 2 (phyToVirt (pageAddr x) + BitVec.ofNat 64 o) = x := by
      simp only [index]
      omega
    have hcan : Canonical (phyToVirt (pageAddr x) + BitVec.ofNat 64 o) := Or.inr (by omega)
    rw [walk_bootMem, if_pos ⟨hcan, h4, h3, by omega⟩, h2, hframe x (by omega), if_pos hlt,
      toNat_pageAddr hx]
    congr 1
    omega

/-! ## The addresses in the page structs -/

/-- The page structs of the zones hold their own addresses.  For this the memory map need not be
sound: where entries overlap, a page struct is written twice with the same address. -/
def Addressed (s : MemState) : Prop :=
  ∀ z < s.desc.zonesSize, ∀ x, (s.zones z).Owns x → (s.pages x).phyAddr = pageAddr x

theorem Addressed.of_sameLayout (hs : Addressed s) (h : SameLayout s t) : Addressed t := by
  intro z hz x hx
  rw [h.phyAddr]
  exact hs z (h.desc ▸ hz) x (h.owns.mp hx)

theorem Addressed.addZone (hs : Addressed s) (e : E820) : Addressed (addZone s e) := by
  rcases addZone_cases s e with ⟨-, heq⟩ | ⟨-, hlt, bits, heq, -⟩
  · rw [heq]
    exact hs
  · rw [heq]
    intro z hz x hx
    change (ite _ _ _ : Page).phyAddr = _
    split
    · rfl
    · next hout =>
      -- not a page of the new zone, so one of an earlier zone
      have hne : z ≠ s.desc.zonesSize := by
        rintro rfl
        refine hout ?_
        simp only [withZone, Function.update_self] at hx
        rwa [Zone.Owns, show (initZone (pageAddr e.startPage) (pageAddr e.endPage)).startPage =
          e.startPage from pageNo_pageAddr (pageNo_lt _),
          show (initZone (pageAddr e.startPage) (pageAddr e.endPage)).endPage = e.endPage from
          pageNo_pageAddr (pageNo_lt _)] at hx
      have hz : z < s.desc.zonesSize := lt_of_le_of_ne (Nat.le_of_lt_succ hz) hne
      simp only [withZone, Function.update_of_ne hne] at hx
      exact hs z hz x hx

theorem addressed_beforeReserve (b : Boot) : Addressed (beforeReserve b) := by
  have hloop : ∀ (table : List E820) (s : MemState), Addressed s →
      Addressed (addZones s table) := by
    intro table
    induction table with
    | nil => exact fun s hs => hs
    | cons e table ih => exact fun s hs => ih _ (hs.addZone e)
  have hs : Addressed (addZones (initArrays b) (initDesc b).e820) :=
    hloop _ _ fun z hz => absurd hz (Nat.not_lt_zero z)
  intro z hz x hx
  by_cases hx0 : x = 0
  · subst hx0
    rfl
  · exact (congrArg Page.phyAddr (Function.update_of_ne hx0 ..)).trans (hs z hz x hx)

theorem addressed_initMemory (h : initMemory b = some s) : Addressed s := by
  obtain ⟨t, ht, rfl⟩ := initMemory_eq_some_iff.mp h
  have hs : Addressed t := (addressed_beforeReserve b).of_sameLayout (pageInits_sameLayout ht)
  exact hs

/-! ## Runs of `alloc_pages` -/

/-- The page belongs to the low zone, the first one. -/
def InLowZone (s : MemState) (x : ℕ) : Prop := 0 < s.desc.zonesSize ∧ (s.zones 0).Owns x

instance (s : MemState) (x : ℕ) : Decidable (InLowZone s x) := by unfold InLowZone; infer_instance

/-- The kernel can use all pages of the low zone that the step hands out. -/
def HandsOutUsable (m : PhysMem) (l : AllocCall × Option ℕ) (t : MemState) : Prop :=
  ∀ page, l.2 = some page → ∀ x ∈ runFrom page l.1.count, InLowZone t x →
    Usable m (t.pages x).phyAddr

/-- The lowest run of the call, moved, has no page of the low zone from page 5 on. -/
def AllocCall.EndsLow (c : AllocCall) (s : MemState) : Prop :=
  c.MovedRun (fun x => InLowZone s x → x < 5) s

instance (c : AllocCall) (s : MemState) : Decidable (c.EndsLow s) := by
  unfold AllocCall.EndsLow
  infer_instance

theorem handsOutUsable_iff {l : AllocCall × Option ℕ} (hs : Addressed s) (h : AllocStep s l t) :
    HandsOutUsable m l t ↔ l.1.EndsLow s := by
  have hlay := h.sameLayout
  have hlow : ∀ x, InLowZone t x ↔ InLowZone s x := by
    intro x
    rw [InLowZone, hlay.desc, hlay.owns, InLowZone]
  have husable : ∀ x, InLowZone s x → (Usable m (t.pages x).phyAddr ↔ x < 5) := by
    rintro x ⟨hz, hx⟩
    rw [hlay.phyAddr, hs 0 hz x hx]
    exact usable_iff hx.lt
  rw [AllocCall.EndsLow, AllocCall.movedRun_iff]
  rcases h.cases with ⟨hnull, hfound, -⟩ | ⟨q, hfound, hpage, -⟩
  · refine iff_of_true (fun page hpage => ?_) (fun q hq => ?_)
    · rw [hnull] at hpage
      exact absurd hpage (by simp)
    · rw [hfound] at hq
      exact absurd hq (by simp)
  · constructor
    · intro h q' hq' x hx hin
      obtain rfl : q = q' := Option.some.inj (hfound.symm.trans hq')
      exact (husable x hin).mp (h q.page hpage x hx ((hlow x).mpr hin))
    · intro h page hpage' x hx hin
      obtain rfl : q.page = page := Option.some.inj (hpage.symm.trans hpage')
      exact (husable x ((hlow x).mp hin)).mpr (h q hfound x hx ((hlow x).mp hin))

/-- The same along runs, from any state whose page structs hold their own addresses. -/
theorem always_handsOutUsable_iff (m : PhysMem) (hs : Addressed s)
    {tr : List ((AllocCall × Option ℕ) × MemState)} (hrun : Always AllocStep s tr) :
    Always (fun _ l t => HandsOutUsable m l t) s tr ↔
      Always (fun s l _ => l.1.EndsLow s) s tr :=
  Always.congr_of_invariant (K := Addressed) (fun _ _ _ hs h => hs.of_sameLayout h.sameLayout)
    (fun _ _ _ hs h => handsOutUsable_iff hs h) hs hrun

/-! ## A low zone that starts at page 1 -/

/-- A call that fits hands out the next pages, which can be used while they end by page 5. -/
theorem NextFree.handsOutUsable_iff {n : ℕ} {c : AllocCall}
    (ht : NextFree (n + c.number.toNat) t) (hsize : 0 < t.desc.zonesSize) (h1 : 1 ≤ n)
    (hn : 1 ≤ c.number.toNat) (hn' : c.number.toNat ≤ 64)
    (hfits : n + c.number.toNat < (t.zones 0).endPage) :
    HandsOutUsable m (c, some n) t ↔ n + c.number.toNat ≤ 5 := by
  have hlt : (t.zones 0).endPage < 2 ^ 43 := pageNo_lt _
  have husable : ∀ x, n ≤ x → x < n + c.number.toNat →
      InLowZone t x ∧ (Usable m (t.pages x).phyAddr ↔ x < 5) := by
    intro x hx hx'
    refine ⟨⟨hsize, ?_⟩, ?_⟩
    · rw [Zone.Owns, ht.start]
      omega
    · rw [ht.phyAddr x (by omega)]
      exact usable_iff (by omega)
  have hmem : ∀ x, x ∈ runFrom n c.count ↔ n ≤ x ∧ x < n + c.number.toNat := by
    intro x
    rw [c.count_eq (by omega), runFrom_eq_range' (by omega), List.mem_range'_1]
  constructor
  · intro hall
    have hlast := hall n rfl (n + (c.number.toNat - 1)) ((hmem _).mpr (by omega))
    obtain ⟨hin, hiff⟩ := husable (n + (c.number.toNat - 1)) (by omega) (by omega)
    have := hiff.mp (hlast hin)
    omega
  · intro h5 page hpage x hx _
    obtain rfl : n = page := Option.some.inj hpage
    obtain ⟨hx, hx'⟩ := (hmem x).mp hx
    exact (husable x hx hx').2.mpr (by omega)

/-- **How far the calls come.**  With `n` as the next page, the pages that a list of calls is given
can be used exactly when the page behind the last one of them is page 5 at most, or none is given.
-/
theorem NextFree.always_runCalls_iff {n : ℕ} (h : NextFree n s) (hsize : 0 < s.desc.zonesSize)
    (h1 : 1 ≤ n) (h62 : n ≤ 62) {cs : List AllocCall}
    (hcs : ∀ c ∈ cs, c.zoneSelect = zoneNormal ∧ 1 ≤ c.number.toNat ∧ c.number.toNat ≤ 64) :
    Always (fun _ l t => HandsOutUsable m l t) s (runCalls s cs) ↔
      nextAfter (s.zones 0).endPage n cs ≤ 5 ∨ nextAfter (s.zones 0).endPage n cs = n := by
  induction cs generalizing s n with
  | nil => exact iff_of_true trivial (.inr rfl)
  | cons c cs ih =>
    obtain ⟨⟨hsel, hn, hn'⟩, hcs⟩ := List.forall_mem_cons.mp hcs
    have hsel : c.zoneSelect ≠ zoneUnmapped := by
      rw [hsel]
      decide
    have hle := le_nextAfter (s.zones 0).endPage (n + c.number.toNat) cs
    by_cases hfits : n + c.number.toNat < (s.zones 0).endPage
    · obtain ⟨-, t, hrun, hnext⟩ := h.alloc hsel h1 h62 hn hn' hfits
      have hlay := (show AllocStep s (c, some n) t from hrun).sameLayout
      have hend := hlay.endPage 0
      have hsize' : 0 < t.desc.zonesSize := hlay.desc ▸ hsize
      have hafter : nextAfter (s.zones 0).endPage n (c :: cs) =
          nextAfter (s.zones 0).endPage (n + c.number.toNat) cs := by
        rw [nextAfter, List.foldl_cons, if_pos hfits, nextAfter]
      rw [runCalls, hrun, hafter]
      refine (Always.cons).trans ?_
      rw [hnext.handsOutUsable_iff hsize' h1 hn hn' (hend ▸ hfits)]
      by_cases h5 : n + c.number.toNat ≤ 5
      · have hrest := ih hnext hsize' (by omega) (by omega) hcs
        rw [hend] at hrest
        rw [hrest]
        omega
      · omega
    · have hafter : nextAfter (s.zones 0).endPage n (c :: cs) =
          nextAfter (s.zones 0).endPage n cs := by
        rw [nextAfter, List.foldl_cons, if_neg hfits, nextAfter]
      rw [runCalls, h.run_eq_null hsel hn' (Nat.le_of_not_lt hfits), hafter]
      refine (Always.cons).trans ?_
      rw [ih h hsize h1 h62 hcs]
      exact and_iff_right fun page hpage => nomatch hpage

/-- **When the low zone can be used.**  After `init_memory` on any memory map, the kernel can use
through `Phy_To_Virt` all pages of the low zone that a run of `alloc_pages` calls hands out exactly
when every call is made in a state where its lowest run, moved, has no page of the low zone from
page 5 on.

On a sound memory map whose first zone starts at page 1, with a kernel that ends below page 62, this
can be told from the calls: the kernel and the calls that fit into the zone may not use more than
the pages 0 to 4. -/
theorem always_usable_iff (m : PhysMem) (hinit : initMemory b = some s) :
    (∀ tr, Always AllocStep s tr → (Always (fun _ l t => HandsOutUsable m l t) s tr ↔
      Always (fun s l _ => l.1.EndsLow s) s tr)) ∧
    ∀ e, SoundMap (e820Scan b.slots) → (zoneEntries (e820Scan b.slots))[0]? = some e →
      e.startPage = 1 → lastKernelPage s + 1 < e.endPage → lastKernelPage s < 62 →
      ∀ cs : List AllocCall,
        (∀ c ∈ cs, c.zoneSelect = zoneNormal ∧ 1 ≤ c.number.toNat ∧ c.number.toNat ≤ 64) →
        (Always (fun _ l t => HandsOutUsable m l t) s (runCalls s cs) ↔
          nextAfter e.endPage (lastKernelPage s + 1) cs ≤ 5 ∨
            nextAfter e.endPage (lastKernelPage s + 1) cs = lastKernelPage s + 1) := by
  refine ⟨fun tr hrun => always_handsOutUsable_iff m (addressed_initMemory hinit) hrun, ?_⟩
  intro e hmap he hstart hfits hlast cs hcs
  obtain ⟨hfree, hend⟩ := nextFree_initMemory hmap he hstart hinit hfits
  have hsize : 0 < s.desc.zonesSize := by
    obtain ⟨t, ht, rfl⟩ := initMemory_eq_some_iff.mp hinit
    have hdesc : t.desc.zonesSize = (zoneEntries (e820Scan b.slots)).length :=
      (congrArg GlobalMemoryDesc.zonesSize (pageInits_sameLayout ht).desc).trans hmap.zoneTable.size
    show 0 < t.desc.zonesSize
    rw [hdesc]
    exact (List.getElem?_eq_some_iff.mp he).1
  rw [← hend]
  exact hfree.always_runCalls_iff hsize (Nat.le_add_left 1 _) (by omega) hcs

/-- The first four pages of the PC can be used, however they are asked for. -/
theorem pcState_usable :
    Always (fun _ l t => HandsOutUsable (fun _ => 0) l t) pcState
        (runCalls pcState (normalCalls [1, 1, 1, 1])) ∧
      Always (fun _ l t => HandsOutUsable (fun _ => 0) l t) pcState
        (runCalls pcState (normalCalls [3, 1])) := by
  obtain ⟨hplaces, hcalls⟩ := always_usable_iff (fun _ => 0) initMemory_pcBoot
  refine ⟨(hplaces _ (runCalls_steps _ _)).mpr (by decide +kernel), ?_⟩
  exact (hcalls ⟨0x100000, 0x8900000, 1⟩ soundMap_pcBoot (by decide) (by decide)
    (by decide +kernel) (by decide +kernel) _ (by decide)).mpr (.inl (by decide +kernel))

/-- **The fifth one cannot**: page 5 lies at 10 MiB, where the page directory maps the frame
buffer. -/
theorem pcState_not_usable :
    initMemory pcBoot = some pcState ∧
      Always AllocStep pcState (runCalls pcState (normalCalls [1, 1, 1, 1, 1])) ∧
      ∀ m, ¬ Always (fun _ l t => HandsOutUsable m l t) pcState
        (runCalls pcState (normalCalls [1, 1, 1, 1, 1])) := by
  refine ⟨initMemory_pcBoot, runCalls_steps _ _, fun m h => ?_⟩
  have hlow := (always_handsOutUsable_iff m (addressed_initMemory initMemory_pcBoot)
    (runCalls_steps pcState (normalCalls [1, 1, 1, 1, 1]))).mp h
  exact absurd hlow (by decide +kernel)

end Memory
end OSLib
