import Mathlib.Algebra.BigOperators.Group.Finset.Basic
import Mathlib.Algebra.Order.BigOperators.Group.Finset
import OSLib.Foundation.Runs
import OSLib.Memory.Page

/-!
# The books of the page allocator

A zone keeps its books in four places that `page_init` and `page_clean` must move together: the
bitmap, the page structs, and the counters `page_using_cnt`, `page_free_cnt` and `total_page_lnk`.
`Accounted` says that the books balance.

Run from freshly initialised zones, the two functions keep them balanced except in one branch and
in one overflow: `page_clean` on the last reference of a shared page frees the page struct but
leaves its bit set, and a reference taken when `total_page_lnk` has reached `2 ^ 64 - 1` wraps the
counter.  `always_accounted_iff` says that these are the only ways: a run keeps the books balanced
exactly when none of its steps is one of the two.

## One page and one zone

Both functions change one page and one zone, so a change of the books is judged at that page and
that zone alone; that is `accounted_update_iff`, and each branch is then an equation between
machine words.

The invariant counts over the pages of a zone, and a sum over a set with one element changed is the
sum over the rest and that element.  The rest is the same before and after, which is why the
equivalence holds in both directions and no branch needs the other pages.

## Runs

A step that breaks the books may be followed by one that happens to mend them.  The theorem is
about the state after every step of the run, so that a run is blamed for the first of its steps that
breaks them; until then the condition is the one of a single step, at a state where the books
balance.
-/

namespace OSLib
namespace Memory

/-! ## The books -/

namespace MemState

variable (s : MemState)

/-- The sum of `g` over the pages of zone `z`. -/
def tally (g : Page → ℕ) (z : ℕ) : ℕ :=
  ∑ x ∈ Finset.Ico (s.zones z).startPage (s.zones z).endPage, g (s.pages x)

end MemState

/-- A page counts as in use when its attribute is not zero. -/
def Page.inUse (pg : Page) : ℕ := if pg.attr = 0 then 0 else 1

/-- The references to a page. -/
def Page.refs (pg : Page) : ℕ := pg.refCnt.toNat

theorem Page.inUse_le_one (pg : Page) : pg.inUse ≤ 1 := by
  unfold Page.inUse
  split <;> omega

theorem Page.inUse_of_ne {pg : Page} (h : pg.attr ≠ 0) : pg.inUse = 1 := if_neg h

theorem Page.inUse_of_eq {pg : Page} (h : pg.attr = 0) : pg.inUse = 0 := if_pos h

/-- **The books balance.**  For every zone and every page of it: the bit is set exactly for a page
in use, a page is in use exactly when it is referenced, and the three counters of the zone are the
number of its pages in use, the number of the others, and the sum of the references. -/
structure Accounted (s : MemState) : Prop where
  bit_iff : ∀ z < s.desc.zonesSize, ∀ x, (s.zones z).Owns x →
    (s.bits.bit x = true ↔ (s.pages x).attr ≠ 0)
  ref_iff : ∀ z < s.desc.zonesSize, ∀ x, (s.zones z).Owns x →
    ((s.pages x).attr ≠ 0 ↔ 0 < (s.pages x).refCnt.toNat)
  usingCnt : ∀ z < s.desc.zonesSize, (s.zones z).pageUsingCnt.toNat = s.tally Page.inUse z
  freeCnt : ∀ z < s.desc.zonesSize,
    (s.zones z).pageFreeCnt.toNat + s.tally Page.inUse z = (s.zones z).pageLen.toNat
  pageLnk : ∀ z < s.desc.zonesSize, (s.zones z).totalPageLnk.toNat = s.tally Page.refs z

/-- Freshly initialised zones and pages: every page of a zone points to the zone, holds its own
address and is free, and no counter has moved yet. -/
structure Fresh (s : MemState) : Prop where
  page : ∀ z < s.desc.zonesSize, ∀ x, (s.zones z).Owns x →
    (s.pages x).zoneStruct = some z ∧ (s.pages x).phyAddr = pageAddr x ∧
      (s.pages x).attr = 0 ∧ (s.pages x).refCnt = 0 ∧ s.bits.bit x = false
  zone : ∀ z < s.desc.zonesSize,
    (s.zones z).pageLen.toNat = (s.zones z).endPage - (s.zones z).startPage ∧
      (s.zones z).pageUsingCnt = 0 ∧ (s.zones z).pageFreeCnt = (s.zones z).pageLen ∧
      (s.zones z).totalPageLnk = 0

/-- What the two functions rely on and never change: where the page structs point, how long the
zones are, and that a page in plain use is referenced once. -/
structure Ledger (s : MemState) : Prop extends Zoned s where
  pageLen : ∀ z < s.desc.zonesSize,
    (s.zones z).pageLen.toNat = (s.zones z).endPage - (s.zones z).startPage
  plain : ∀ z < s.desc.zonesSize, ∀ x, (s.zones z).Owns x →
    (s.pages x).attr ≠ 0 → ¬ Shared (s.pages x).attr → (s.pages x).refCnt = 1

variable {s t : MemState} {p z x : ℕ}

theorem Fresh.ledger (h : Fresh s) : Ledger s where
  zoneStruct z hz x hx := (h.page z hz x hx).1
  phyAddr z hz x hx := (h.page z hz x hx).2.1
  pageLen z hz := (h.zone z hz).1
  plain z hz x hx hne := absurd (h.page z hz x hx).2.2.1 hne

theorem Fresh.accounted (h : Fresh s) : Accounted s where
  bit_iff z hz x hx := by
    obtain ⟨-, -, ha, -, hb⟩ := h.page z hz x hx
    simp [ha, hb]
  ref_iff z hz x hx := by
    obtain ⟨-, -, ha, hr, -⟩ := h.page z hz x hx
    simp [ha, hr]
  usingCnt z hz := by
    rw [(h.zone z hz).2.1, MemState.tally, Finset.sum_eq_zero]
    · rfl
    · intro x hx
      exact Page.inUse_of_eq (h.page z hz x (Finset.mem_Ico.mp hx)).2.2.1
  freeCnt z hz := by
    rw [(h.zone z hz).2.2.1, MemState.tally, Finset.sum_eq_zero, Nat.add_zero]
    intro x hx
    exact Page.inUse_of_eq (h.page z hz x (Finset.mem_Ico.mp hx)).2.2.1
  pageLnk z hz := by
    rw [(h.zone z hz).2.2.2, MemState.tally, Finset.sum_eq_zero]
    · rfl
    · intro x hx
      rw [Page.refs, (h.page z hz x (Finset.mem_Ico.mp hx)).2.2.2.1]
      rfl

/-! ## One page and one zone change -/

/-- Changing one page moves a tally of its zone by the difference at that page. -/
theorem sum_update_add (f : ℕ → Page) (g : Page → ℕ) (pg : Page) {A : Finset ℕ} (hp : p ∈ A) :
    ∑ x ∈ A, g (Function.update f p pg x) + g (f p) = ∑ x ∈ A, g (f x) + g pg := by
  rw [← Finset.add_sum_erase A _ hp, ← Finset.add_sum_erase A (fun x => g (f x)) hp,
    Function.update_self]
  have hrest : ∑ x ∈ A.erase p, g (Function.update f p pg x) = ∑ x ∈ A.erase p, g (f x) := by
    refine Finset.sum_congr rfl fun x hx => ?_
    rw [Function.update_of_ne (Finset.ne_of_mem_erase hx)]
  omega

theorem sum_update_of_notMem (f : ℕ → Page) (g : Page → ℕ) (pg : Page) {A : Finset ℕ}
    (hp : p ∉ A) : ∑ x ∈ A, g (Function.update f p pg x) = ∑ x ∈ A, g (f x) := by
  refine Finset.sum_congr rfl fun x hx => ?_
  rw [Function.update_of_ne (by rintro rfl; exact hp hx)]

/-- The term of one page is part of the tally of its zone. -/
theorem le_tally (g : Page → ℕ) (hp : (s.zones z).Owns p) : g (s.pages p) ≤ s.tally g z :=
  Finset.single_le_sum (f := fun x => g (s.pages x)) (fun _ _ => Nat.zero_le _)
    (Finset.mem_Ico.mpr hp)

/-- No more pages are in use than the zone has, and fewer when one of them is free. -/
theorem tally_inUse_add_le (hp : (s.zones z).Owns p) :
    s.tally Page.inUse z + 1 ≤
      (s.zones z).endPage - (s.zones z).startPage + (s.pages p).inUse := by
  have hmem := Finset.mem_Ico.mpr hp
  have hrest : ∑ x ∈ (Finset.Ico (s.zones z).startPage (s.zones z).endPage).erase p,
      (s.pages x).inUse ≤
        ((Finset.Ico (s.zones z).startPage (s.zones z).endPage).erase p).card * 1 :=
    Finset.sum_le_card_nsmul _ _ _ fun x _ => Page.inUse_le_one _
  rw [Finset.card_erase_of_mem hmem, Nat.card_Ico] at hrest
  rw [MemState.tally, ← Finset.add_sum_erase _ _ hmem]
  have h1 := hp.1
  have h2 := hp.2
  omega

/-- **A change is judged at its page and its zone.**  When the books balance and page `p` of zone
`z`, the bit of `p` and the counters of `z` change, the books balance again exactly when they do at
`p` and the counters moved by what the page's own use and references moved. -/
theorem accounted_update_iff (hl : Ledger s) (hs : Accounted s) (hz : z < s.desc.zonesSize)
    (hp : (s.zones z).Owns p) {b : Bitmap} {pg : Page} (zn : Zone)
    (hb : ∀ x, x ≠ p → b.bit x = s.bits.bit x)
    (hstart : zn.zoneStartAddr = (s.zones z).zoneStartAddr)
    (hend : zn.zoneEndAddr = (s.zones z).zoneEndAddr) (hlen : zn.pageLen = (s.zones z).pageLen) :
    Accounted { s with
        bits := b, pages := Function.update s.pages p pg, zones := Function.update s.zones z zn } ↔
      (b.bit p = true ↔ pg.attr ≠ 0) ∧ (pg.attr ≠ 0 ↔ 0 < pg.refCnt.toNat) ∧
      zn.pageUsingCnt.toNat + (s.pages p).inUse = (s.zones z).pageUsingCnt.toNat + pg.inUse ∧
      zn.pageFreeCnt.toNat + pg.inUse = (s.zones z).pageFreeCnt.toNat + (s.pages p).inUse ∧
      zn.totalPageLnk.toNat + (s.pages p).refs = (s.zones z).totalPageLnk.toNat + pg.refs := by
  set t : MemState := { s with
    bits := b, pages := Function.update s.pages p pg,
    zones := Function.update s.zones z zn } with ht
  have hz_self : t.zones z = zn := Function.update_self ..
  have hz_ne : ∀ y, y ≠ z → t.zones y = s.zones y := fun y hy => Function.update_of_ne hy ..
  have hp_self : t.pages p = pg := Function.update_self ..
  have hp_ne : ∀ y, y ≠ p → t.pages y = s.pages y := fun y hy => Function.update_of_ne hy ..
  have hstart' : zn.startPage = (s.zones z).startPage := congrArg pageNo hstart
  have hend' : zn.endPage = (s.zones z).endPage := congrArg pageNo hend
  have howns : ∀ y x, (t.zones y).Owns x ↔ (s.zones y).Owns x := by
    intro y x
    by_cases hy : y = z
    · subst hy
      rw [hz_self, Zone.Owns, hstart', hend', Zone.Owns]
    · rw [hz_ne y hy]
  have htally : ∀ g : Page → ℕ, t.tally g z + g (s.pages p) = s.tally g z + g pg := by
    intro g
    have h := sum_update_add s.pages g pg (Finset.mem_Ico.mpr hp)
    rw [MemState.tally, hz_self, hstart', hend']
    exact h
  have htally_ne : ∀ g : Page → ℕ, ∀ y < s.desc.zonesSize, y ≠ z → t.tally g y = s.tally g y := by
    intro g y hyn hy
    have hnot : p ∉ Finset.Ico (s.zones y).startPage (s.zones y).endPage := fun hmem =>
      hl.not_owns hz hyn hp hy (Finset.mem_Ico.mp hmem)
    rw [MemState.tally, hz_ne y hy]
    exact sum_update_of_notMem s.pages g pg hnot
  have hu := htally Page.inUse
  have hr := htally Page.refs
  have hsu := hs.usingCnt z hz
  have hsf := hs.freeCnt z hz
  have hsl := hs.pageLnk z hz
  constructor
  · intro h
    have h1 := h.bit_iff z hz p ((howns z p).mpr hp)
    have h2 := h.ref_iff z hz p ((howns z p).mpr hp)
    have h3 := h.usingCnt z hz
    have h4 := h.freeCnt z hz
    have h5 := h.pageLnk z hz
    rw [hp_self] at h1 h2
    rw [hz_self] at h3 h4 h5
    rw [hlen] at h4
    exact ⟨h1, h2, by omega, by omega, by omega⟩
  · rintro ⟨h1, h2, h3, h4, h5⟩
    refine ⟨fun y hy x hx => ?_, fun y hy x hx => ?_, fun y hy => ?_, fun y hy => ?_,
      fun y hy => ?_⟩
    · by_cases hxp : x = p
      · subst hxp
        rw [hp_self]
        exact h1
      · rw [hp_ne x hxp, show t.bits.bit x = s.bits.bit x from hb x hxp]
        exact hs.bit_iff y hy x ((howns y x).mp hx)
    · by_cases hxp : x = p
      · subst hxp
        rw [hp_self]
        exact h2
      · rw [hp_ne x hxp]
        exact hs.ref_iff y hy x ((howns y x).mp hx)
    · by_cases hyz : y = z
      · subst hyz
        rw [hz_self]
        omega
      · rw [hz_ne y hyz, htally_ne _ y hy hyz]
        exact hs.usingCnt y hy
    · by_cases hyz : y = z
      · subst hyz
        rw [hz_self, hlen]
        omega
      · rw [hz_ne y hyz, htally_ne _ y hy hyz]
        exact hs.freeCnt y hy
    · by_cases hyz : y = z
      · subst hyz
        rw [hz_self]
        omega
      · rw [hz_ne y hyz, htally_ne _ y hy hyz]
        exact hs.pageLnk y hy

/-! ## The two functions as steps -/

/-- A call of one of the two functions on the page struct with index `p`. -/
inductive PageOp where
  | init (p : ℕ) (flags : BitVec 64)
  | clean (p : ℕ)

namespace PageOp

/-- The page struct the call works on. -/
def page : PageOp → ℕ
  | init p _ => p
  | clean p => p

/-- The call, run. -/
def run (s : MemState) : PageOp → Option MemState
  | init p flags => pageInit s p flags
  | clean p => pageClean s p

/-- The page belongs to a zone, and `page_init` is given non-zero flags. -/
def Valid (s : MemState) (op : PageOp) : Prop :=
  (∃ z < s.desc.zonesSize, (s.zones z).Owns op.page) ∧
    ∀ p flags, op = init p flags → flags ≠ 0

/-- The step keeps the books: it does not release the last reference of a shared page, and if it
takes a reference then the zone's `total_page_lnk` has not reached its largest value. -/
def KeepsBooks (s : MemState) (op : PageOp) : Prop :=
  match op with
  | .init p flags =>
      (s.pages p).attr = 0 ∨ Shared (s.pages p).attr ∨ Shared flags →
        ∀ z, (s.pages p).zoneStruct = some z → (s.zones z).totalPageLnk ≠ -1
  | .clean p => Shared (s.pages p).attr → (s.pages p).refCnt ≠ 1

end PageOp

/-- A valid call that returns. -/
def PageStep (s : MemState) (op : PageOp) (t : MemState) : Prop :=
  op.Valid s ∧ op.run s = some t

theorem PageStep.sameLayout {op : PageOp} (h : PageStep s op t) : SameLayout s t := by
  cases op with
  | init p flags => exact pageInit_sameLayout h.2
  | clean p => exact pageClean_sameLayout h.2

/-- The pointers and lengths survive every call; what is left to check is the page it works on. -/
theorem Ledger.of_sameLayout (hl : Ledger s) (h : SameLayout s t)
    (hplain : ∀ z < s.desc.zonesSize, ∀ x, (s.zones z).Owns x →
      (t.pages x).attr ≠ 0 → ¬ Shared (t.pages x).attr → (t.pages x).refCnt = 1) : Ledger t where
  toZoned := hl.toZoned.of_sameLayout h
  pageLen z hz := by
    rw [h.pageLen, h.endPage, h.startPage]
    exact hl.pageLen z (h.desc ▸ hz)
  plain z hz x hx := hplain z (h.desc ▸ hz) x (h.owns.mp hx)

/-- The side condition survives every call made while the books balance. -/
theorem ledger_of_pageStep {op : PageOp} (hl : Ledger s) (hs : Accounted s)
    (h : PageStep s op t) : Ledger t := by
  refine hl.of_sameLayout h.sameLayout fun z hz x hx => ?_
  have hold := hl.plain z hz x hx
  cases op with
  | init p flags =>
    obtain ⟨-, hrun⟩ := h
    by_cases hxp : x = p
    · subst hxp
      rcases pageInit_cases hrun with ⟨hfree, -, rfl⟩ | ⟨hused, hshared, -, rfl⟩ |
        ⟨hused, hns, hnf, rfl⟩
      · have href : (s.pages x).refCnt = 0 := by
          have hnot := mt (hs.ref_iff z hz x hx).mpr (not_not.mpr hfree)
          exact BitVec.eq_of_toNat_eq (by simpa using hnot)
        intro _ _
        simp [href]
      · intro _ hns
        simp only [Function.update_self] at hns
        rw [shared_or] at hns
        exact absurd hshared hns
      · intro _ _
        simpa using hold hused hns
    · rw [pageInit_pages_of_ne hrun hxp]
      exact hold
  | clean p =>
    obtain ⟨-, hrun⟩ := h
    rcases pageClean_cases hrun with ⟨hfree, rfl⟩ | ⟨hsh, hone, -, rfl⟩ | ⟨hsh, hone, -, rfl⟩ |
      ⟨hused, hns, -, rfl⟩
    all_goals
      by_cases hxp : x = p
      · subst hxp
        simp_all
      · simpa only [Function.update_of_ne hxp] using hold

/-! ## One step -/

theorem toNat_add_one {a : BitVec 64} (h : a.toNat + 1 < 2 ^ 64) :
    (a + 1).toNat = a.toNat + 1 := by
  rw [BitVec.toNat_add, show (1 : BitVec 64).toNat = 1 from rfl, Nat.mod_eq_of_lt h]

theorem toNat_sub_one {a : BitVec 64} (h : 0 < a.toNat) : (a - 1).toNat + 1 = a.toNat := by
  have hlt := a.isLt
  rw [BitVec.toNat_sub, show (1 : BitVec 64).toNat = 1 from rfl]
  omega

theorem toNat_eq_of_ne_neg_one {a : BitVec 64} (h : a ≠ -1) : (a + 1).toNat = a.toNat + 1 := by
  have hne : a.toNat ≠ 2 ^ 64 - 1 := fun heq => h (BitVec.eq_of_toNat_eq (by rw [heq]; rfl))
  have hlt := a.isLt
  exact toNat_add_one (by omega)

/-- The last word wraps to 0. -/
theorem toNat_neg_one_add_one : ((-1 : BitVec 64) + 1).toNat = 0 := by decide

section Branches

variable (hl : Ledger s) (hs : Accounted s) (hz : z < s.desc.zonesSize) (hp : (s.zones z).Owns p)

include hl hz hp

/-- The bit of the page's address is its own. -/
theorem bit_set_phyAddr (x : ℕ) :
    (s.bits.set (pageNo (s.pages p).phyAddr)).bit x = (decide (x = p) || s.bits.bit x) := by
  rw [hl.pageNo_phyAddr hz hp, Bitmap.bit_set]

theorem bit_clear_phyAddr (x : ℕ) :
    (s.bits.clear (pageNo (s.pages p).phyAddr)).bit x = (!decide (x = p) && s.bits.bit x) := by
  rw [hl.pageNo_phyAddr hz hp, Bitmap.bit_clear]

include hs

/-- A free page is taken. -/
theorem accounted_take_iff {flags : BitVec 64} (hflags : flags ≠ 0)
    (hfree : (s.pages p).attr = 0) :
    Accounted { s with
        bits := s.bits.set (pageNo (s.pages p).phyAddr)
        pages := Function.update s.pages p
          { s.pages p with attr := flags, refCnt := (s.pages p).refCnt + 1 }
        zones := Function.update s.zones z (s.zones z).take } ↔
      (s.zones z).totalPageLnk ≠ -1 := by
  have href := hs.ref_iff z hz p hp
  have hlen := hl.pageLen z hz
  have husing := hs.usingCnt z hz
  have hfreeCnt := hs.freeCnt z hz
  have hcount := tally_inUse_add_le (s := s) hp
  have hend : (s.zones z).endPage < 2 ^ 43 := pageNo_lt _
  have hno : ∀ x, x ≠ p →
      (s.bits.set (pageNo (s.pages p).phyAddr)).bit x = s.bits.bit x := by
    intro x hx
    rw [bit_set_phyAddr hl hz hp, decide_eq_false hx, Bool.false_or]
  have hself : (s.bits.set (pageNo (s.pages p).phyAddr)).bit p = true := by
    rw [bit_set_phyAddr hl hz hp, decide_eq_true rfl, Bool.true_or]
  rw [accounted_update_iff hl hs hz hp (s.zones z).take hno rfl rfl rfl, hself]
  have hr0 : (s.pages p).refCnt.toNat = 0 := by
    have := mt href.mpr (not_not.mpr hfree)
    omega
  have hu0 : (s.pages p).inUse = 0 := Page.inUse_of_eq hfree
  have hu1 : Page.inUse { s.pages p with attr := flags, refCnt := (s.pages p).refCnt + 1 } = 1 :=
    Page.inUse_of_ne hflags
  have hr1 : ((s.pages p).refCnt + 1).toNat = 1 := by rw [toNat_add_one (by omega), hr0]
  rw [hu1, hu0]
  simp only [Zone.take, Page.refs, hr0, hr1]
  have husing1 := toNat_add_one (a := (s.zones z).pageUsingCnt) (by omega)
  have hfree1 := toNat_sub_one (a := (s.zones z).pageFreeCnt) (by omega)
  constructor
  · rintro ⟨-, -, -, -, h5⟩ hwrap
    rw [hwrap, toNat_neg_one_add_one] at h5
    omega
  · intro hne
    have h5 := toNat_eq_of_ne_neg_one hne
    exact ⟨iff_of_true trivial hflags, iff_of_true hflags Nat.one_pos, by omega, by omega, by omega⟩

/-- A shared page gains a reference. -/
theorem accounted_link_iff {flags : BitVec 64} (hused : (s.pages p).attr ≠ 0) :
    Accounted { s with
        pages := Function.update s.pages p
          { s.pages p with
            attr := (s.pages p).attr ||| flags, refCnt := (s.pages p).refCnt + 1 }
        zones := Function.update s.zones z (s.zones z).link } ↔
      (s.zones z).totalPageLnk ≠ -1 := by
  have hlnk := hs.pageLnk z hz
  have hrefs := le_tally Page.refs hp
  rw [accounted_update_iff hl hs hz hp (s.zones z).link (fun _ _ => rfl) rfl rfl rfl]
  have hor : (s.pages p).attr ||| flags ≠ 0 := fun h0 => hused (BitVec.or_eq_zero_iff.mp h0).1
  have hu1 : Page.inUse { s.pages p with
      attr := (s.pages p).attr ||| flags, refCnt := (s.pages p).refCnt + 1 } = 1 :=
    Page.inUse_of_ne hor
  rw [hu1, Page.inUse_of_ne hused]
  simp only [Zone.link, Page.refs] at hrefs ⊢
  constructor
  · rintro ⟨-, h2, -, -, h5⟩ hwrap
    have hpos := h2.mp hor
    rw [hwrap, toNat_neg_one_add_one, show (-1 : BitVec 64).toNat = 2 ^ 64 - 1 from rfl] at h5
    have hlt := (s.pages p).refCnt.isLt
    omega
  · intro hne
    have h5 := toNat_eq_of_ne_neg_one hne
    have hlt := ((s.zones z).totalPageLnk + 1).isLt
    have hr := toNat_add_one (a := (s.pages p).refCnt) (by omega)
    exact ⟨iff_of_true ((hs.bit_iff z hz p hp).mpr hused) hor, iff_of_true hor (by omega), trivial,
      trivial, by omega⟩

/-- A page in plain use gains attributes. -/
theorem accounted_mark {flags : BitVec 64} (hused : (s.pages p).attr ≠ 0) :
    Accounted { s with
      bits := s.bits.set (pageNo (s.pages p).phyAddr)
      pages := Function.update s.pages p
        { s.pages p with attr := (s.pages p).attr ||| flags } } := by
  have hor : (s.pages p).attr ||| flags ≠ 0 := fun h0 => hused (BitVec.or_eq_zero_iff.mp h0).1
  have hsame : ({ s with
      bits := s.bits.set (pageNo (s.pages p).phyAddr)
      pages := Function.update s.pages p
        { s.pages p with attr := (s.pages p).attr ||| flags } } : MemState) = { s with
      bits := s.bits.set (pageNo (s.pages p).phyAddr)
      pages := Function.update s.pages p { s.pages p with attr := (s.pages p).attr ||| flags }
      zones := Function.update s.zones z (s.zones z) } := by
    rw [Function.update_eq_self]
  have hno : ∀ x, x ≠ p →
      (s.bits.set (pageNo (s.pages p).phyAddr)).bit x = s.bits.bit x := by
    intro x hx
    rw [bit_set_phyAddr hl hz hp, decide_eq_false hx, Bool.false_or]
  have hself : (s.bits.set (pageNo (s.pages p).phyAddr)).bit p = true := by
    rw [bit_set_phyAddr hl hz hp, decide_eq_true rfl, Bool.true_or]
  rw [hsame, accounted_update_iff hl hs hz hp (s.zones z) hno rfl rfl rfl, hself]
  have hu1 : Page.inUse { s.pages p with attr := (s.pages p).attr ||| flags } = 1 :=
    Page.inUse_of_ne hor
  rw [hu1, Page.inUse_of_ne hused]
  exact ⟨iff_of_true rfl hor, iff_of_true hor ((hs.ref_iff z hz p hp).mp hused), rfl, rfl, rfl⟩

/-- **One call of `page_init` keeps the books exactly when the link counter does not wrap.** -/
theorem accounted_pageInit_iff {flags : BitVec 64} (hflags : flags ≠ 0)
    (h : pageInit s p flags = some t) :
    Accounted t ↔ (PageOp.init p flags).KeepsBooks s := by
  have hzs := hl.zoneStruct z hz p hp
  have hkeeps : (PageOp.init p flags).KeepsBooks s ↔
      ((s.pages p).attr = 0 ∨ Shared (s.pages p).attr ∨ Shared flags →
        (s.zones z).totalPageLnk ≠ -1) := by
    simp only [PageOp.KeepsBooks, hzs]
    exact ⟨fun h hc => h hc z rfl, fun h hc z' hz' => Option.some.inj hz' ▸ h hc⟩
  rw [hkeeps]
  rcases pageInit_cases h with ⟨hfree, -, rfl⟩ | ⟨hused, hshared, -, rfl⟩ | ⟨hused, hns, hnf, rfl⟩
  · rw [hzs, bumpZone, accounted_take_iff hl hs hz hp hflags hfree,
      forall_prop_of_true (.inl hfree)]
  · rw [hzs, bumpZone, accounted_link_iff hl hs hz hp hused, forall_prop_of_true (.inr hshared)]
  · refine iff_of_true (accounted_mark hl hs hz hp hused) ?_
    rintro (hf | hsh | hsh)
    · exact absurd hf hused
    · exact absurd hsh hns
    · exact absurd hsh hnf

/-- One reference of several to a shared page is given back. -/
theorem accounted_unlink (hused : (s.pages p).attr ≠ 0) (hone : (s.pages p).refCnt ≠ 1) :
    Accounted { s with
      pages := Function.update s.pages p { s.pages p with refCnt := (s.pages p).refCnt - 1 }
      zones := Function.update s.zones z (s.zones z).unlink } := by
  have hlnk := hs.pageLnk z hz
  have hrefs := le_tally Page.refs hp
  have hpos := (hs.ref_iff z hz p hp).mp hused
  have hr1 : (s.pages p).refCnt.toNat ≠ 1 := fun h1 =>
    hone (BitVec.eq_of_toNat_eq (by rw [h1]; rfl))
  rw [accounted_update_iff hl hs hz hp (s.zones z).unlink (fun _ _ => rfl) rfl rfl rfl]
  simp only [Page.refs] at hrefs
  have hr := toNat_sub_one hpos
  have hl1 := toNat_sub_one (a := (s.zones z).totalPageLnk) (by omega)
  refine ⟨iff_of_true ((hs.bit_iff z hz p hp).mpr hused) hused,
    iff_of_true hused (by simp only; omega), rfl, rfl, ?_⟩
  simp only [Zone.unlink, Page.refs]
  omega

/-- A page in plain use, referenced once, is released. -/
theorem accounted_release (hused : (s.pages p).attr ≠ 0) (hns : ¬ Shared (s.pages p).attr) :
    Accounted { s with
      bits := s.bits.clear (pageNo (s.pages p).phyAddr)
      pages := Function.update s.pages p { s.pages p with attr := 0, refCnt := 0 }
      zones := Function.update s.zones z (s.zones z).release.unlink } := by
  have hlen := hl.pageLen z hz
  have husing := hs.usingCnt z hz
  have hfreeCnt := hs.freeCnt z hz
  have hlnk := hs.pageLnk z hz
  have hrefs := le_tally Page.refs hp
  have hinUse := le_tally Page.inUse hp
  have hend : (s.zones z).endPage < 2 ^ 43 := pageNo_lt _
  have hno : ∀ x, x ≠ p →
      (s.bits.clear (pageNo (s.pages p).phyAddr)).bit x = s.bits.bit x := by
    intro x hx
    rw [bit_clear_phyAddr hl hz hp, decide_eq_false hx, Bool.not_false, Bool.true_and]
  have hself : (s.bits.clear (pageNo (s.pages p).phyAddr)).bit p = false := by
    rw [bit_clear_phyAddr hl hz hp, decide_eq_true rfl, Bool.not_true, Bool.false_and]
  rw [accounted_update_iff hl hs hz hp (s.zones z).release.unlink hno rfl rfl rfl, hself]
  have hr1 : (s.pages p).refCnt.toNat = 1 := by rw [hl.plain z hz p hp hused hns]; rfl
  have hu1 : (s.pages p).inUse = 1 := Page.inUse_of_ne hused
  have hu0 : Page.inUse { s.pages p with attr := 0, refCnt := 0 } = 0 := Page.inUse_of_eq rfl
  rw [hu1] at hinUse
  rw [hu0, hu1]
  simp only [Page.refs, hr1] at hrefs ⊢
  simp only [Zone.release, Zone.unlink]
  have hl1 := toNat_sub_one (a := (s.zones z).totalPageLnk) (by omega)
  have hus1 := toNat_sub_one (a := (s.zones z).pageUsingCnt) (by omega)
  have hfr1 := toNat_add_one (a := (s.zones z).pageFreeCnt) (by omega)
  refine ⟨by simp, by simp, hus1, hfr1, ?_⟩
  rw [show (0 : BitVec 64).toNat = 0 from rfl]
  omega

/-- **One call of `page_clean` keeps the books exactly when it does not release the last reference
of a shared page.** -/
theorem accounted_pageClean_iff (h : pageClean s p = some t) :
    Accounted t ↔ (PageOp.clean p).KeepsBooks s := by
  have hzs := hl.zoneStruct z hz p hp
  simp only [PageOp.KeepsBooks]
  rcases pageClean_cases h with ⟨hfree, rfl⟩ | ⟨hsh, hone, -, rfl⟩ | ⟨hsh, hone, -, rfl⟩ |
    ⟨hused, hns, -, rfl⟩
  · -- the page is free already
    have hsame : ({ s with
        pages := Function.update s.pages p { s.pages p with attr := 0 } } : MemState) = s := by
      rw [← hfree, Function.update_eq_self]
    rw [hsame]
    exact iff_of_true hs fun hsh => absurd hfree hsh.ne_zero
  · -- the last reference of a shared page: the bit stays set
    rw [hzs, bumpZone,
      accounted_update_iff hl hs hz hp (s.zones z).unlink.release (fun _ _ => rfl) rfl rfl rfl]
    refine iff_of_false ?_ fun hne => hne hsh hone
    rintro ⟨h1, -⟩
    exact h1.mp ((hs.bit_iff z hz p hp).mpr hsh.ne_zero) rfl
  · rw [hzs, bumpZone]
    exact iff_of_true (accounted_unlink hl hs hz hp hsh.ne_zero hone) fun _ => hone
  · rw [hzs, bumpZone]
    exact iff_of_true (accounted_release hl hs hz hp hused hns) fun hsh => absurd hsh hns

end Branches

theorem accounted_pageStep_iff {op : PageOp} (hl : Ledger s) (hs : Accounted s)
    (h : PageStep s op t) : Accounted t ↔ op.KeepsBooks s := by
  obtain ⟨⟨⟨z, hz, hp⟩, hflags⟩, hrun⟩ := h
  cases op with
  | init p flags => exact accounted_pageInit_iff hl hs hz hp (hflags p flags rfl) hrun
  | clean p => exact accounted_pageClean_iff hl hs hz hp hrun

/-! ## Whole runs -/

/-- **When a run keeps the books.**  From freshly initialised zones and pages, the books balance in
every state a run of `page_init` and `page_clean` calls reaches exactly when no call of the run
releases the last reference of a shared page or takes a reference that wraps `total_page_lnk`. -/
theorem always_accounted_iff (h : Fresh s) {tr : List (PageOp × MemState)}
    (hrun : Always PageStep s tr) :
    Always (fun _ _ t => Accounted t) s tr ↔ Always (fun s op _ => op.KeepsBooks s) s tr :=
  always_iff_guard (K := Ledger) (P := Accounted) (G := PageOp.KeepsBooks)
    (fun _ _ _ hl hs hstep => ledger_of_pageStep hl hs hstep)
    (fun _ _ _ hl hs hstep => accounted_pageStep_iff hl hs hstep) h.ledger h.accounted hrun

/-- One free page in one zone. -/
def onePage : MemState where
  desc := { e820 := [⟨0, 0x200000, ram⟩], bitsMap := 0, bitsSize := 1, bitsLen := 8,
            pagesStruct := 0, pagesSize := 1, pagesLen := 40, zonesStruct := 0, zonesSize := 1,
            zonesLen := 80, endBrk := 0, endOfStruct := 0 }
  bits := fun _ => 0
  pages := fun x => ⟨some 0, pageAddr x, 0, 0, 0⟩
  zones := fun _ => ⟨0, 1, 0, 0x200000, 0x200000, 0, 0, 1, 0⟩
  gZoneDma := 0
  gZoneNormal := 0
  gZoneUnmapped := 0
  lowMapped := false

theorem onePage_fresh : Fresh onePage where
  page z hz x _ := by
    obtain rfl : z = 0 := Nat.lt_one_iff.mp hz
    exact ⟨rfl, rfl, rfl, rfl, BitVec.getLsbD_zero⟩
  zone z hz := by
    obtain rfl : z = 0 := Nat.lt_one_iff.mp hz
    exact ⟨by decide, rfl, rfl, rfl⟩

/-- The page of `onePage` after `page_init(p, flags)`. -/
def onePageTaken (flags : BitVec 64) : MemState :=
  { onePage with
    bits := onePage.bits.set 0
    pages := Function.update onePage.pages 0 ⟨some 0, 0, flags, 1, 0⟩
    zones := Function.update onePage.zones 0 (onePage.zones 0).take }

/-- Take the page for the kernel, and clean it. -/
def takeAndClean : List (PageOp × MemState) :=
  [(.init 0 pgKernel, onePageTaken pgKernel),
   (.clean 0, { onePageTaken pgKernel with
      bits := (onePageTaken pgKernel).bits.clear 0
      pages := Function.update (onePageTaken pgKernel).pages 0 ⟨some 0, 0, 0, 0, 0⟩
      zones := Function.update (onePageTaken pgKernel).zones 0
        ((onePageTaken pgKernel).zones 0).release.unlink })]

theorem takeAndClean_steps : Always PageStep onePage takeAndClean := by
  refine ⟨⟨⟨⟨0, by decide, by decide⟩, ?_⟩, rfl⟩, ⟨⟨⟨0, by decide, by decide⟩, ?_⟩, rfl⟩, trivial⟩
  · rintro _ _ ⟨⟩
    decide
  · rintro _ _ ⟨⟩

/-- The books balance after every step of that run. -/
theorem takeAndClean_accounted : Always (fun _ _ t => Accounted t) onePage takeAndClean := by
  refine (always_accounted_iff onePage_fresh takeAndClean_steps).mpr ⟨?_, ?_, trivial⟩
  · rintro - z ⟨⟩
    decide
  · exact fun hshared => absurd hshared (by decide)

/-- Take the page as a referenced one, and clean it. -/
def borrowAndClean : List (PageOp × MemState) :=
  [(.init 0 pgReferenced, onePageTaken pgReferenced),
   (.clean 0, { onePageTaken pgReferenced with
      pages := Function.update (onePageTaken pgReferenced).pages 0 ⟨some 0, 0, 0, 0, 0⟩
      zones := Function.update (onePageTaken pgReferenced).zones 0
        ((onePageTaken pgReferenced).zones 0).unlink.release })]

/-- After that run the page is free and its bit still set. -/
theorem borrowAndClean_not_accounted :
    Fresh onePage ∧ Always PageStep onePage borrowAndClean ∧
      ¬ Always (fun _ _ t => Accounted t) onePage borrowAndClean := by
  refine ⟨onePage_fresh, ?_, ?_⟩
  · refine ⟨⟨⟨⟨0, by decide, by decide⟩, ?_⟩, rfl⟩, ⟨⟨⟨0, by decide, by decide⟩, ?_⟩, rfl⟩, trivial⟩
    · rintro _ _ ⟨⟩
      decide
    · rintro _ _ ⟨⟩
  · rintro ⟨-, h, -⟩
    have hbit := h.bit_iff 0 (by decide) 0 (by decide)
    exact absurd hbit (by decide)

end Memory
end OSLib
