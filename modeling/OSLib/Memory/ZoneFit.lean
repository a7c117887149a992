import OSLib.Memory.Places

/-!
# The pages of a call and the zones it searches

`alloc_pages` looks for its pages in the zones of the selected range.  It looks at whole 64-bit
words though, which run past both ends of a zone, and it takes the page structs `shift - 1` places
above the bits it finds clear.  `staysInZone_iff` says exactly when the pages it takes lie in one
zone of the range all the same, by the bitmap and the bounds of the zones before the call: when the
lowest run of clear bits at a place the search looks at leaves room for that move.

Where `shift` is 0, in a later word than the zone's first one or in a zone that starts at a multiple
of 64, the run must not begin at the first page of its zone.  Where it is more than 1, as many pages
of the zone have to follow the run.

A page outside every zone may have a page struct without a zone, and `page_init` then follows a null
pointer.  A call that faults so does not stay in its zone either.
-/

namespace OSLib
namespace Memory

variable {s t : MemState} {c : AllocCall} {q : Probe} {page x : ℕ}

/-- The invariant the allocator's data should have: a bit of the bitmap is clear only for a free
page of some zone, and the page structs of a zone point to it and hold their own addresses. -/
structure RepInv (s : MemState) : Prop extends Zoned s where
  clear : ∀ x < 64 * (s.desc.bitsLen / 8), s.bits.bit x = false →
    ∃ z < s.desc.zonesSize, (s.zones z).Owns x ∧ (s.pages x).attr = 0

/-- The zone is one of those the selector stands for. -/
def InRange (s : MemState) (zoneSelect : BitVec 32) (z : ℕ) : Prop :=
  z < s.desc.zonesSize ∧ (zoneRange s zoneSelect).1 ≤ z ∧ z ≤ (zoneRange s zoneSelect).2

instance (s : MemState) (zoneSelect : BitVec 32) (z : ℕ) : Decidable (InRange s zoneSelect z) := by
  unfold InRange
  infer_instance

namespace AllocCall

/-- The call does not fault, and the pages it returns lie in one zone of the selected range. -/
def StaysInZone (c : AllocCall) (s : MemState) : Prop :=
  c.run s ≠ .fault ∧ ∀ page t, c.run s = .pages page t →
    ∃ z, InRange s c.zoneSelect z ∧ ∀ x ∈ runFrom page c.count, (s.zones z).Owns x

/-- The lowest run of the call has room for its move in one zone of the selected range: from the
second page on where `shift` is 0, and up to `shift - 1` pages before the end. -/
def ShiftFits (c : AllocCall) (s : MemState) : Prop :=
  ∀ i b, c.LowestRun s i b → ∃ z, InRange s c.zoneSelect z ∧
    (s.zones z).startPage + 1 ≤ b + (s.zones i).shift b ∧
    b + (s.zones i).shift b + c.number.toNat ≤ (s.zones z).endPage + 1

/-- A call that finds clear bits runs `page_init` over its pages, and faults or returns them. -/
theorem run_of_found (h : c.found s = some q) :
    c.run s = .fault ∨ ∃ t, c.run s = .pages q.page t := by
  unfold found at h
  unfold run allocPages
  rw [h]
  simp only
  split
  · next t ht => exact Or.inr ⟨t, rfl⟩
  · exact Or.inl rfl

/-- The pages from `page` on lie in a zone exactly when the first and the last one do. -/
theorem owns_runFrom_iff {z : Zone} {n : ℕ} (hn : 1 ≤ n) (hn' : n ≤ 64) (hpage : page < 2 ^ 64) :
    (∀ x ∈ runFrom page n, z.Owns x) ↔ z.startPage ≤ page ∧ page + n ≤ z.endPage := by
  have hend : z.endPage < 2 ^ 43 := pageNo_lt _
  constructor
  · intro h
    have hfirst := h (page % 2 ^ 64) (mem_runFrom.mpr ⟨0, hn, rfl⟩)
    have hlast := h ((page + (n - 1)) % 2 ^ 64) (mem_runFrom.mpr ⟨n - 1, by omega, rfl⟩)
    rw [Zone.Owns] at hfirst hlast
    omega
  · rintro ⟨h1, h2⟩ x hx
    obtain ⟨l, hl, rfl⟩ := mem_runFrom.mp hx
    rw [Zone.Owns]
    omega

/-- In a zone of the range, moving the run found gives the pages taken. -/
theorem shift_iff (h : q ∈ zoneProbes s c.number q.i) {z : Zone} {n : ℕ} :
    (z.startPage + 1 ≤ q.tested + (s.zones q.i).shift q.tested ∧
        q.tested + (s.zones q.i).shift q.tested + n ≤ z.endPage + 1) ↔
      z.startPage ≤ q.page ∧ q.page + n ≤ z.endPage := by
  rw [q.shift_eq h]
  obtain ⟨hj, hk⟩ := lt_of_mem_zoneProbes h
  have hend : z.endPage < 2 ^ 43 := pageNo_lt _
  by_cases hpos : 0 < q.j + q.k
  · have hpage := q.page_add_one hpos hj hk
    omega
  · -- the probe `j = k = 0` takes the page struct before the first one
    have hpage : q.page = 2 ^ 64 - 1 := by
      unfold Probe.page
      omega
    have htested : q.tested + q.j % 64 = 0 := by
      unfold Probe.tested
      omega
    omega

/-- **When a call stays in its zone.**  In a state with the allocator's invariant, a call in the
contract returns without a fault and with all pages in one zone of the selected range exactly when
the lowest run of clear bits it looks at has room there for a move by `shift - 1` places. -/
theorem staysInZone_iff (hs : RepInv s) (hc : c.Valid) : c.StaysInZone s ↔ c.ShiftFits s := by
  obtain ⟨-, hpos, hmax⟩ := hc
  refine Iff.trans ?_ (forall_lowestRun (P := fun i b => ∃ z, InRange s c.zoneSelect z ∧
    (s.zones z).startPage + 1 ≤ b + (s.zones i).shift b ∧
    b + (s.zones i).shift b + c.number.toNat ≤ (s.zones z).endPage + 1)).symm
  have hcount : c.count = c.number.toNat := c.count_eq (by omega)
  have hpage : ∀ q : Probe, q.page < 2 ^ 64 := fun q => Nat.mod_lt _ (by decide)
  constructor
  · rintro ⟨hfault, hpages⟩ q hq
    obtain ⟨-, hprobe, -⟩ := found_spec hq
    obtain ⟨t, ht⟩ := (run_of_found hq).resolve_left hfault
    obtain ⟨z, hz, howns⟩ := hpages _ _ ht
    rw [hcount, owns_runFrom_iff hpos hmax (hpage q)] at howns
    exact ⟨z, hz, (shift_iff hprobe).mpr howns⟩
  · intro hfits
    -- what holds of the pages of every successful probe
    have howns : ∀ q ∈ c.found s, ∃ z, InRange s c.zoneSelect z ∧
        ∀ x ∈ runFrom q.page c.count, (s.zones z).Owns x := by
      intro q hq
      obtain ⟨z, hz, hshift⟩ := hfits q hq
      obtain ⟨-, hprobe, -⟩ := found_spec hq
      refine ⟨z, hz, ?_⟩
      rw [hcount, owns_runFrom_iff hpos hmax (hpage q)]
      exact (shift_iff hprobe).mp hshift
    refine ⟨fun hfault => ?_, fun page t hrun => ?_⟩
    · cases hq : c.found s with
      | none =>
        unfold run allocPages at hfault
        unfold found at hq
        rw [hq] at hfault
        simp only at hfault
        split at hfault <;> exact absurd hfault (by simp)
      | some q =>
        obtain ⟨z, hz, hin⟩ := howns q hq
        obtain ⟨t, ht⟩ := exists_pageInits (s := s) c.pageFlags (runFrom q.page c.count)
          fun x hx hnone => by
            rw [hs.zoneStruct z hz.1 x (hin x hx)] at hnone
            exact absurd hnone (by simp)
        have hrun := run_eq_pages_iff.mpr ⟨q, hq, rfl, ht⟩
        rw [hfault] at hrun
        exact absurd hrun (by simp)
    · obtain ⟨q, hq, rfl, -⟩ := run_eq_pages_iff.mp hrun
      exact howns q hq

end AllocCall

/-! ## A zone at 4 GiB -/

/-- A machine with memory from 2 MiB to 4 GiB, all in use, and 256 MiB above; `w` is the bitmap
word of the first 64 pages there, and the pages after these are free. -/
def highState (w : BitVec 64) : MemState where
  desc := { e820 := [⟨0x200000, 0xffe00000, ram⟩, ⟨0x100000000, 0x10000000, ram⟩],
            bitsMap := 0, bitsSize := 2176, bitsLen := 272, pagesStruct := 0, pagesSize := 2176,
            pagesLen := 87040, zonesStruct := 0, zonesSize := 2, zonesLen := 160, endBrk := 0,
            endOfStruct := 0 }
  bits v := if v = 32 then w else if v = 33 then 0 else -1
  pages x :=
    if x < 2048 then ⟨some 0, pageAddr x, pgKernel, 1, 0⟩ else ⟨some 1, pageAddr x, 0, 0, 0⟩
  zones z :=
    if z = 0 then ⟨1, 2047, 0x200000, 0x100000000, 0xffe00000, 0, 2047, 0, 2047⟩
    else ⟨2048, 128, 0x100000000, 0x110000000, 0x10000000, 0, 0, 128, 0⟩
  gZoneDma := 0
  gZoneNormal := 0
  gZoneUnmapped := 1
  lowMapped := false

theorem highState_owns {w : BitVec 64} {z : ℕ} (hz : z < 2)
    (h : ((highState w).zones z).Owns x) : z = 0 ∧ x < 2048 ∨ z = 1 ∧ 2048 ≤ x := by
  obtain rfl | rfl : z = 0 ∨ z = 1 := by omega
  · have hend : ((highState w).zones 0).endPage = 2048 := by
      change pageNo 0x100000000 = 2048
      decide
    exact Or.inl ⟨rfl, hend ▸ h.2⟩
  · have hstart : ((highState w).zones 1).startPage = 2048 := by
      change pageNo 0x100000000 = 2048
      decide
    exact Or.inr ⟨rfl, hstart ▸ h.1⟩

theorem highState_repInv (w : BitVec 64) : RepInv (highState w) where
  clear x hx hclear := by
    have hx : x < 64 * (272 / 8) := hx
    have hlow : 2048 ≤ x := by
      by_contra hlt
      have hbit := Nat.mod_lt x (show 0 < 64 by decide)
      simp only [Bitmap.bit, highState] at hclear
      rw [if_neg (by omega), if_neg (by omega), show (-1 : BitVec 64) = BitVec.allOnes 64 by decide,
        BitVec.getLsbD_allOnes, decide_eq_true hbit] at hclear
      exact Bool.noConfusion hclear
    have hends : ((highState w).zones 1).startPage = 2048 ∧
        ((highState w).zones 1).endPage = 2176 := by
      change pageNo 0x100000000 = 2048 ∧ pageNo 0x110000000 = 2176
      decide
    refine ⟨1, Nat.one_lt_two, ?_, ?_⟩
    · rw [Zone.Owns, hends.1, hends.2]
      exact ⟨hlow, hx⟩
    · simp only [highState]
      rw [if_neg (by omega)]
  zoneStruct z hz x hx := by
    rcases highState_owns hz hx with ⟨rfl, hlt⟩ | ⟨rfl, hle⟩ <;> simp only [highState]
    · rw [if_pos hlt]
    · rw [if_neg (by omega)]
  phyAddr z hz x hx := by
    rcases highState_owns hz hx with ⟨rfl, hlt⟩ | ⟨rfl, hle⟩ <;> simp only [highState]
    · rw [if_pos hlt]
    · rw [if_neg (by omega)]

/-- With the first page above 4 GiB in use, a call for one page stays above 4 GiB: it finds bit
2049 and takes page 2048. -/
theorem highState_staysInZone :
    AllocCall.StaysInZone ⟨zoneUnmapped, 1, pgKernel⟩ (highState 1) := by
  refine (AllocCall.staysInZone_iff (highState_repInv 1) (by decide)).mpr ?_
  have hfound : AllocCall.found ⟨zoneUnmapped, 1, pgKernel⟩ (highState 1) = some ⟨1, 2048, 1⟩ := by
    decide +kernel
  intro i b hrun
  obtain ⟨rfl, rfl⟩ := hrun.unique (AllocCall.lowestRun_of_found hfound)
  exact ⟨1, by decide +kernel, by decide +kernel, by decide +kernel⟩

/-- **A page below 4 GiB for a caller that asks for one above.**  With all pages above 4 GiB free,
the call finds bit 2048 and returns page 2047, which belongs to the zone below and is in use. -/
theorem highState_not_staysInZone :
    RepInv (highState 0) ∧ AllocCall.Valid ⟨zoneUnmapped, 1, pgKernel⟩ ∧
      ¬ AllocCall.StaysInZone ⟨zoneUnmapped, 1, pgKernel⟩ (highState 0) := by
  refine ⟨highState_repInv 0, by decide, fun h => ?_⟩
  have hfound : AllocCall.found ⟨zoneUnmapped, 1, pgKernel⟩ (highState 0) = some ⟨1, 2048, 0⟩ := by
    decide +kernel
  obtain ⟨t, ht⟩ := (AllocCall.run_of_found hfound).resolve_left h.1
  obtain ⟨z, hz, howns⟩ := h.2 _ _ ht
  have hpage := howns 2047 (by decide +kernel)
  rcases highState_owns hz.1 hpage with ⟨rfl, -⟩ | ⟨rfl, hle⟩
  · exact absurd hz (by decide)
  · omega

end Memory
end OSLib
