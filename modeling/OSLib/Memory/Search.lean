import OSLib.Memory.ZoneFit

/-!
# What `alloc_pages` finds

`Places.lean` says at which bits the search looks.  Here is when it finds nothing:
`found_eq_none_iff` says that this is so exactly when no look in any zone of the range with enough
free pages succeeds.

A free run is missed when it starts at a bit that is not looked at, or at bit 0 before a word in
use.  It does not matter which run is found, so `completes_iff` asks for one look that succeeds
where there is a free run, wherever that look is.  The zone loop may also go on for ever, with an
upper bound of `2 ^ 64 - 1`, and such a call does not return `NULL` either.

A call out of the contract looks in the same way; a mask of no bits, for a `number` of 0 or
another multiple of 64, makes every look succeed.  So what such a call does is not a case of its own
here, and `refuses_iff` has the same places and another condition on them.
-/

namespace OSLib
namespace Memory

variable {s t : MemState} {c : AllocCall} {q : Probe}

/-! ## The search -/

namespace AllocCall

/-- Some look of the call succeeds: in a zone from `zone_start` to `zone_end` with enough free
pages. -/
def Sees (c : AllocCall) (s : MemState) : Prop :=
  ∃ i, (zoneRange s c.zoneSelect).1 ≤ i ∧ i ≤ (zoneRange s c.zoneSelect).2 ∧
    (s.zones i).HasFree c.number ∧ ∃ w k, (s.zones i).LooksAt w k ∧
      ClearAt s.bits (Bitmap.maskBits c.number.toNat) w k

/-- The zone loop ends. -/
def Ends (c : AllocCall) (s : MemState) : Prop := (zoneRange s c.zoneSelect).2 ≠ 2 ^ 64 - 1

/-- **The search finds nothing exactly when no look succeeds.** -/
theorem found_eq_none_iff (h : c.Ends s) : c.found s = none ↔ ¬ c.Sees s := by
  unfold found firstClear
  rw [List.find?_eq_none]
  unfold probes zonesFrom Sees
  rw [if_neg h, List.append_nil]
  constructor
  · rintro hnone ⟨i, hlo, hhi, hfree, w, k, hlooks, hclear⟩
    obtain ⟨j, hj, rfl, hjk, hk⟩ := looksAt_iff.mp hlooks
    have hmem : (⟨i, j, k⟩ : Probe) ∈ zoneProbes s c.number i :=
      mem_zoneProbes_iff.mpr ⟨rfl, hfree, hj, hjk, hk⟩
    have hrange : i ∈ List.range' (zoneRange s c.zoneSelect).1
        ((zoneRange s c.zoneSelect).2 + 1 - (zoneRange s c.zoneSelect).1) :=
      List.mem_range'_1.mpr ⟨hlo, by omega⟩
    refine hnone _ (List.mem_flatMap.mpr ⟨i, hrange, hmem⟩) ?_
    rw [decide_eq_true_eq]
    exact (Probe.clear_iff (show k < 64 by omega)).mpr hclear
  · intro hsees q hq hclear
    rw [decide_eq_true_eq] at hclear
    obtain ⟨i, hi, hmem⟩ := List.mem_flatMap.mp hq
    rw [List.mem_range'_1] at hi
    obtain ⟨rfl, hfree, hj, hjk, hk⟩ := mem_zoneProbes_iff.mp hmem
    refine hsees ⟨q.i, hi.1, by omega, hfree, q.j / 64, q.k,
      looksAt_iff.mpr ⟨q.j, hj, rfl, hjk, hk⟩, ?_⟩
    exact (Probe.clear_iff (by omega)).mp hclear

/-- **When a call returns `NULL`.** -/
theorem run_eq_null_iff : c.run s = .null ↔ c.Ends s ∧ ¬ c.Sees s := by
  constructor
  · intro h
    have hends : c.Ends s := by
      intro hend
      have hnone := found_of_run_eq_null h
      unfold run allocPages at h
      unfold found at hnone
      rw [hnone, if_pos hend] at h
      cases h
    exact ⟨hends, (found_eq_none_iff hends).mp (found_of_run_eq_null h)⟩
  · rintro ⟨hends, hsees⟩
    have hnone := (found_eq_none_iff hends).mpr hsees
    unfold run allocPages
    unfold found at hnone
    rw [hnone]
    exact if_neg hends

/-- A zone of the selected range has enough free pages, and as many of them in a row have clear
bits. -/
def HasRun (c : AllocCall) (s : MemState) : Prop :=
  ∃ z, InRange s c.zoneSelect z ∧ (s.zones z).HasFree c.number ∧
    ∃ a, (s.zones z).startPage ≤ a ∧ a + c.number.toNat ≤ (s.zones z).endPage ∧
      ∀ l < c.number.toNat, s.bits.bit (a + l) = false

/-- The search does not miss a free run: in a state with the allocator's invariant, a call in the
contract for which a zone of the range has one does not return `NULL`. -/
def Completes (c : AllocCall) (s : MemState) : Prop :=
  RepInv s → c.Valid → c.HasRun s → c.run s ≠ .null

/-- **When the search is complete.**  Where the run is there, a look at some place has to succeed;
or the zone loop does not end, so that the call does not return at all. -/
theorem completes_iff :
    c.Completes s ↔ (RepInv s → c.Valid → c.HasRun s → c.Sees s ∨ ¬ c.Ends s) := by
  refine forall_congr' fun _ => forall_congr' fun _ => forall_congr' fun _ => ?_
  rw [Ne, run_eq_null_iff, not_and_or, not_not, or_comm]

end AllocCall

/-- A machine with 254 MiB from 2 MiB on; `w` is the first word of the bitmap, and page 63 is the
only free one. -/
def lowState (w : BitVec 64) : MemState where
  desc := { e820 := [⟨0x200000, 0xfe00000, ram⟩],
            bitsMap := 0, bitsSize := 128, bitsLen := 16, pagesStruct := 0, pagesSize := 128,
            pagesLen := 5120, zonesStruct := 0, zonesSize := 1, zonesLen := 80, endBrk := 0,
            endOfStruct := 0 }
  bits v := if v = 0 then w else -1
  pages x := if x = 63 then ⟨some 0, pageAddr 63, 0, 0, 0⟩ else ⟨some 0, pageAddr x, pgKernel, 1, 0⟩
  zones _ := ⟨1, 127, 0x200000, 0x10000000, 0xfe00000, 0, 126, 1, 126⟩
  gZoneDma := 0
  gZoneNormal := 0
  gZoneUnmapped := 0
  lowMapped := false

/-- Only bit 63 of the bitmap is clear. -/
theorem bit_lowState {x : ℕ} (h : (lowState 0x7fffffffffffffff).bits.bit x = false) : x = 63 := by
  have hbit := Nat.mod_lt x (show 0 < 64 by decide)
  unfold Bitmap.bit lowState at h
  simp only at h
  split at h
  · next hword =>
    have hall : ∀ l < 64, (0x7fffffffffffffff : BitVec 64).getLsbD l = false → l = 63 := by decide
    have := hall _ hbit h
    omega
  · rw [show (-1 : BitVec 64) = BitVec.allOnes 64 by decide, BitVec.getLsbD_allOnes,
      decide_eq_true hbit] at h
    cases h

theorem lowState_repInv : RepInv (lowState 0x7fffffffffffffff) where
  clear x _ hclear := by
    obtain rfl := bit_lowState hclear
    exact ⟨0, Nat.one_pos, by decide +kernel, rfl⟩
  zoneStruct z hz x _ := by
    obtain rfl : z = 0 := Nat.lt_one_iff.mp hz
    unfold lowState
    simp only
    split <;> rfl
  phyAddr z _ x _ := by
    unfold lowState
    simp only
    split
    · next h => rw [h]
    · rfl

/-- **A free page that is never looked at.**  The first page of the zone is page 1, so the scan of
the first word ends before bit 63, and the later words are in use. -/
theorem lowState_not_completes :
    ¬ AllocCall.Completes ⟨zoneNormal, 1, pgKernel⟩ (lowState 0x7fffffffffffffff) := by
  intro h
  have hfound : AllocCall.found ⟨zoneNormal, 1, pgKernel⟩ (lowState 0x7fffffffffffffff) = none := by
    decide +kernel
  refine h lowState_repInv (by decide) ⟨0, by decide +kernel, by decide +kernel, 63,
    by decide +kernel, by decide +kernel, ?_⟩ ?_
  · intro l hl
    obtain rfl : l = 0 := Nat.lt_one_iff.mp hl
    decide +kernel
  · unfold AllocCall.run allocPages
    unfold AllocCall.found at hfound
    rw [hfound]
    exact if_neg (by decide +kernel)

/-! ## Calls out of the contract -/

namespace AllocCall

/-- A call out of the contract is refused: it returns `NULL` and changes nothing. -/
def Refuses (c : AllocCall) (s : MemState) : Prop := ¬ c.Valid → AllocStep s (c, none) s

/-- **When a call out of the contract is refused.**  The zone loop has to end, and no look may
succeed. -/
theorem refuses_iff : c.Refuses s ↔ (¬ c.Valid → c.Ends s ∧ ¬ c.Sees s) :=
  forall_congr' fun _ => (and_iff_left rfl).trans run_eq_null_iff

end AllocCall

/-- **An unknown selector, and a call for no pages.**  The first call prints its message, searches
zone 0 and returns a page; the second returns one without having tested any. -/
theorem lowState_not_refuses :
    ¬ AllocCall.Refuses ⟨8, 1, pgKernel⟩ (lowState 0xfffffffffffffffb) ∧
      ¬ AllocCall.Refuses ⟨zoneNormal, 0, pgKernel⟩ (lowState (-1)) := by
  constructor
  · intro h
    have hnull := AllocCall.found_of_run_eq_null (h (by decide)).1
    revert hnull
    decide +kernel
  · intro h
    have hnull := AllocCall.found_of_run_eq_null (h (by decide)).1
    revert hnull
    decide +kernel

end Memory
end OSLib
