import OSLib.Foundation.FirstFound
import OSLib.Memory.Alloc

/-!
# The places `alloc_pages` looks at

What a call of `alloc_pages` comes to can be read off the bitmap and the bounds of the zones before
the call.  This file says how, once, so that the conditions of the other files speak of bits and
page numbers and not of loop variables.

## Where it looks

For a zone the search looks at certain bits of certain words only (`Zone.LooksAt`): in the word of
the zone's first page at the bits `r, …, 63 - r`, where `r` is the place of that page in its word,
and at every bit of the later words up to the page after the zone's last one.  A look succeeds when
the run of bits from there on is clear, and at bit 0 of a word when the next word starts with such a
run too (`ClearAt`).  `Zone.SeesAt` numbers the looks by the bit they start at.

## What it finds

The outer loop meets the zones of the range in order (`ZoneBefore`), and within a zone the looks
come in the order of their bits.  So the call finds the lowest run of clear bits in the first zone
that has one where it looks, `AllocCall.LowestRun`, and nothing else: `AllocCall.forall_lowestRun`.

## What it takes

The page structs taken are not those of the run found.  In the word of the zone's first page they
lie `r - 1` places above it, in a later word one place below it: `Zone.shift` is `r` in the one case
and 0 in the other, and the `l`-th page struct taken is `Zone.moved`.  Where `r` is 1 and the run is
in the first word the two agree.
-/

namespace OSLib
namespace Memory

variable {s : MemState} {c : AllocCall} {q : Probe} {number : BitVec 32} {i j b : ℕ}

/-! ## The places the search looks at -/

/-- The multiples of 64 the word loop visits. -/
theorem mem_wordsFrom_of_le {tmp stop fuel w v : ℕ} (hw : w ≤ v) (hv : 64 * v ≤ stop)
    (hfuel : v - w < fuel) : 64 * v ∈ wordsFrom tmp stop fuel (64 * w) := by
  induction fuel generalizing w with
  | zero => omega
  | succ fuel ih =>
    unfold wordsFrom
    rw [if_pos (by omega)]
    rcases Nat.eq_or_lt_of_le hw with rfl | hlt
    · exact List.mem_cons_self
    · refine List.mem_cons_of_mem _ ?_
      rw [if_neg (by omega), show 64 * w + 64 = 64 * (w + 1) by omega]
      exact ih (by omega) (by omega)

/-- **The word loop** visits the first page of the zone and every multiple of 64 after it. -/
theorem mem_words_iff {start stop x : ℕ} :
    x ∈ words start stop ↔ x ≤ stop ∧ (x = start ∨ start < x ∧ x % 64 = 0) := by
  refine ⟨mem_words, ?_⟩
  rintro ⟨hx, hcase⟩
  unfold words
  obtain ⟨fuel, hfuel⟩ : ∃ fuel, stop + 1 - start = fuel + 1 := ⟨stop - start, by omega⟩
  rw [hfuel]
  unfold wordsFrom
  rw [if_pos (by omega)]
  rcases hcase with rfl | ⟨hlt, hmod⟩
  · exact List.mem_cons_self
  · refine List.mem_cons_of_mem _ ?_
    obtain ⟨v, rfl⟩ : ∃ v, x = 64 * v := ⟨x / 64, by omega⟩
    have hnext : (start + if start % 64 ≠ 0 then 64 - start % 64 else 64) =
        64 * (start / 64 + 1) := by
      split <;> omega
    rw [hnext]
    exact mem_wordsFrom_of_le (by omega) hx (by omega)

/-- The search looks at bit `k` of word `w` for a zone. -/
def Zone.LooksAt (z : Zone) (w k : ℕ) : Prop :=
  w = z.startPage / 64 ∧ z.startPage ≤ z.endPage ∧ z.startPage % 64 ≤ k ∧
      k + z.startPage % 64 < 64 ∨
    z.startPage < 64 * w ∧ 64 * w ≤ z.endPage ∧ k < 64

/-- A look at bit `k` of word `w` for `n` pages succeeds. -/
def ClearAt (m : Bitmap) (n w k : ℕ) : Prop :=
  (∀ l < n, m.bit (64 * w + k + l) = false) ∧ (k = 0 → ∀ l < n, m.bit (64 * (w + 1) + l) = false)

/-- A zone has enough free pages, as the code compares the two numbers. -/
def Zone.HasFree (z : Zone) (number : BitVec 32) : Prop := ¬ z.pageFreeCnt < number.signExtend 64

instance (z : Zone) (number : BitVec 32) : Decidable (z.HasFree number) :=
  inferInstanceAs (Decidable (¬ _))

theorem mem_zoneProbes_iff :
    q ∈ zoneProbes s number i ↔ q.i = i ∧ (s.zones i).HasFree number ∧
      q.j ∈ words (s.zones i).startPage (s.zones i).endPage ∧
      q.j % 64 ≤ q.k ∧ q.k < 64 - q.j % 64 := by
  refine ⟨mem_zoneProbes, ?_⟩
  rintro ⟨rfl, hfree, hj, hk, hlt⟩
  unfold zoneProbes
  rw [if_neg hfree]
  refine List.mem_flatMap.mpr ⟨q.j, hj, List.mem_map.mpr ⟨q.k, ?_, rfl⟩⟩
  rw [List.mem_range'_1]
  omega

/-- The looks of a zone, made by the probes. -/
theorem looksAt_iff {z : Zone} {w k : ℕ} :
    z.LooksAt w k ↔
      ∃ j ∈ words z.startPage z.endPage, j / 64 = w ∧ j % 64 ≤ k ∧ k < 64 - j % 64 := by
  unfold Zone.LooksAt
  constructor
  · rintro (⟨rfl, hle, hlo, hhi⟩ | ⟨hlt, hle, hk⟩)
    · exact ⟨z.startPage, mem_words_iff.mpr ⟨hle, .inl rfl⟩, rfl, hlo, by omega⟩
    · exact ⟨64 * w, mem_words_iff.mpr ⟨hle, .inr ⟨hlt, by omega⟩⟩, by omega, by omega, by omega⟩
  · rintro ⟨j, hj, rfl, hlo, hhi⟩
    obtain ⟨hle, rfl | ⟨hlt, hmod⟩⟩ := mem_words_iff.mp hj
    · exact .inl ⟨rfl, hle, hlo, by omega⟩
    · exact .inr ⟨by omega, by omega, by omega⟩

theorem Probe.clear_iff {m : Bitmap} (hk : q.k < 64) :
    q.Clear m number ↔ ClearAt m (Bitmap.maskBits number.toNat) (q.j / 64) q.k := by
  unfold Probe.Clear ClearAt
  rw [← Bitmap.lowMask_maskBits]
  exact Bitmap.window_eq_zero_iff hk (Bitmap.maskBits_le _)

/-- For a call for `number` pages the search looks at bit `b` in the zone, and the look succeeds. -/
def Zone.SeesAt (z : Zone) (m : Bitmap) (number : BitVec 32) (b : ℕ) : Prop :=
  z.HasFree number ∧ z.LooksAt (b / 64) (b % 64) ∧
    ClearAt m (Bitmap.maskBits number.toNat) (b / 64) (b % 64)

/-! ## The order of the places -/

/-- The zone is one that the loop from the first zone to the last one meets. -/
def ZoneIn (r : ℕ × ℕ) (i : ℕ) : Prop := r.1 ≤ i ∧ i ≤ r.2 ∨ r.2 = 2 ^ 64 - 1 ∧ i < r.1

/-- The loop meets zone `i` before zone `j`.  A loop up to `2 ^ 64 - 1` comes round to zone 0 once
it has met the zones from the first one on. -/
def ZoneBefore (r : ℕ × ℕ) (i j : ℕ) : Prop := r.1 ≤ i ∧ (i < j ∨ j < r.1) ∨ i < j ∧ j < r.1

/-- Of two zones one comes first. -/
theorem zoneBefore_or (r : ℕ × ℕ) (hne : i ≠ j) : ZoneBefore r i j ∨ ZoneBefore r j i := by
  unfold ZoneBefore
  omega

theorem mem_zonesFrom_iff {r : ℕ × ℕ} : i ∈ zonesFrom r ↔ ZoneIn r i := by
  unfold zonesFrom ZoneIn
  rw [List.mem_append, List.mem_range'_1]
  split
  · next h =>
    rw [List.mem_range]
    omega
  · next h =>
    rw [or_iff_left List.not_mem_nil]
    omega

theorem pairwise_zonesFrom (r : ℕ × ℕ) : (zonesFrom r).Pairwise (ZoneBefore r) := by
  unfold zonesFrom
  refine List.pairwise_append.mpr ⟨?_, ?_, fun i hi j hj => ?_⟩
  · refine List.Pairwise.imp_of_mem ?_ List.pairwise_lt_range'
    intro i j hi hj hlt
    rw [List.mem_range'_1] at hi
    exact .inl ⟨hi.1, .inl hlt⟩
  · split
    · refine List.Pairwise.imp_of_mem ?_ List.pairwise_lt_range
      intro i j _ hj hlt
      exact .inr ⟨hlt, List.mem_range.mp hj⟩
    · exact List.Pairwise.nil
  · rw [List.mem_range'_1] at hi
    split at hj
    · exact .inl ⟨hi.1, .inr (List.mem_range.mp hj)⟩
    · exact absurd hj List.not_mem_nil

/-- One probe comes before another: in an earlier zone, or at a lower bit of the same one. -/
def Probe.Before (r : ℕ × ℕ) (q q' : Probe) : Prop :=
  ZoneBefore r q.i q'.i ∨ q.i = q'.i ∧ q.tested < q'.tested

theorem Probe.Before.asymm {r : ℕ × ℕ} {q q' : Probe} (h : q.Before r q') : ¬ q'.Before r q := by
  unfold Probe.Before ZoneBefore at *
  omega

theorem pairwise_wordsFrom {start stop fuel j : ℕ} (hj : j % 64 = start % 64 ∨ j % 64 = 0) :
    (wordsFrom (64 - start % 64) stop fuel j).Pairwise fun x y => x / 64 < y / 64 := by
  induction fuel generalizing j with
  | zero => exact List.Pairwise.nil
  | succ fuel ih =>
    unfold wordsFrom
    split
    · refine List.pairwise_cons.mpr ⟨fun x hx => ?_, ih (by split <;> omega)⟩
      obtain ⟨-, hcase⟩ := mem_wordsFrom hx
      split at hcase <;> omega
    · exact List.Pairwise.nil

theorem pairwise_zoneProbes (r : ℕ × ℕ) (s : MemState) (number : BitVec 32) (i : ℕ) :
    (zoneProbes s number i).Pairwise (Probe.Before r) := by
  unfold zoneProbes
  split
  · exact List.Pairwise.nil
  · refine List.pairwise_flatMap.mpr ⟨fun j _ => ?_, ?_⟩
    · rw [List.pairwise_map]
      refine List.Pairwise.imp ?_ List.pairwise_lt_range'
      intro k k' hlt
      exact .inr ⟨rfl, by simp only [Probe.tested]; omega⟩
    · refine List.Pairwise.imp ?_ (pairwise_wordsFrom (.inl rfl))
      intro j j' hlt q hq q' hq'
      obtain ⟨k, hk, rfl⟩ := List.mem_map.mp hq
      obtain ⟨k', hk', rfl⟩ := List.mem_map.mp hq'
      rw [List.mem_range'_1] at hk hk'
      exact .inr ⟨rfl, by simp only [Probe.tested]; omega⟩

/-- **The probes of a call are made in order.** -/
theorem pairwise_probes (s : MemState) (zoneSelect number : BitVec 32) :
    (probes s zoneSelect number).Pairwise (Probe.Before (zoneRange s zoneSelect)) := by
  unfold probes
  refine List.pairwise_flatMap.mpr ⟨fun i _ => pairwise_zoneProbes _ s number i, ?_⟩
  refine List.Pairwise.imp ?_ (pairwise_zonesFrom _)
  intro i i' hlt q hq q' hq'
  rw [← (mem_zoneProbes hq).1, ← (mem_zoneProbes hq').1] at hlt
  exact .inl hlt

/-! ## The lowest run -/

namespace AllocCall

/-- **The lowest run of a call**: the look at bit `b` in zone `i` succeeds, and none at a lower bit
there or in a zone that the loop meets before. -/
structure LowestRun (c : AllocCall) (s : MemState) (i b : ℕ) : Prop where
  zone : ZoneIn (zoneRange s c.zoneSelect) i
  sees : (s.zones i).SeesAt s.bits c.number b
  lower : ∀ a < b, ¬ (s.zones i).SeesAt s.bits c.number a
  earlier : ∀ j, ZoneIn (zoneRange s c.zoneSelect) j → ZoneBefore (zoneRange s c.zoneSelect) j i →
    ∀ a, ¬ (s.zones j).SeesAt s.bits c.number a

end AllocCall

/-- A probe that succeeds is a look that does. -/
theorem Probe.seesAt (h : q ∈ zoneProbes s number i) (hclear : q.Clear s.bits number) :
    (s.zones i).SeesAt s.bits number q.tested := by
  obtain ⟨-, hfree, hj, hjk, hk⟩ := mem_zoneProbes_iff.mp h
  have hdiv : q.tested / 64 = q.j / 64 := by unfold Probe.tested; omega
  have hmod : q.tested % 64 = q.k := by unfold Probe.tested; omega
  rw [Zone.SeesAt, hdiv, hmod]
  exact ⟨hfree, looksAt_iff.mpr ⟨q.j, hj, rfl, hjk, hk⟩, (Probe.clear_iff (by omega)).mp hclear⟩

/-- Every look that succeeds is made by a probe. -/
theorem Zone.SeesAt.exists_probe (h : (s.zones i).SeesAt s.bits number b) :
    ∃ q ∈ zoneProbes s number i, q.Clear s.bits number ∧ q.tested = b := by
  obtain ⟨hfree, hlooks, hclear⟩ := h
  obtain ⟨j, hj, hjb, hjk, hk⟩ := looksAt_iff.mp hlooks
  refine ⟨⟨i, j, b % 64⟩, mem_zoneProbes_iff.mpr ⟨rfl, hfree, hj, hjk, hk⟩, ?_, ?_⟩
  · rw [Probe.clear_iff (show b % 64 < 64 by omega), hjb]
    exact hclear
  · rw [Probe.tested, hjb]
    exact Nat.div_add_mod b 64

namespace AllocCall

/-- What the search finds is the lowest run. -/
theorem lowestRun_of_found (h : c.found s = some q) : c.LowestRun s q.i q.tested := by
  obtain ⟨hclear, hreaches⟩ := find?_eq_some_iff_reaches.mp h
  obtain ⟨hmem, hfirst⟩ := (reaches_iff_of_pairwise (pairwise_probes ..)
    fun _ _ => Probe.Before.asymm).mp hreaches
  obtain ⟨i, hi, hq⟩ := List.mem_flatMap.mp hmem
  obtain rfl := (mem_zoneProbes hq).1
  -- no probe before it succeeds
  have hno : ∀ j, ZoneIn (zoneRange s c.zoneSelect) j → ∀ q' ∈ zoneProbes s c.number j,
      q'.Before (zoneRange s c.zoneSelect) q → ¬ q'.Clear s.bits c.number := by
    intro j hj q' hq' hbefore
    have hnone := hfirst q'
      (List.mem_flatMap.mpr ⟨j, mem_zonesFrom_iff.mpr hj, hq'⟩) hbefore
    have hfails := Option.guard_eq_none_iff.mp hnone
    exact of_decide_eq_false hfails
  refine ⟨mem_zonesFrom_iff.mp hi, q.seesAt hq (of_decide_eq_true hclear), fun a ha hsees => ?_,
    fun j hj hbefore a hsees => ?_⟩
  · obtain ⟨q', hq', hclear', rfl⟩ := hsees.exists_probe
    exact hno q.i (mem_zonesFrom_iff.mp hi) q' hq' (.inr ⟨(mem_zoneProbes hq').1, ha⟩) hclear'
  · obtain ⟨q', hq', hclear', rfl⟩ := hsees.exists_probe
    refine hno j hj q' hq' (.inl ?_) hclear'
    rwa [(mem_zoneProbes hq').1]

/-- The lowest run does not come after a look that succeeds. -/
theorem LowestRun.not_after (h : c.LowestRun s i b) (hj : ZoneIn (zoneRange s c.zoneSelect) j)
    {a : ℕ} (hsees : (s.zones j).SeesAt s.bits c.number a) :
    (ZoneBefore (zoneRange s c.zoneSelect) i j ∨ i = j ∧ b < a) ∨ i = j ∧ b = a := by
  by_cases hij : i = j
  · subst hij
    rcases Nat.lt_trichotomy b a with hlt | heq | hgt
    · exact .inl (.inr ⟨rfl, hlt⟩)
    · exact .inr ⟨rfl, heq⟩
    · exact absurd hsees (h.lower a hgt)
  · refine .inl (.inl ((zoneBefore_or _ hij).resolve_right fun hji => ?_))
    exact h.earlier j hj hji a hsees

/-- The lowest runs of two states are one place when each is a look that succeeds in the other. -/
theorem LowestRun.eq_of_seesAt {t : MemState} {a : ℕ} (h : c.LowestRun s i b)
    (h' : c.LowestRun t j a) (hrange : zoneRange t c.zoneSelect = zoneRange s c.zoneSelect)
    (hs : (s.zones j).SeesAt s.bits c.number a) (ht : (t.zones i).SeesAt t.bits c.number b) :
    i = j ∧ b = a := by
  have hj := h'.zone
  rw [hrange] at hj
  rcases h.not_after hj hs with hbefore | heq
  · exfalso
    rw [← hrange] at hbefore
    rcases hbefore with hlt | ⟨rfl, hlt⟩
    · exact h'.earlier i (hrange ▸ h.zone) hlt b ht
    · exact h'.lower b hlt ht
  · exact heq

/-- There is one lowest run. -/
theorem LowestRun.unique (h : c.LowestRun s i b) {a : ℕ} (h' : c.LowestRun s j a) :
    i = j ∧ b = a := h.eq_of_seesAt h' rfl h'.sees h.sees

/-- A call finds something when a look in one of its zones succeeds. -/
theorem exists_found (hi : ZoneIn (zoneRange s c.zoneSelect) i)
    (hsees : (s.zones i).SeesAt s.bits c.number b) : ∃ q, c.found s = some q := by
  obtain ⟨q, hq, hclear, -⟩ := hsees.exists_probe
  refine Option.ne_none_iff_exists'.mp fun hnone => ?_
  refine List.find?_eq_none.mp hnone q ?_ (decide_eq_true hclear)
  exact List.mem_flatMap.mpr ⟨i, mem_zonesFrom_iff.mpr hi, hq⟩

/-- A call with a lowest run finds it. -/
theorem LowestRun.found (h : c.LowestRun s i b) :
    ∃ q, c.found s = some q ∧ q.i = i ∧ q.tested = b := by
  obtain ⟨q, hq⟩ := exists_found h.zone h.sees
  obtain ⟨hi, hb⟩ := (lowestRun_of_found hq).unique h
  exact ⟨q, hq, hi, hb⟩

/-- The place and the start of the zone tell which probe it was. -/
theorem eq_of_found {t : MemState} {q' : Probe} (h : c.found s = some q) (h' : c.found t = some q')
    (hi : q.i = q'.i) (htested : q.tested = q'.tested)
    (hstart : (s.zones q.i).startPage = (t.zones q'.i).startPage) : q' = q := by
  obtain ⟨-, hprobe, -⟩ := found_spec h
  obtain ⟨-, hprobe', -⟩ := found_spec h'
  obtain ⟨-, -, hj, -, hk⟩ := mem_zoneProbes hprobe
  obtain ⟨-, -, hj', -, hk'⟩ := mem_zoneProbes hprobe'
  obtain ⟨-, hcase⟩ := mem_words hj
  obtain ⟨-, hcase'⟩ := mem_words hj'
  rw [← hstart] at hcase'
  unfold Probe.tested at htested
  have hword : q.j / 64 = q'.j / 64 := by omega
  have hjeq : q.j = q'.j := by omega
  have hkeq : q.k = q'.k := by omega
  cases q
  cases q'
  simp only at hi hjeq hkeq
  rw [hi, hjeq, hkeq]

/-- **What holds of the lowest run** holds of what the search finds, and the other way round. -/
theorem forall_lowestRun {P : ℕ → ℕ → Prop} :
    (∀ i b, c.LowestRun s i b → P i b) ↔ ∀ q ∈ c.found s, P q.i q.tested := by
  constructor
  · intro h q hq
    exact h q.i q.tested (lowestRun_of_found hq)
  · intro h i b hrun
    obtain ⟨q, hq, rfl, rfl⟩ := hrun.found
    exact h q hq

end AllocCall

/-! ## The page structs taken -/

/-- How far the word loop has come into the word of bit `b`: to the zone's first page, in the word
of that page, and to the start of the word in a later one. -/
def Zone.shift (z : Zone) (b : ℕ) : ℕ := if b / 64 = z.startPage / 64 then z.startPage % 64 else 0

/-- The place `l` bits into the run that lies `shift - 1` places above bit `b`, as pointer
arithmetic reaches it. -/
def Zone.moved (z : Zone) (b l : ℕ) : ℕ := (b + z.shift b + l + (2 ^ 64 - 1)) % 2 ^ 64

/-- The probe's page, in the word of the bits it tests. -/
theorem Probe.shift_eq (h : q ∈ zoneProbes s number i) : (s.zones i).shift q.tested = q.j % 64 := by
  obtain ⟨-, -, hj, hjk, hk⟩ := mem_zoneProbes h
  have hdiv : q.tested / 64 = q.j / 64 := by unfold Probe.tested; omega
  rw [Zone.shift, hdiv]
  obtain ⟨-, heq | ⟨hlt, hmod⟩⟩ := mem_words hj
  · rw [heq, if_pos rfl]
  · rw [if_neg (by omega), hmod]

theorem Probe.runFrom_page (h : q ∈ zoneProbes s number i) (n : ℕ) :
    runFrom q.page n = (List.range n).map ((s.zones i).moved q.tested) := by
  have hshift := q.shift_eq h
  unfold runFrom
  refine List.map_congr_left fun l _ => ?_
  rw [Zone.moved, hshift, Probe.page, Probe.tested]
  omega

namespace AllocCall

/-- The lowest run of the call, moved by `shift - 1` places, has the property at every place. -/
def MovedRun (c : AllocCall) (P : ℕ → Prop) (s : MemState) : Prop :=
  ∀ i b, c.LowestRun s i b → ∀ l < c.count, P ((s.zones i).moved b l)

/-- **The page structs taken are those of the moved run.** -/
theorem movedRun_iff {P : ℕ → Prop} :
    c.MovedRun P s ↔ ∀ q ∈ c.found s, ∀ x ∈ runFrom q.page c.count, P x := by
  refine forall_lowestRun.trans (forall_congr' fun q => imp_congr_right fun hq => ?_)
  obtain ⟨-, hprobe, -⟩ := found_spec hq
  rw [q.runFrom_page hprobe, List.forall_mem_map]
  exact forall_congr' fun l => imp_congr_left List.mem_range.symm

instance (c : AllocCall) (P : ℕ → Prop) [DecidablePred P] (s : MemState) :
    Decidable (c.MovedRun P s) := decidable_of_iff _ movedRun_iff.symm

/-- The lowest run lies in the word of a zone's first page, which is the second page of the word,
and inside the bitmap. -/
def Aligned (c : AllocCall) (s : MemState) : Prop :=
  ∀ i b, c.LowestRun s i b → (s.zones i).startPage % 64 = 1 ∧ b / 64 = (s.zones i).startPage / 64 ∧
    b + c.number.toNat ≤ s.desc.bitsSize

instance (c : AllocCall) (s : MemState) : Decidable (c.Aligned s) :=
  decidable_of_iff _ forall_lowestRun.symm

/-- There the run is not moved. -/
theorem Aligned.movedRun (h : c.Aligned s) (hn : c.number.toNat ≤ 64)
    (hbits : s.desc.bitsSize ≤ 2 ^ 43) :
    c.MovedRun (fun x => x < s.desc.bitsSize ∧ s.bits.bit x = false) s := by
  intro i b hrun l hl
  obtain ⟨hone, hword, hin⟩ := h i b hrun
  rw [c.count_eq (by omega)] at hl
  have hmoved : (s.zones i).moved b l = b + l := by
    rw [Zone.moved, Zone.shift, if_pos hword, hone]
    omega
  have hclear := hrun.sees.2.2.1 l (by rwa [Bitmap.maskBits_of_le hn])
  rw [Nat.div_add_mod] at hclear
  rw [hmoved]
  exact ⟨by omega, hclear⟩

end AllocCall

end Memory
end OSLib
