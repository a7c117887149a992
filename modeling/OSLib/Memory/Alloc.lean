import OSLib.Foundation.Runs
import OSLib.Memory.Init

/-!
# `alloc_pages`

The search is a sequence of probes `(i, j, k)`: the zone, the page the word loop has reached and the
bit inside its word.  `probes` lists them in the order the three loops make them, and a probe
succeeds when the window at bit `k` of word `j / 64` has its low `number` bits clear.

What a successful probe has tested are the bits from `64 * (j / 64) + k` on.  What `alloc_pages`
then takes are the page structs from `j + k - 1` on.  The two agree when `j % 64 = 1`, and otherwise
lie `j % 64 - 1` places apart: `Probe.page_add_one`.

The loops leave by a `goto` at the first probe that succeeds, and nothing is written before that, so
the search is `List.find?` over the list of probes and the state it searches is the one before the
call.  Everything after it is the loop over the page structs, which `page_init` runs on one by one;
it is the only part that can fail.

Page indices are computed modulo `2 ^ 64`, so that `j = k = 0` gives the page struct before the
first one.  The selector of the zones, the number and the flags are arguments of the code's own
types, and nothing is assumed of them: an unknown selector searches zone 0, and a `number` above 64
makes a mask by a shift that the processor takes modulo 64.
-/

namespace OSLib
namespace Memory

/-! ## The loops -/

/-- `ZONE_DMA`. -/
def zoneDma : BitVec 32 := 0x1

/-- `ZONE_NORMAL`. -/
def zoneNormal : BitVec 32 := 0x2

/-- `ZONE_UNMAPPED`. -/
def zoneUnmapped : BitVec 32 := 0x4

/-- `zone_start` and `zone_end`, the last zone searched.  Any other selector searches zone 0. -/
def zoneRange (s : MemState) (zoneSelect : BitVec 32) : ℕ × ℕ :=
  if zoneSelect = zoneDma then (0, s.gZoneDma)
  else if zoneSelect = zoneNormal then (s.gZoneDma, s.gZoneNormal)
  else if zoneSelect = zoneUnmapped then
    (s.gZoneUnmapped, (s.desc.zonesSize + (2 ^ 64 - 1)) % 2 ^ 64)
  else (0, 0)

/-- The zones in the order the outer loop meets them.  A loop up to `2 ^ 64 - 1` never ends: it
comes round to zone 0 and goes on. -/
def zonesFrom (r : ℕ × ℕ) : List ℕ :=
  List.range' r.1 (r.2 + 1 - r.1) ++ if r.2 = 2 ^ 64 - 1 then List.range r.1 else []

/-- The values of `j` from the given one on, `n` of them at most. -/
def wordsFrom (tmp stop : ℕ) : ℕ → ℕ → List ℕ
  | 0, _ => []
  | n + 1, j =>
    if j ≤ stop then j :: wordsFrom tmp stop n (j + if j % 64 ≠ 0 then tmp else 64) else []

/-- The values of `j` for a zone.  The loop also visits the page after the zone's last one. -/
def words (start stop : ℕ) : List ℕ := wordsFrom (64 - start % 64) stop (stop + 1 - start) start

/-- The `n` page structs from `page` on, as pointer arithmetic reaches them. -/
def runFrom (page n : ℕ) : List ℕ := (List.range n).map fun l => (page + l) % 2 ^ 64

/-- One probe of the search. -/
structure Probe where
  i : ℕ
  j : ℕ
  k : ℕ
  deriving DecidableEq, Repr

namespace Probe

variable (q : Probe)

/-- The first bit the probe tests. -/
def tested : ℕ := 64 * (q.j / 64) + q.k

/-- The page struct `alloc_pages` takes first when the probe succeeds. -/
def page : ℕ := (q.j + q.k + (2 ^ 64 - 1)) % 2 ^ 64

/-- The test of the inner loop. -/
def Clear (m : Bitmap) (number : BitVec 32) : Prop :=
  Bitmap.window (m (q.j / 64)) (m (q.j / 64 + 1)) q.k &&& Bitmap.lowMask number.toNat = 0

instance (m : Bitmap) (number : BitVec 32) : Decidable (q.Clear m number) := by
  unfold Clear
  infer_instance

end Probe

/-- The probes of one zone.  A zone whose `page_free_cnt` is too small is skipped. -/
def zoneProbes (s : MemState) (number : BitVec 32) (i : ℕ) : List Probe :=
  if (s.zones i).pageFreeCnt < number.signExtend 64 then []
  else (words (s.zones i).startPage (s.zones i).endPage).flatMap fun j =>
    (List.range' (j % 64) (64 - j % 64 - j % 64)).map fun k => ⟨i, j, k⟩

/-- The probes of a call. -/
def probes (s : MemState) (zoneSelect number : BitVec 32) : List Probe :=
  (zonesFrom (zoneRange s zoneSelect)).flatMap (zoneProbes s number)

/-- The first probe that succeeds. -/
def firstClear (s : MemState) (zoneSelect number : BitVec 32) : Option Probe :=
  (probes s zoneSelect number).find? fun q => q.Clear s.bits number

/-! ## The call -/

/-- What becomes of a call of `alloc_pages`. -/
inductive AllocResult where
  /-- It returns `NULL`. -/
  | null
  /-- It returns the page struct with the given index. -/
  | pages (page : ℕ) (s : MemState)
  /-- `page_init` follows a null zone pointer that is not mapped. -/
  | fault
  /-- The zone loop never ends. -/
  | hang

/-- `alloc_pages(zone_select, number, page_flags)`. -/
def allocPages (s : MemState) (zoneSelect number : BitVec 32) (pageFlags : BitVec 64) :
    AllocResult :=
  match firstClear s zoneSelect number with
  | some q =>
    match pageInits pageFlags s (runFrom q.page (number.signExtend 64).toNat) with
    | some t => .pages q.page t
    | none => .fault
  | none => if (zoneRange s zoneSelect).2 = 2 ^ 64 - 1 then .hang else .null

/-- The arguments of a call. -/
structure AllocCall where
  zoneSelect : BitVec 32
  number : BitVec 32
  pageFlags : BitVec 64
  deriving DecidableEq, Repr

namespace AllocCall

variable (c : AllocCall)

/-- How many page structs the call takes: `number`, converted to `uint64`. -/
def count : ℕ := (c.number.signExtend 64).toNat

/-- The call, run. -/
def run (s : MemState) : AllocResult := allocPages s c.zoneSelect c.number c.pageFlags

/-- The arguments are in the contract: one of the three selectors, and 1 to 64 pages. -/
def Valid : Prop :=
  (c.zoneSelect = zoneDma ∨ c.zoneSelect = zoneNormal ∨ c.zoneSelect = zoneUnmapped) ∧
    1 ≤ c.number.toNat ∧ c.number.toNat ≤ 64

instance : Decidable c.Valid := by unfold Valid; infer_instance

/-- The first probe of the call that succeeds. -/
def found (s : MemState) : Option Probe := firstClear s c.zoneSelect c.number

end AllocCall

/-- A call that returns, as a step of a run: it returns `NULL` and changes nothing, or it hands
pages out. -/
def AllocStep (s : MemState) (l : AllocCall × Option ℕ) (t : MemState) : Prop :=
  match l.2 with
  | none => l.1.run s = .null ∧ t = s
  | some page => l.1.run s = .pages page t

/-- The calls of a list one after the other, until one does not return. -/
def runCalls (s : MemState) : List AllocCall → List ((AllocCall × Option ℕ) × MemState)
  | [] => []
  | c :: cs =>
    match c.run s with
    | .null => ((c, none), s) :: runCalls s cs
    | .pages page t => ((c, some page), t) :: runCalls t cs
    | _ => []

/-- `alloc_pages(ZONE_NORMAL, n, PG_Kernel)` for each `n` of a list. -/
def normalCalls (ns : List (BitVec 32)) : List AllocCall :=
  ns.map fun n => ⟨zoneNormal, n, pgKernel⟩

variable {s t : MemState} {c : AllocCall} {l : AllocCall × Option ℕ} {page n x : ℕ} {q : Probe}

/-- A non-negative `number` is converted to itself. -/
theorem AllocCall.count_eq (h : c.number.toNat < 2 ^ 31) : c.count = c.number.toNat := by
  have hmsb : c.number.msb = false := by
    rw [BitVec.msb_eq_false_iff_two_mul_lt]
    omega
  rw [AllocCall.count, BitVec.signExtend_eq_setWidth_of_msb_false hmsb, BitVec.toNat_setWidth]
  omega

theorem runCalls_steps (s : MemState) (cs : List AllocCall) :
    Always AllocStep s (runCalls s cs) := by
  induction cs generalizing s with
  | nil => trivial
  | cons c cs ih =>
    unfold runCalls
    split
    · next h => exact ⟨⟨h, rfl⟩, ih s⟩
    · next h => exact ⟨h, ih _⟩
    · trivial

/-! ## What a call does -/

theorem mem_runFrom : x ∈ runFrom page n ↔ ∃ l < n, (page + l) % 2 ^ 64 = x := by
  simp [runFrom]

/-- A call that succeeds runs `page_init` over the pages of its first successful probe. -/
theorem AllocCall.run_eq_pages_iff :
    c.run s = .pages page t ↔ ∃ q, c.found s = some q ∧ q.page = page ∧
      pageInits c.pageFlags s (runFrom q.page c.count) = some t := by
  unfold AllocCall.run AllocCall.found AllocCall.count allocPages
  constructor
  · intro h
    split at h
    · next q hq =>
      split at h
      · next u hu =>
        obtain ⟨rfl, rfl⟩ := AllocResult.pages.inj h
        exact ⟨q, hq, rfl, hu⟩
      · exact absurd h (by simp)
    · split at h <;> exact absurd h (by simp)
  · rintro ⟨q, hq, rfl, hu⟩
    rw [hq]
    simp only [hu]

/-- A call that returns `NULL` has found nothing. -/
theorem AllocCall.found_of_run_eq_null (h : c.run s = .null) : c.found s = none := by
  unfold AllocCall.run allocPages at h
  unfold AllocCall.found
  split at h
  · split at h <;> exact absurd h (by simp)
  · assumption

/-- **What a step can do.** -/
theorem AllocStep.cases (h : AllocStep s l t) :
    (l.2 = none ∧ l.1.found s = none ∧ t = s) ∨
      ∃ q, l.1.found s = some q ∧ l.2 = some q.page ∧
        pageInits l.1.pageFlags s (runFrom q.page l.1.count) = some t := by
  obtain ⟨c, page⟩ := l
  cases page with
  | none => exact Or.inl ⟨rfl, AllocCall.found_of_run_eq_null h.1, h.2⟩
  | some page =>
    obtain ⟨q, hq, rfl, ht⟩ := AllocCall.run_eq_pages_iff.mp h
    exact Or.inr ⟨q, hq, rfl, ht⟩

theorem AllocStep.sameLayout (h : AllocStep s l t) : SameLayout s t := by
  rcases h.cases with ⟨-, -, rfl⟩ | ⟨q, -, -, hq⟩
  · exact SameLayout.refl _
  · exact pageInits_sameLayout hq

/-- No call clears a bit. -/
theorem AllocStep.bit_of_set (h : AllocStep s l t) (hx : s.bits.bit x = true) :
    t.bits.bit x = true := by
  rcases h.cases with ⟨-, -, rfl⟩ | ⟨q, -, -, hq⟩
  · exact hx
  · exact pageInits_bit_of_set hq hx

/-! ## What the search finds -/

theorem mem_wordsFrom {start stop fuel j x : ℕ} (h : x ∈ wordsFrom (64 - start % 64) stop fuel j) :
    x ≤ stop ∧ (x = j ∨ j < x ∧ (j % 64 = start % 64 ∨ j % 64 = 0 → x % 64 = 0)) := by
  induction fuel generalizing j with
  | zero => exact absurd h List.not_mem_nil
  | succ fuel ih =>
    unfold wordsFrom at h
    split at h
    · next hle =>
      rcases List.mem_cons.mp h with rfl | h
      · exact ⟨hle, Or.inl rfl⟩
      · obtain ⟨hx, hcase⟩ := ih h
        refine ⟨hx, Or.inr ?_⟩
        split at hcase <;> omega
    · exact absurd h List.not_mem_nil

/-- The word loop visits the first page of the zone, and after it only multiples of 64. -/
theorem mem_words {start stop x : ℕ} (h : x ∈ words start stop) :
    x ≤ stop ∧ (x = start ∨ start < x ∧ x % 64 = 0) := by
  obtain ⟨hx, hcase⟩ := mem_wordsFrom h
  exact ⟨hx, hcase.imp_right fun hc => ⟨hc.1, hc.2 (Or.inl rfl)⟩⟩

/-- What the probes of a zone look like. -/
theorem mem_zoneProbes {number : BitVec 32} {i : ℕ} (h : q ∈ zoneProbes s number i) :
    q.i = i ∧ ¬ (s.zones i).pageFreeCnt < number.signExtend 64 ∧
      q.j ∈ words (s.zones i).startPage (s.zones i).endPage ∧
      q.j % 64 ≤ q.k ∧ q.k < 64 - q.j % 64 := by
  unfold zoneProbes at h
  split at h
  · exact absurd h List.not_mem_nil
  · next hcnt =>
    obtain ⟨j, hj, hq⟩ := List.mem_flatMap.mp h
    obtain ⟨k, hk, rfl⟩ := List.mem_map.mp hq
    rw [List.mem_range'_1] at hk
    exact ⟨rfl, hcnt, hj, hk.1, by simp only; omega⟩

/-- The probe a call finds is one of a zone it searches, and it is clear. -/
theorem AllocCall.found_spec (h : c.found s = some q) :
    q.i ∈ zonesFrom (zoneRange s c.zoneSelect) ∧ q ∈ zoneProbes s c.number q.i ∧
      q.Clear s.bits c.number := by
  have hclear := List.find?_some h
  obtain ⟨i, hi, hq⟩ := List.mem_flatMap.mp (List.mem_of_find?_eq_some h)
  obtain rfl := (mem_zoneProbes hq).1
  exact ⟨hi, hq, by simpa using hclear⟩

/-- The pages of a zone fit an address, and so do the probes made for it. -/
theorem lt_of_mem_zoneProbes {number : BitVec 32} {i : ℕ} (h : q ∈ zoneProbes s number i) :
    q.j < 2 ^ 43 ∧ q.k < 64 := by
  obtain ⟨-, -, hj, -, hk⟩ := mem_zoneProbes h
  exact ⟨lt_of_le_of_lt (mem_words hj).1 (pageNo_lt _), by omega⟩

/-- **The pages taken are not the bits tested.**  They lie `j % 64 - 1` places further on. -/
theorem Probe.page_add_one (h : 0 < q.j + q.k) (hj : q.j < 2 ^ 43) (hk : q.k < 64) :
    q.page + 1 = q.tested + q.j % 64 := by
  unfold Probe.page Probe.tested
  omega

end Memory
end OSLib
