import OSLib.Foundation.Bytes
import OSLib.Foundation.Emits
import OSLib.Foundation.Paging
import Mathlib.Data.BitVec

/-!
# The page tables of `boot.asm`

`set_up_page_tables` links the first entry of the P4 table to the P3 table, the first entry of that
to the P2 table, and fills the P2 table with pages of 2 MiB, one after the other.  It runs in 32-bit
mode and writes the low half of each entry; the high halves are zero because the tables lie in
`.bss`.  `setUpPageTables_maps` says what the tables map when the loop is done.

The loop counts in `ecx` and stores one entry a round; its invariant is that the entries below the
counter are those of the pages below it, and that the memory outside the tables is as it was.
`Start` runs the same routine on a processor with a stack and with flags; here it is the memory
before and after that matters.
-/

namespace OSLib
namespace RustOS

open Paging

/-! ## The code -/

/-- The registers `set_up_page_tables` uses, and memory. -/
structure Boot32 where
  eax : BitVec 32
  ecx : BitVec 32
  edx : BitVec 32
  mem : Bytes

/-- A store of 32 bits. -/
def put32 (m : Bytes) (a : ℕ) (v : BitVec 32) : Bytes := Bytes.apply m ⟨a, 4, Bytes.byteOf v⟩

/-- The labels of the routine, and its return. -/
inductive PageTablesLabel where
  | setUpPageTables | mapP2Table | ret
  deriving DecidableEq

/-- Where the linker put the tables. -/
structure Tables where
  p4Table : BitVec 32
  p3Table : BitVec 32
  p2Table : BitVec 32

namespace Tables

variable (t : Tables)

/-- `set_up_page_tables`, up to the loop. -/
def linkTables (s : Boot32) : Boot32 :=
  let eax := t.p3Table
  let eax := eax ||| 0b11
  let mem := put32 s.mem t.p4Table.toNat eax
  let eax := t.p2Table
  let eax := eax ||| 0b11
  let mem := put32 mem t.p3Table.toNat eax
  { s with eax := eax, ecx := 0, mem := mem }

/-- A round of `.map_p2_table`, up to the comparison. -/
def mapEntry (s : Boot32) : Boot32 :=
  let eax := 0x200000#32
  let product := eax.setWidth 64 * s.ecx.setWidth 64
  let edx := (product >>> 32).setWidth 32
  let eax := product.setWidth 32
  let eax := eax ||| 0b10000011
  let mem := put32 s.mem (t.p2Table + s.ecx * 8).toNat eax
  { eax := eax, ecx := s.ecx + 1, edx := edx, mem := mem }

/-- From one label to the next. -/
def pageTablesStep : PageTablesLabel × Boot32 → Option (PageTablesLabel × Boot32)
  | (.setUpPageTables, s) => some (.mapP2Table, t.linkTables s)
  | (.mapP2Table, s) =>
    some (if (t.mapEntry s).ecx ≠ 512 then .mapP2Table else .ret, t.mapEntry s)
  | (.ret, _) => none

end Tables

/-! ## Words -/

variable {m : Bytes} {a b : ℕ} {v : BitVec 32}

/-- A store into the low half of a word that is zero. -/
theorem word_put32 (h : m.word a 64 = 0) : (put32 m a v).word a 64 = v.setWidth 64 := by
  have hzero := (Bytes.word_eq_iff (n := 8)).mp h
  refine (Bytes.word_eq_iff (n := 8)).mpr fun o ho => ?_
  have hv := v.isLt
  have hset : (v.setWidth 64).toNat = v.toNat := by
    rw [BitVec.toNat_setWidth]
    omega
  rw [Bytes.byteOf, hset]
  by_cases hlow : o < 4
  · rw [put32, Bytes.apply_of_covers ⟨Nat.le_add_right a o, Nat.add_lt_add_left hlow a⟩,
      Nat.add_sub_cancel_left]
    rfl
  · have hout : ¬ (⟨a, 4, Bytes.byteOf v⟩ : Bytes.Write).Covers (a + o) := fun hcov =>
      hlow (Nat.lt_of_add_lt_add_left hcov.2)
    have hpow : 2 ^ 32 ≤ 256 ^ o := by
      calc 2 ^ 32 = 256 ^ 4 := rfl
        _ ≤ 256 ^ o := Nat.pow_le_pow_right (by decide) (by omega)
    rw [put32, Bytes.apply_of_not_covers hout, hzero o ho, Nat.div_eq_of_lt (by omega)]
    rw [Bytes.byteOf]
    exact congrArg (BitVec.ofNat 8) (Nat.zero_div _)

/-- A store elsewhere. -/
theorem word_put32_of_apart (h : a + 4 ≤ b ∨ b + 8 ≤ a) :
    (put32 m a v).word b 64 = m.word b 64 := by
  refine congrArg (BitVec.ofNat 64) (Bytes.leValue_congr fun o ho => ?_)
  refine Bytes.apply_of_not_covers fun hcov => ?_
  have hlow : a ≤ b + o := hcov.1
  have hhigh : b + o < a + 4 := hcov.2
  omega

/-! ## The loop -/

/-- The tables are page-aligned and distinct. -/
structure Tables.Placed (t : Tables) : Prop where
  p4_aligned : t.p4Table.toNat % 4096 = 0
  p3_aligned : t.p3Table.toNat % 4096 = 0
  p2_aligned : t.p2Table.toNat % 4096 = 0
  p4_ne_p3 : t.p4Table ≠ t.p3Table
  p4_ne_p2 : t.p4Table ≠ t.p2Table
  p3_ne_p2 : t.p3Table ≠ t.p2Table

/-- A page of `.bss`. -/
def ZeroPage (m : Bytes) (p : BitVec 32) : Prop := ∀ o < 4096, m (p.toNat + o) = 0

/-- The entry for a table. -/
def tableEntry (p : BitVec 32) : BitVec 64 := (p ||| 0b11).setWidth 64

/-- The entry for the page of 2 MiB with the number `k`. -/
def pageEntry (k : ℕ) : BitVec 64 := BitVec.ofNat 64 (2 ^ 21 * k + 0b10000011)

/-- The tables with the first `i` pages. -/
structure Tables.Mapped (t : Tables) (m : Bytes) (i : ℕ) : Prop where
  p4 : ∀ k < 512, m.word (t.p4Table.toNat + 8 * k) 64 = if k = 0 then tableEntry t.p3Table else 0
  p3 : ∀ k < 512, m.word (t.p3Table.toNat + 8 * k) 64 = if k = 0 then tableEntry t.p2Table else 0
  p2 : ∀ k < 512, m.word (t.p2Table.toNat + 8 * k) 64 = if k < i then pageEntry k else 0

variable {t : Tables} {s : Boot32} {i k l : ℕ} {p q : BitVec 32}

theorem word_of_zeroPage (h : ZeroPage m p) (hk : k < 512) : m.word (p.toNat + 8 * k) 64 = 0 := by
  refine (Bytes.word_eq_iff (n := 8)).mpr fun o ho => ?_
  rw [Nat.add_assoc, h _ (by omega), Bytes.byteOf]
  exact (congrArg (BitVec.ofNat 8) (Nat.zero_div _)).symm

/-- An entry is left alone by a store into another one. -/
theorem word_put32_of_ne (hp : p.toNat % 4096 = 0) (hq : q.toNat % 4096 = 0) (hk : k < 512)
    (hl : l < 512) (hne : p ≠ q ∨ k ≠ l) :
    (put32 m (p.toNat + 8 * k) v).word (q.toNat + 8 * l) 64 = m.word (q.toNat + 8 * l) 64 := by
  have hpages : p = q ∨ p.toNat ≠ q.toNat := by
    by_cases h : p = q
    · exact .inl h
    · exact .inr fun hnat => h (BitVec.eq_of_toNat_eq hnat)
  refine word_put32_of_apart ?_
  rcases hpages with rfl | hpages
  · have hkl : k ≠ l := hne.resolve_left fun h => h rfl
    omega
  · omega

/-- **Linking the tables.** -/
theorem mapped_linkTables (ht : t.Placed) (h4 : ZeroPage s.mem t.p4Table)
    (h3 : ZeroPage s.mem t.p3Table) (h2 : ZeroPage s.mem t.p2Table) :
    t.Mapped (t.linkTables s).mem 0 := by
  have hmem : (t.linkTables s).mem =
      put32 (put32 s.mem (t.p4Table.toNat + 8 * 0) (t.p3Table ||| 0b11)) (t.p3Table.toNat + 8 * 0)
        (t.p2Table ||| 0b11) := rfl
  rw [hmem]
  refine ⟨fun k hk => ?_, fun k hk => ?_, fun k hk => ?_⟩
  · rw [word_put32_of_ne ht.p3_aligned ht.p4_aligned (by decide) hk (.inl ht.p4_ne_p3.symm)]
    by_cases hk0 : k = 0
    · rw [if_pos hk0, hk0]
      exact word_put32 (word_of_zeroPage h4 (by decide))
    · rw [if_neg hk0, word_put32_of_ne ht.p4_aligned ht.p4_aligned (by decide) hk
        (.inr (Ne.symm hk0))]
      exact word_of_zeroPage h4 hk
  · have hold : (put32 s.mem (t.p4Table.toNat + 8 * 0) (t.p3Table ||| 0b11)).word
        (t.p3Table.toNat + 8 * k) 64 = 0 := by
      rw [word_put32_of_ne ht.p4_aligned ht.p3_aligned (by decide) hk (.inl ht.p4_ne_p3)]
      exact word_of_zeroPage h3 hk
    by_cases hk0 : k = 0
    · rw [if_pos hk0]
      rw [hk0] at hold ⊢
      exact word_put32 hold
    · rw [if_neg hk0, word_put32_of_ne ht.p3_aligned ht.p3_aligned (by decide) hk
        (.inr (Ne.symm hk0))]
      exact hold
  · rw [if_neg (Nat.not_lt_zero k),
      word_put32_of_ne ht.p3_aligned ht.p2_aligned (by decide) hk (.inl ht.p3_ne_p2),
      word_put32_of_ne ht.p4_aligned ht.p2_aligned (by decide) hk (.inl ht.p4_ne_p2)]
    exact word_of_zeroPage h2 hk

/-- **A round of the loop.** -/
theorem mapEntry_eq (ht : t.Placed) (hi : i < 512) (hecx : s.ecx = BitVec.ofNat 32 i) :
    (t.mapEntry s).ecx = BitVec.ofNat 32 (i + 1) ∧
      (t.mapEntry s).mem =
        put32 s.mem (t.p2Table.toNat + 8 * i) (BitVec.ofNat 32 (2 ^ 21 * i + 0b10000011)) := by
  have haligned := ht.p2_aligned
  have hlt := t.p2Table.isLt
  have hproduct : ((0x200000#32).setWidth 64 * (BitVec.ofNat 32 i).setWidth 64).setWidth 32 |||
      0b10000011 = BitVec.ofNat 32 (2 ^ 21 * i + 0b10000011) := by
    refine BitVec.eq_of_toNat_eq ?_
    have hor : 2 ^ 21 * i ||| 0b10000011 = 2 ^ 21 * i + 0b10000011 :=
      (Nat.two_pow_add_eq_or_of_lt (by decide) i).symm
    rw [BitVec.toNat_or, BitVec.toNat_setWidth, BitVec.toNat_mul, BitVec.toNat_setWidth,
      BitVec.toNat_setWidth, BitVec.toNat_ofNat, BitVec.toNat_ofNat, BitVec.toNat_ofNat,
      Nat.mod_eq_of_lt (by omega : 2 ^ 21 * i + 0b10000011 < 2 ^ 32), ← hor,
      Nat.mod_eq_of_lt (by omega : i < 2 ^ 32), Nat.mod_eq_of_lt (by omega : i < 2 ^ 64)]
    refine congrArg (· ||| 0b10000011) ?_
    show 0x200000 * i % 2 ^ 64 % 2 ^ 32 = 2 ^ 21 * i
    omega
  have haddr : (t.p2Table + BitVec.ofNat 32 i * 8).toNat = t.p2Table.toNat + 8 * i := by
    rw [BitVec.toNat_add, BitVec.toNat_mul, BitVec.toNat_ofNat]
    show (t.p2Table.toNat + i % 2 ^ 32 * 8 % 2 ^ 32) % 2 ^ 32 = _
    omega
  unfold Tables.mapEntry
  simp only [hecx, hproduct, haddr]
  exact ⟨(BitVec.ofNat_add i 1).symm, trivial⟩

/-- **One page more.** -/
theorem Tables.Mapped.mapEntry (h : t.Mapped s.mem i) (ht : t.Placed) (hi : i < 512)
    (hecx : s.ecx = BitVec.ofNat 32 i) : t.Mapped (t.mapEntry s).mem (i + 1) := by
  rw [(mapEntry_eq ht hi hecx).2]
  refine ⟨fun k hk => ?_, fun k hk => ?_, fun k hk => ?_⟩
  · rw [word_put32_of_ne ht.p2_aligned ht.p4_aligned hi hk (.inl ht.p4_ne_p2.symm)]
    exact h.p4 k hk
  · rw [word_put32_of_ne ht.p2_aligned ht.p3_aligned hi hk (.inl ht.p3_ne_p2.symm)]
    exact h.p3 k hk
  · by_cases hki : k = i
    · subst hki
      have hzero : s.mem.word (t.p2Table.toNat + 8 * k) 64 = 0 :=
        (h.p2 k hk).trans (if_neg (Nat.lt_irrefl k))
      rw [if_pos (Nat.lt_succ_self k), word_put32 hzero]
      refine BitVec.eq_of_toNat_eq ?_
      rw [pageEntry, BitVec.toNat_setWidth, BitVec.toNat_ofNat, BitVec.toNat_ofNat]
      omega
    · rw [word_put32_of_ne ht.p2_aligned ht.p2_aligned hi hk (.inr (Ne.symm hki)), h.p2 k hk]
      exact if_congr (by omega) rfl rfl

/-- **The loop fills the table.** -/
theorem mapP2Table_arrives (ht : t.Placed) {n : ℕ} (hn : i + n + 1 = 512)
    (hecx : s.ecx = BitVec.ofNat 32 i) (h : t.Mapped s.mem i) :
    ∃ s', Arrives t.pageTablesStep (.mapP2Table, s) (.ret, s') ∧ t.Mapped s'.mem 512 := by
  induction n generalizing i s with
  | zero =>
    obtain rfl : i = 511 := by omega
    have hend : (t.mapEntry s).ecx = 512 := (mapEntry_eq ht (by decide) hecx).1
    refine ⟨t.mapEntry s, Emits.silent ?_ rfl, h.mapEntry ht (by decide) hecx⟩
    rw [Tables.pageTablesStep, if_neg (not_not.mpr hend)]
  | succ n ih =>
    have hi : i < 512 := by omega
    have hnext := (mapEntry_eq ht hi hecx).1
    have hgoesOn : (t.mapEntry s).ecx ≠ 512 := by
      rw [hnext]
      intro heq
      have hnat := congrArg BitVec.toNat heq
      rw [BitVec.toNat_ofNat] at hnat
      have hval : (512 : BitVec 32).toNat = 512 := rfl
      omega
    obtain ⟨s', hrest, hmapped⟩ := ih (by omega) hnext (h.mapEntry ht hi hecx)
    refine ⟨s', Emits.trans (Emits.silent ?_ rfl) hrest, hmapped⟩
    rw [Tables.pageTablesStep, if_pos hgoesOn]

/-! ## The walk -/

/-- Physical memory by quadwords. -/
def quads (m : Bytes) : PhysMem := fun a => m.word a 64

/-- The entry for a page-aligned table. -/
theorem tableEntry_spec (hp : p.toNat % 4096 = 0) :
    Present (tableEntry p) ∧ Writable (tableEntry p) ∧ ¬ PageSize (tableEntry p) ∧
      Paging.frame 12 (tableEntry p) = p.toNat := by
  have hlt := p.isLt
  have hor : 2 ^ 12 * (p.toNat / 4096) ||| 0b11 = 2 ^ 12 * (p.toNat / 4096) + 0b11 :=
    (Nat.two_pow_add_eq_or_of_lt (by decide) _).symm
  have hnat : (tableEntry p).toNat = p.toNat + 3 := by
    rw [tableEntry, BitVec.toNat_setWidth, BitVec.toNat_or]
    show (p.toNat ||| 0b11) % 2 ^ 64 = _
    rw [show p.toNat = 2 ^ 12 * (p.toNat / 4096) by omega, hor]
    omega
  rw [present_iff, writable_iff, pageSize_iff, Paging.frame, hnat]
  omega

/-- The entry for a page. -/
theorem pageEntry_spec (hk : k < 512) :
    Present (pageEntry k) ∧ Writable (pageEntry k) ∧ PageSize (pageEntry k) ∧
      Paging.frame 21 (pageEntry k) = 2 ^ 21 * k := by
  have hnat : (pageEntry k).toNat = 2 ^ 21 * k + 0b10000011 := by
    rw [pageEntry, BitVec.toNat_ofNat]
    omega
  rw [present_iff, writable_iff, pageSize_iff, Paging.frame, hnat]
  omega

/-- An address below 1 GiB takes the first entries of the P4 and the P3 table. -/
theorem Tables.Mapped.mapsWritable (h : t.Mapped m 512) (ht : t.Placed) {va : BitVec 64}
    (hva : va.toNat < 2 ^ 30) : MapsWritable (quads m) t.p4Table.toNat va va.toNat := by
  have h4 : index 4 va = 0 := by
    simp only [index]
    omega
  have h3 : index 3 va = 0 := by
    simp only [index]
    omega
  have h2 : index 2 va < 512 := Nat.mod_lt _ (by decide)
  have e4 : entry (quads m) t.p4Table.toNat 4 va = tableEntry t.p3Table := by
    rw [entry, h4]
    exact h.p4 0 (by decide)
  have e3 : entry (quads m) t.p3Table.toNat 3 va = tableEntry t.p2Table := by
    rw [entry, h3]
    exact h.p3 0 (by decide)
  have e2 : entry (quads m) t.p2Table.toNat 2 va = pageEntry (index 2 va) :=
    (h.p2 _ h2).trans (if_pos h2)
  obtain ⟨p4, w4, s4, f4⟩ := tableEntry_spec ht.p3_aligned
  obtain ⟨p3, w3, s3, f3⟩ := tableEntry_spec ht.p2_aligned
  obtain ⟨p2, w2, s2, f2⟩ := pageEntry_spec h2
  constructor
  · rw [walk_of_canonical (.inl (by omega)), walkFrom_of_table (e4 ▸ p4) (e4 ▸ s4), e4, f4,
      walkFrom_of_table (e3 ▸ p3) (e3 ▸ s3), e3, f3, walkFrom_of_page2m (e2 ▸ p2) (e2 ▸ s2), e2, f2,
      index]
    exact congrArg some (by omega)
  · rw [entriesFrom_of_table (e4 ▸ p4) (e4 ▸ s4), e4, f4,
      entriesFrom_of_table (e3 ▸ p3) (e3 ▸ s3), e3, f3, entriesFrom_of_page2m (e2 ▸ s2), e2]
    rintro e he
    simp only [List.mem_cons, List.not_mem_nil, or_false] at he
    rcases he with rfl | rfl | rfl
    · exact w4
    · exact w3
    · exact w2

/-- An address further up misses one of them. -/
theorem Tables.Mapped.walk_eq_none (h : t.Mapped m 512) (ht : t.Placed) {va : BitVec 64}
    (hva : 2 ^ 30 ≤ va.toNat) : walk (quads m) t.p4Table.toNat va = none := by
  by_cases hcan : Canonical va
  · have hlt := va.isLt
    have hzero : ¬ Present 0 := by decide
    rw [walk_of_canonical hcan]
    by_cases h4 : index 4 va = 0
    · have e4 : entry (quads m) t.p4Table.toNat 4 va = tableEntry t.p3Table := by
        rw [entry, h4]
        exact h.p4 0 (by decide)
      have h3 : index 3 va ≠ 0 := by
        unfold Canonical at hcan
        simp only [index] at h4 ⊢
        omega
      have e3 : entry (quads m) t.p3Table.toNat 3 va = 0 :=
        (h.p3 _ (Nat.mod_lt _ (by decide))).trans (if_neg h3)
      obtain ⟨p4, -, s4, f4⟩ := tableEntry_spec ht.p3_aligned
      rw [walkFrom_of_table (e4 ▸ p4) (e4 ▸ s4), e4, f4, walkFrom_of_not_present (e3 ▸ hzero)]
    · have e4 : entry (quads m) t.p4Table.toNat 4 va = 0 :=
        (h.p4 _ (Nat.mod_lt _ (by decide))).trans (if_neg h4)
      exact walkFrom_of_not_present (e4 ▸ hzero)
  · exact walk_of_not_canonical hcan

/-- **What `set_up_page_tables` maps.**  The routine returns, and the walk from the P4 table then
takes every address below 1 GiB to itself, with the right to write, and no other address anywhere.
-/
theorem setUpPageTables_maps (ht : t.Placed) (h4 : ZeroPage s.mem t.p4Table)
    (h3 : ZeroPage s.mem t.p3Table) (h2 : ZeroPage s.mem t.p2Table) :
    ∃ s', Arrives t.pageTablesStep (.setUpPageTables, s) (.ret, s') ∧
      (∀ va : BitVec 64, va.toNat < 2 ^ 30 →
        MapsWritable (quads s'.mem) t.p4Table.toNat va va.toNat) ∧
      ∀ va : BitVec 64, Canonical va → 2 ^ 30 ≤ va.toNat →
        walk (quads s'.mem) t.p4Table.toNat va = none := by
  obtain ⟨s', hrun, hmapped⟩ := mapP2Table_arrives ht (n := 511) (i := 0) rfl rfl
    (mapped_linkTables ht h4 h3 h2)
  exact ⟨s', Emits.trans (Emits.silent rfl rfl) hrun, fun va => hmapped.mapsWritable ht,
    fun va _ => hmapped.walk_eq_none ht⟩

/-- Tables at 1 MiB in memory that is zero. -/
theorem zeroBss_maps :
    ∃ s', Arrives (Tables.pageTablesStep ⟨0x100000, 0x101000, 0x102000⟩)
        (.setUpPageTables, ⟨0, 0, 0, fun _ => 0⟩) (.ret, s') ∧
      (∀ va : BitVec 64, va.toNat < 2 ^ 30 →
        MapsWritable (quads s'.mem) 0x100000 va va.toNat) ∧
      ∀ va : BitVec 64, Canonical va → 2 ^ 30 ≤ va.toNat →
        walk (quads s'.mem) 0x100000 va = none :=
  setUpPageTables_maps (t := ⟨0x100000, 0x101000, 0x102000⟩)
    ⟨by decide, by decide, by decide, by decide, by decide, by decide⟩ (fun _ _ => rfl)
    (fun _ _ => rfl) fun _ _ => rfl

end RustOS
end OSLib
