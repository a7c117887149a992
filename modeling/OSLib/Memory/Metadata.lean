import OSLib.Memory.Agree
import OSLib.Memory.FreeCount
import OSLib.Memory.Search

/-!
# `alloc_pages` and the memory behind its arrays

The three arrays end: the bitmap after `bits_len` bytes, the page structs after `pages_size`, the
zone structs after `zones_size`.  A call may read on.  Every test reads the word after the one it is
about, the word loop visits the page after a zone's last one, and the zone loop takes its bounds
unchecked.

`dependsOnMetadata_iff` says for each state which calls are safe from this: their result and what
they change is the same in every memory that agrees with the state on the three arrays exactly when
the bitmap decides every look that the search could come to (`SearchSettled`), and the page structs
taken are of the array (`PagesSettled`).

## Settled looks

The condition is one on the places of the state.  A look is decided when it meets a set bit of the
bitmap, or when it belongs to a zone of the array and reads nothing behind the bitmap; and it does
not matter when a look before it is known to succeed.  A zone struct behind the array could describe
any pages, so for such a zone every bit is a place the search could look at.

## The proof

Both directions compare runs.  If the looks are decided, the lowest run of every memory with the
metadata is known from these alone, and `AgreeOn.pageInits` applies to the page structs.  For the
converse `MemState.openAt` and `MemState.shut` put chosen memory behind the arrays: in the one the
search sees wherever the bitmap does not block it, in the other only what the metadata say.
-/

namespace OSLib
namespace Memory

variable {s s' t t' : MemState} {c : AllocCall} {q : Probe} {number : BitVec 32} {i b x page : ℕ}

/-! ## Memories with the same metadata -/

/-- The two memories hold the same bitmap words below `bits_len`, the same `pages_size` page structs
and the same `zones_size` zone structs. -/
def SameMetadata (s s' : MemState) : Prop :=
  AgreeOn (· < s.desc.bitsLen / 8) (· < s.desc.pagesSize) (· < s.desc.zonesSize) s s'

/-- Wherever the memories held the same, they do so after the call. -/
def ChangedAlike (s s' t t' : MemState) : Prop :=
  AgreeOn (fun v => s'.bits v = s.bits v) (fun x => s'.pages x = s.pages x)
    (fun z => s'.zones z = s.zones z) t t'

/-- The results of a call made in two memories are the same, and so are the changes. -/
def SameResult (s s' : MemState) : AllocResult → AllocResult → Prop
  | .null, .null => True
  | .pages page t, .pages page' t' => page' = page ∧ ChangedAlike s s' t t'
  | .fault, .fault => True
  | .hang, .hang => True
  | _, _ => False

theorem SameMetadata.changedAlike (h : SameMetadata s s') : ChangedAlike s s' s s' where
  desc := h.desc
  gZoneDma := h.gZoneDma
  gZoneNormal := h.gZoneNormal
  gZoneUnmapped := h.gZoneUnmapped
  lowMapped := h.lowMapped
  bits _ hv := hv
  pages _ hx := hx
  zones _ hz := hz

theorem SameMetadata.zoneRange_eq (h : SameMetadata s s') (zoneSelect : BitVec 32) :
    zoneRange s' zoneSelect = zoneRange s zoneSelect := by
  unfold zoneRange
  rw [h.desc, h.gZoneDma, h.gZoneNormal, h.gZoneUnmapped]

/-- The memory with something else behind the three arrays. -/
def MemState.behind (s : MemState) (bits : Bitmap) (pages : ℕ → Page) (zones : ℕ → Zone) :
    MemState :=
  { s with
    bits := fun v => if v < s.desc.bitsLen / 8 then s.bits v else bits v
    pages := fun x => if x < s.desc.pagesSize then s.pages x else pages x
    zones := fun z => if z < s.desc.zonesSize then s.zones z else zones z }

theorem sameMetadata_behind (s : MemState) (bits : Bitmap) (pages : ℕ → Page) (zones : ℕ → Zone) :
    SameMetadata s (s.behind bits pages zones) where
  desc := rfl
  gZoneDma := rfl
  gZoneNormal := rfl
  gZoneUnmapped := rfl
  lowMapped := rfl
  bits _ hv := if_pos hv
  pages _ hx := if_pos hx
  zones _ hz := if_pos hz

/-! ## Settled looks -/

/-- A look at bit `b`, for `n` pages, reads bit `x`. -/
def Reads (n b x : ℕ) : Prop := ∃ l < n, x = b + l ∨ b % 64 = 0 ∧ x = 64 * (b / 64 + 1) + l

theorem clearAt_iff_reads {m : Bitmap} {n : ℕ} :
    ClearAt m n (b / 64) (b % 64) ↔ ∀ x, Reads n b x → m.bit x = false := by
  unfold ClearAt
  rw [Nat.div_add_mod]
  constructor
  · rintro ⟨hfirst, hnext⟩ x ⟨l, hl, rfl | ⟨hb, rfl⟩⟩
    · exact hfirst l hl
    · exact hnext hb l hl
  · intro h
    exact ⟨fun l hl => h _ ⟨l, hl, .inl rfl⟩, fun hb l hl => h _ ⟨l, hl, .inr ⟨hb, rfl⟩⟩⟩

/-- The look meets a set bit of the bitmap, so that it fails whatever lies behind. -/
def BlockedAt (s : MemState) (number : BitVec 32) (b : ℕ) : Prop :=
  ∃ x, Reads (Bitmap.maskBits number.toNat) b x ∧ x / 64 < s.desc.bitsLen / 8 ∧
    s.bits.bit x = true

/-- The look reads nothing behind the bitmap. -/
def InsideAt (s : MemState) (number : BitVec 32) (b : ℕ) : Prop :=
  ∀ x, Reads (Bitmap.maskBits number.toNat) b x → x / 64 < s.desc.bitsLen / 8

/-- The look at bit `b` for zone `i` succeeds, and the metadata alone say so. -/
def KnownSees (s : MemState) (number : BitVec 32) (i b : ℕ) : Prop :=
  i < s.desc.zonesSize ∧ InsideAt s number b ∧ (s.zones i).SeesAt s.bits number b

/-- The search could look at bit `b` for zone `i`, as far as the metadata tell: a zone struct behind
the array could describe any pages. -/
def MayLook (s : MemState) (number : BitVec 32) (i b : ℕ) : Prop :=
  if i < s.desc.zonesSize then (s.zones i).HasFree number ∧ (s.zones i).LooksAt (b / 64) (b % 64)
  else b < 2 ^ 43

theorem SameMetadata.bit_eq (h : SameMetadata s s') (hx : x / 64 < s.desc.bitsLen / 8) :
    s'.bits.bit x = s.bits.bit x := by
  unfold Bitmap.bit
  rw [h.bits _ hx]

/-- What the metadata alone say is so in every memory with them. -/
theorem KnownSees.seesAt (h : KnownSees s number i b) (hs : SameMetadata s s') :
    (s'.zones i).SeesAt s'.bits number b := by
  obtain ⟨hi, hinside, hfree, hlooks, hclear⟩ := h
  rw [hs.zones i hi]
  refine ⟨hfree, hlooks, ?_⟩
  rw [clearAt_iff_reads] at hclear ⊢
  intro x hx
  rw [hs.bit_eq (hinside x hx)]
  exact hclear x hx

/-- A look that succeeds in one memory with the metadata is one that the search could make, and
nothing blocks it. -/
theorem SameMetadata.mayLook (hs : SameMetadata s s') (h : (s'.zones i).SeesAt s'.bits number b) :
    MayLook s number i b ∧ ¬ BlockedAt s number b := by
  obtain ⟨hfree, hlooks, hclear⟩ := h
  constructor
  · unfold MayLook
    split
    · next hi =>
      rw [hs.zones i hi] at hfree hlooks
      exact ⟨hfree, hlooks⟩
    · have hstart : (s'.zones i).startPage < 2 ^ 43 := pageNo_lt _
      have hend : (s'.zones i).endPage < 2 ^ 43 := pageNo_lt _
      unfold Zone.LooksAt at hlooks
      omega
  · rintro ⟨x, hx, hin, hset⟩
    have hfalse := clearAt_iff_reads.mp hclear x hx
    rw [hs.bit_eq hin, hset] at hfalse
    exact Bool.noConfusion hfalse

/-! ## Two kinds of memory behind the arrays -/

/-- A zone struct behind the array: it starts and ends at page `64 * w`, and has the given number of
free pages. -/
def wordZone (w : ℕ) (pageFreeCnt : BitVec 64) : Zone :=
  ⟨0, 0, pageAddr (64 * w), pageAddr (64 * w), 0, 0, 0, pageFreeCnt, 0⟩

/-- Memory behind the arrays that lets the search see everywhere: clear words, and zones of the word
of bit `b`. -/
def MemState.openAt (s : MemState) (b : ℕ) : MemState :=
  s.behind (fun _ => 0) s.pages fun _ => wordZone (b / 64) (-1)

/-- Memory behind the arrays that lets the search see nothing: words in use, and zones without free
pages. -/
def MemState.shut (s : MemState) : MemState :=
  s.behind (fun _ => BitVec.allOnes 64) s.pages fun _ => wordZone 0 0

theorem toNat_signExtend (h64 : number.toNat ≤ 64) :
    (number.signExtend 64).toNat = number.toNat :=
  AllocCall.count_eq (c := ⟨0, number, 0⟩) (by show number.toNat < _; omega)

/-- A look that the search could make and nothing blocks succeeds in open memory. -/
theorem seesAt_openAt (hmay : MayLook s number i b) (h64 : number.toNat ≤ 64)
    (hblocked : ¬ BlockedAt s number b) :
    ((s.openAt b).zones i).SeesAt (s.openAt b).bits number b := by
  have hclear : ClearAt (s.openAt b).bits (Bitmap.maskBits number.toNat) (b / 64) (b % 64) := by
    rw [clearAt_iff_reads]
    intro x hx
    by_cases hin : x / 64 < s.desc.bitsLen / 8
    · rw [MemState.openAt, (sameMetadata_behind ..).bit_eq hin]
      by_contra hset
      exact hblocked ⟨x, hx, hin, (Bool.not_eq_false _).mp hset⟩
    · show (ite _ _ _ : BitVec 64).getLsbD _ = false
      rw [if_neg hin]
      exact BitVec.getLsbD_zero
  unfold MayLook at hmay
  split at hmay
  · next hi =>
    have hzone : (s.openAt b).zones i = s.zones i := if_pos hi
    rw [hzone]
    exact ⟨hmay.1, hmay.2, hclear⟩
  · next hi =>
    have hzone : (s.openAt b).zones i = wordZone (b / 64) (-1) := if_neg hi
    have hpage : pageNo (pageAddr (64 * (b / 64))) = 64 * (b / 64) := pageNo_pageAddr (by omega)
    have hstart : (wordZone (b / 64) (-1)).startPage = 64 * (b / 64) := hpage
    have hend : (wordZone (b / 64) (-1)).endPage = 64 * (b / 64) := hpage
    rw [hzone]
    refine ⟨?_, .inl ⟨?_, ?_, ?_, ?_⟩, hclear⟩
    · show ¬ (-1 : BitVec 64) < number.signExtend 64
      rw [BitVec.lt_def, toNat_signExtend h64, show (-1 : BitVec 64).toNat = 2 ^ 64 - 1 by decide]
      omega
    · rw [hstart, Nat.mul_div_cancel_left _ (by decide : 0 < 64)]
    · rw [hstart, hend]
    · rw [hstart, Nat.mul_mod_right]
      exact Nat.zero_le _
    · rw [hstart, Nat.mul_mod_right]
      exact Nat.mod_lt b (by decide)

/-- A look that succeeds in shut memory does so by the metadata alone. -/
theorem knownSees_of_shut (h1 : 1 ≤ number.toNat) (h64 : number.toNat ≤ 64)
    (h : (s.shut.zones i).SeesAt s.shut.bits number b) : KnownSees s number i b := by
  obtain ⟨hfree, hlooks, hclear⟩ := h
  have hi : i < s.desc.zonesSize := by
    by_contra hge
    have hzone : s.shut.zones i = wordZone 0 0 := if_neg hge
    rw [hzone] at hfree
    refine hfree ?_
    show (0 : BitVec 64) < number.signExtend 64
    rw [BitVec.lt_def, toNat_signExtend h64]
    exact h1
  have hinside : InsideAt s number b := by
    intro x hx
    by_contra hout
    have hfalse : (ite _ _ _ : BitVec 64).getLsbD (x % 64) = false :=
      clearAt_iff_reads.mp hclear x hx
    rw [if_neg hout, BitVec.getLsbD_allOnes, decide_eq_true (Nat.mod_lt x (by decide))] at hfalse
    exact Bool.noConfusion hfalse
  have hzone : s.shut.zones i = s.zones i := if_pos hi
  rw [hzone] at hfree hlooks
  refine ⟨hi, hinside, hfree, hlooks, ?_⟩
  rw [clearAt_iff_reads] at hclear ⊢
  intro x hx
  have hfalse := hclear x hx
  rwa [MemState.shut, (sameMetadata_behind ..).bit_eq (hinside x hx)] at hfalse

/-! ## Calls -/

namespace AllocCall

/-- The metadata alone say that a look before the one at bit `b` for zone `i` succeeds. -/
def Preceded (c : AllocCall) (s : MemState) (i b : ℕ) : Prop :=
  ∃ j a, ZoneIn (zoneRange s c.zoneSelect) j ∧
    (ZoneBefore (zoneRange s c.zoneSelect) j i ∨ j = i ∧ a < b) ∧ KnownSees s c.number j a

/-- **The bitmap decides every look that the search could come to.**  It meets a set bit of the
bitmap, or is one for a zone of the array and reads nothing behind the bitmap, or one before it is
known to succeed. -/
def SearchSettled (c : AllocCall) (s : MemState) : Prop :=
  ∀ i b, ZoneIn (zoneRange s c.zoneSelect) i → MayLook s c.number i b →
    BlockedAt s c.number b ∨ i < s.desc.zonesSize ∧ InsideAt s c.number b ∨ c.Preceded s i b

/-- The page structs of the lowest run, moved, are below `pages_size`, or `page_init` faults at one
of them that is. -/
def PagesSettled (c : AllocCall) (s : MemState) : Prop :=
  ∀ i b, c.LowestRun s i b →
    (∀ l < c.count, (s.zones i).moved b l < s.desc.pagesSize) ∨
      ∃ l < c.count, (s.zones i).moved b l < s.desc.pagesSize ∧
        Faults s c.pageFlags ((s.zones i).moved b l)

/-- In a settled search the lowest run is known to be clear. -/
theorem SearchSettled.knownSees (h : c.SearchSettled s) (hs : SameMetadata s s')
    (hrun : c.LowestRun s' i b) : KnownSees s c.number i b := by
  have hzone := hrun.zone
  rw [hs.zoneRange_eq] at hzone
  obtain ⟨hmay, hblocked⟩ := hs.mayLook hrun.sees
  rcases h i b hzone hmay with hset | ⟨hi, hinside⟩ | ⟨j, a, hj, hbefore, hknown⟩
  · exact absurd hset hblocked
  · have hsees := hrun.sees
    rw [Zone.SeesAt, hs.zones i hi, clearAt_iff_reads] at hsees
    refine ⟨hi, hinside, hsees.1, hsees.2.1, clearAt_iff_reads.mpr fun x hx => ?_⟩
    rw [← hs.bit_eq (hinside x hx)]
    exact hsees.2.2 x hx
  · -- the look before it would succeed in the other memory too
    have hsees := hknown.seesAt hs
    rw [← hs.zoneRange_eq c.zoneSelect] at hj hbefore
    rcases hbefore with hlt | ⟨rfl, hlt⟩
    · exact absurd hsees (hrun.earlier j hj hlt a)
    · exact absurd hsees (hrun.lower a hlt)

/-- What is found in the one memory is found in the other. -/
theorem SearchSettled.found_eq_some (h : c.SearchSettled s) {s₁ s₂ : MemState}
    (hs₁ : SameMetadata s s₁) (hs₂ : SameMetadata s s₂) (hq : c.found s₁ = some q) :
    c.found s₂ = some q := by
  have hrange : zoneRange s₂ c.zoneSelect = zoneRange s₁ c.zoneSelect :=
    (hs₂.zoneRange_eq _).trans (hs₁.zoneRange_eq _).symm
  have hrun₁ := lowestRun_of_found hq
  have hknown₁ := h.knownSees hs₁ hrun₁
  obtain ⟨q₂, hq₂⟩ : ∃ q₂, c.found s₂ = some q₂ :=
    exists_found (hrange ▸ hrun₁.zone) (hknown₁.seesAt hs₂)
  have hrun₂ := lowestRun_of_found hq₂
  have hknown₂ := h.knownSees hs₂ hrun₂
  obtain ⟨hi, hb⟩ := hrun₁.eq_of_seesAt hrun₂ hrange (hknown₂.seesAt hs₁) (hknown₁.seesAt hs₂)
  have hzone : s₂.zones q₂.i = s₁.zones q.i := by
    rw [← hi, hs₁.zones _ hknown₁.1, hs₂.zones _ hknown₁.1]
  rw [hq₂, eq_of_found hq hq₂ hi hb (congrArg Zone.startPage hzone).symm]

/-- **When the search finds the same** in all memories with this metadata. -/
theorem found_eq_iff (h1 : 1 ≤ c.number.toNat) (h64 : c.number.toNat ≤ 64) :
    (∀ s', SameMetadata s s' → c.found s' = c.found s) ↔ c.SearchSettled s := by
  constructor
  · intro hfound i b hzone hmay
    by_cases hblocked : BlockedAt s c.number b
    · exact .inl hblocked
    refine .inr ?_
    -- in open memory the look succeeds, and what is found there is found in shut memory too
    have hopen : SameMetadata s (s.openAt b) := sameMetadata_behind ..
    have hshut : SameMetadata s s.shut := sameMetadata_behind ..
    have hsees := seesAt_openAt hmay h64 hblocked
    have hzone' : ZoneIn (zoneRange (s.openAt b) c.zoneSelect) i := by
      rwa [hopen.zoneRange_eq]
    obtain ⟨q, hq⟩ := exists_found hzone' hsees
    have hrun := lowestRun_of_found hq
    have hq' : c.found s.shut = some q := (hfound _ hshut).trans ((hfound _ hopen).symm.trans hq)
    have hknown := knownSees_of_shut h1 h64 (lowestRun_of_found hq').sees
    have hq_zone := hrun.zone
    rcases hrun.not_after hzone' hsees with hbefore | ⟨hi, hb⟩
    · rw [hopen.zoneRange_eq] at hq_zone hbefore
      exact .inr ⟨q.i, q.tested, hq_zone, hbefore, hknown⟩
    · rw [hi, hb] at hknown
      exact .inl ⟨hknown.1, hknown.2.1⟩
  · intro h s' hs
    have hself : SameMetadata s s := AgreeOn.refl _ _ _ s
    cases hq : c.found s with
    | some q => exact h.found_eq_some hself hs hq
    | none =>
      cases hq' : c.found s' with
      | none => rfl
      | some q =>
        rw [h.found_eq_some hs hself hq'] at hq
        exact nomatch hq

/-- The same in terms of the probe found. -/
theorem pagesSettled_iff : c.PagesSettled s ↔ ∀ q ∈ c.found s,
    (∀ p ∈ runFrom q.page c.count, p < s.desc.pagesSize) ∨
      ∃ p ∈ runFrom q.page c.count, p < s.desc.pagesSize ∧ Faults s c.pageFlags p := by
  refine forall_lowestRun.trans (forall_congr' fun q => imp_congr_right fun hq => ?_)
  obtain ⟨-, hprobe, -⟩ := found_spec hq
  rw [q.runFrom_page hprobe, List.forall_mem_map]
  simp only [List.mem_range, List.mem_map, exists_exists_and_eq_and]

end AllocCall

/-! ## The page structs taken -/

/-- One more element passes the second test. -/
theorem countP_lt_countP {p r : ℕ → Bool} {l : List ℕ} (h : ∀ x ∈ l, p x → r x) {a : ℕ} (ha : a ∈ l)
    (hr : r a = true) (hp : ¬ p a = true) : l.countP p < l.countP r := by
  obtain ⟨l₁, l₂, rfl⟩ := List.append_of_mem ha
  have h₁ : l₁.countP p ≤ l₁.countP r :=
    List.countP_mono_left fun x hx => h x (List.mem_append_left _ hx)
  have h₂ : l₂.countP p ≤ l₂.countP r :=
    List.countP_mono_left fun x hx => h x (List.mem_append_right _ (List.mem_cons_of_mem _ hx))
  rw [List.countP_append, List.countP_append, List.countP_cons, List.countP_cons, if_pos hr,
    if_neg hp]
  omega

/-- A page struct that points to the zone, of a free page. -/
def Page.ofZone (z : ℕ) : Page := { Page.zero with zoneStruct := some z }

/-- The memory with the given page struct all along behind the array. -/
def MemState.withPages (s : MemState) (pg : Page) : MemState :=
  s.behind s.bits (fun _ => pg) s.zones

theorem sameMetadata_withPages (s : MemState) (pg : Page) : SameMetadata s (s.withPages pg) :=
  sameMetadata_behind ..

theorem withPages_pages_of_le {pg : Page} {p : ℕ} (h : s.desc.pagesSize ≤ p) :
    (s.withPages pg).pages p = pg := if_neg (Nat.not_lt.mpr h)

theorem withPages_zones (s : MemState) (pg : Page) (z : ℕ) :
    (s.withPages pg).zones z = s.zones z := ite_self _

/-- A run that no page struct of the array makes fault does not fault when those behind it point to
a zone. -/
theorem exists_pageInits_withPages {ps : List ℕ} {flags : BitVec 64} (z : ℕ) (hnodup : ps.Nodup)
    (h : ∀ p ∈ ps, p < s.desc.pagesSize → ¬ Faults s flags p) :
    ∃ t, pageInits flags (s.withPages (Page.ofZone z)) ps = some t := by
  refine Option.ne_none_iff_exists'.mp fun hnone => ?_
  obtain ⟨p, hp, hfault⟩ := (pageInits_eq_none_iff hnodup).mp hnone
  rcases Nat.lt_or_ge p s.desc.pagesSize with hlt | hge
  · have hs := sameMetadata_withPages s (Page.ofZone z)
    exact h p hp hlt ((faults_congr (hs.pages p hlt) hs.lowMapped).mp hfault)
  · have hnull := hfault.1
    rw [withPages_pages_of_le hge] at hnull
    exact Option.some_ne_none _ hnull

/-- A run over page structs behind the array counts more references in a zone when they point to it
than when they point nowhere. -/
theorem countP_linksTo_lt {ps : List ℕ} (flags : BitVec 64) (z : ℕ) {p₀ : ℕ} (hp₀ : p₀ ∈ ps)
    (hge : s.desc.pagesSize ≤ p₀) :
    ps.countP (fun p => LinksTo (s.withPages Page.zero) flags z p) <
      ps.countP fun p => LinksTo (s.withPages (Page.ofZone z)) flags z p := by
  have hnull : ∀ p, s.desc.pagesSize ≤ p → ¬ LinksTo (s.withPages Page.zero) flags z p := by
    rintro p hp ⟨hzone, -⟩
    rw [withPages_pages_of_le hp] at hzone
    exact Option.some_ne_none _ hzone.symm
  refine countP_lt_countP (fun p _ hlink => ?_) hp₀ ?_ ?_
  · rw [decide_eq_true_eq] at hlink ⊢
    rcases Nat.lt_or_ge p s.desc.pagesSize with hp | hp
    · refine (linksTo_congr ?_).mpr hlink
      exact ((sameMetadata_withPages s _).pages p hp).trans
        ((sameMetadata_withPages s _).pages p hp).symm
    · exact absurd hlink (hnull p hp)
  · rw [decide_eq_true_eq]
    unfold LinksTo FollowsZone
    rw [withPages_pages_of_le hge]
    exact ⟨rfl, .inl rfl⟩
  · rw [decide_eq_true_eq]
    exact hnull p₀ hge

theorem SameResult.pages_left {r : AllocResult} (h : SameResult s s' (.pages page t) r) :
    ∃ t', r = .pages page t' ∧ ChangedAlike s s' t t' := by
  cases r with
  | pages page' t' =>
    obtain ⟨rfl, halike⟩ := h
    exact ⟨t', rfl, halike⟩
  | null => exact h.elim
  | fault => exact h.elim
  | hang => exact h.elim

theorem SameResult.pages_right {r : AllocResult} (h : SameResult s s' r (.pages page t')) :
    ∃ t, r = .pages page t ∧ ChangedAlike s s' t t' := by
  cases r with
  | pages page' t =>
    obtain ⟨rfl, halike⟩ := h
    exact ⟨t, rfl, halike⟩
  | null => exact h.elim
  | fault => exact h.elim
  | hang => exact h.elim

namespace AllocCall

/-- A call that has found a place. -/
theorem run_eq_of_found (h : c.found s = some q) :
    c.run s = match pageInits c.pageFlags s (runFrom q.page c.count) with
      | some t => .pages q.page t
      | none => .fault := by
  unfold run allocPages
  unfold found at h
  rw [h]
  rfl

theorem run_eq_of_found_none (h : c.found s = none) :
    c.run s = if (zoneRange s c.zoneSelect).2 = 2 ^ 64 - 1 then .hang else .null := by
  unfold run allocPages
  unfold found at h
  rw [h]

/-- Settled calls have the same result. -/
theorem sameResult (hs : SameMetadata s s') (hfound : c.found s' = c.found s)
    (hpages : c.PagesSettled s) : SameResult s s' (c.run s) (c.run s') := by
  cases hq : c.found s with
  | none =>
    rw [run_eq_of_found_none hq, run_eq_of_found_none (hfound.trans hq), hs.zoneRange_eq]
    split <;> trivial
  | some q =>
    rw [run_eq_of_found hq, run_eq_of_found (hfound.trans hq)]
    have hnodup : (runFrom q.page c.count).Nodup := nodup_runFrom (BitVec.isLt _).le
    rcases pagesSettled_iff.mp hpages q hq with hinside | ⟨p, hp, hlt, hfault⟩
    · have hshare : ∀ p ∈ runFrom q.page c.count, s'.pages p = s.pages p := fun p hp =>
        hs.pages p (hinside p hp)
      cases ht : pageInits c.pageFlags s (runFrom q.page c.count) with
      | some t =>
        obtain ⟨t', ht', halike⟩ := hs.changedAlike.pageInits hshare ht
        rw [ht']
        exact ⟨rfl, halike⟩
      | none =>
        have hnone : pageInits c.pageFlags s' (runFrom q.page c.count) = none := by
          rw [pageInits_eq_none_iff hnodup] at ht ⊢
          obtain ⟨p, hp, hfault⟩ := ht
          exact ⟨p, hp, (faults_congr (hshare p hp) hs.lowMapped).mpr hfault⟩
        rw [hnone]
        trivial
    · have hnone : pageInits c.pageFlags s (runFrom q.page c.count) = none :=
        (pageInits_eq_none_iff hnodup).mpr ⟨p, hp, hfault⟩
      have hnone' : pageInits c.pageFlags s' (runFrom q.page c.count) = none :=
        (pageInits_eq_none_iff hnodup).mpr
          ⟨p, hp, (faults_congr (hs.pages p hlt) hs.lowMapped).mpr hfault⟩
      rw [hnone, hnone']
      trivial

/-- **Page structs behind the array give a call away.**  If they point to zone 0 the call counts
more references there than if they point nowhere. -/
theorem pagesSettled (hrun : ∀ s', SameMetadata s s' → c.found s' = c.found s ∧
    SameResult s s' (c.run s) (c.run s')) : c.PagesSettled s := by
  refine pagesSettled_iff.mpr fun q hq => ?_
  by_contra hout
  rw [not_or] at hout
  obtain ⟨hout, hfault⟩ := hout
  push Not at hout hfault
  obtain ⟨p₀, hp₀, hge⟩ := hout
  have hnodup : (runFrom q.page c.count).Nodup := nodup_runFrom (BitVec.isLt _).le
  obtain ⟨hfound₁, hresult₁⟩ := hrun _ (sameMetadata_withPages s Page.zero)
  obtain ⟨hfound₂, hresult₂⟩ := hrun _ (sameMetadata_withPages s (Page.ofZone 0))
  -- all three calls return
  obtain ⟨t₂, ht₂⟩ := exists_pageInits_withPages 0 hnodup hfault
  rw [run_eq_of_found (hfound₂.trans hq), ht₂] at hresult₂
  obtain ⟨t, ht, halike₂⟩ := hresult₂.pages_right
  rw [ht] at hresult₁
  obtain ⟨t₁, hrun₁, halike₁⟩ := hresult₁.pages_left
  obtain ⟨q₁, hq₁, -, ht₁⟩ := run_eq_pages_iff.mp hrun₁
  obtain rfl : q₁ = q := Option.some.inj (hq₁.symm.trans (hfound₁.trans hq))
  -- and leave the same zone 0
  have hsame : t₁.zones 0 = t₂.zones 0 :=
    (halike₁.zones 0 (withPages_zones ..)).trans (halike₂.zones 0 (withPages_zones ..)).symm
  have hcount₁ := pageInits_totalPageLnk (z := 0) hnodup ht₁
  rw [hsame, pageInits_totalPageLnk hnodup ht₂, withPages_zones, withPages_zones] at hcount₁
  have hofNat := congrArg BitVec.toNat ((BitVec.add_right_inj _).mp hcount₁)
  have hlt := countP_linksTo_lt c.pageFlags 0 hp₀ hge
  have hlen : (runFrom q₁.page c.count).length < 2 ^ 64 := by
    rw [runFrom, List.length_map, List.length_range]
    exact BitVec.isLt _
  have hle := List.countP_le_length
    (p := fun p => decide (LinksTo (s.withPages (Page.ofZone 0)) c.pageFlags 0 p))
    (l := runFrom q₁.page c.count)
  rw [BitVec.toNat_ofNat, BitVec.toNat_ofNat, Nat.mod_eq_of_lt (by omega),
    Nat.mod_eq_of_lt (by omega)] at hofNat
  omega

/-- **The call depends on the metadata only.**  Called for 1 to 64 pages, it finds the same place in
every memory with this metadata, returns the same result and makes the same changes. -/
def DependsOnMetadata (c : AllocCall) (s : MemState) : Prop :=
  1 ≤ c.number.toNat → c.number.toNat ≤ 64 → ∀ s', SameMetadata s s' →
    c.found s' = c.found s ∧ SameResult s s' (c.run s) (c.run s')

/-- **When a call depends on the metadata only.** -/
theorem dependsOnMetadata_iff :
    c.DependsOnMetadata s ↔
      (1 ≤ c.number.toNat → c.number.toNat ≤ 64 → c.SearchSettled s ∧ c.PagesSettled s) := by
  refine forall_congr' fun h1 => forall_congr' fun h64 => ?_
  constructor
  · intro hrun
    exact ⟨(found_eq_iff h1 h64).mp fun s' hs => (hrun s' hs).1, pagesSettled hrun⟩
  · rintro ⟨hsearch, hpages⟩ s' hs
    have hfound := (found_eq_iff h1 h64).mpr hsearch s' hs
    exact ⟨hfound, sameResult hs hfound hpages⟩

end AllocCall

/-- A machine whose RAM ends at 128 MiB: the bitmap is one word, and `w` lies behind it.  Of the
pages 1 to 63 of the zone only the last one is free. -/
def edgeState (w : BitVec 64) : MemState where
  desc := { e820 := [⟨0x200000, 0x7e00000, ram⟩],
            bitsMap := 0, bitsSize := 64, bitsLen := 8, pagesStruct := 0, pagesSize := 64,
            pagesLen := 2560, zonesStruct := 0, zonesSize := 1, zonesLen := 80, endBrk := 0,
            endOfStruct := 0 }
  bits v := if v = 0 then 0x7fffffffffffffff else w
  pages x := if x = 63 then ⟨some 0, pageAddr 63, 0, 0, 0⟩ else ⟨some 0, pageAddr x, pgKernel, 1, 0⟩
  zones _ := ⟨1, 63, 0x200000, 0x8000000, 0x7e00000, 0, 62, 1, 62⟩
  gZoneDma := 0
  gZoneNormal := 0
  gZoneUnmapped := 0
  lowMapped := false

theorem edgeState_sameMetadata (w w' : BitVec 64) : SameMetadata (edgeState w) (edgeState w') where
  desc := rfl
  gZoneDma := rfl
  gZoneNormal := rfl
  gZoneUnmapped := rfl
  lowMapped := rfl
  bits v hv := by
    have hv : v < 8 / 8 := hv
    obtain rfl : v = 0 := by omega
    rfl
  pages _ _ := rfl
  zones _ _ := rfl

/-- **A word past `bits_len` decides a call.**  The word loop goes on to page 64, the page after the
zone's last one, and tests the word behind the bitmap: a call for one page returns a page or `NULL`,
as that word has it. -/
theorem edgeState_not_dependsOnMetadata :
    ¬ AllocCall.DependsOnMetadata ⟨zoneNormal, 1, pgKernel⟩ (edgeState (-1)) := by
  intro h
  have hfound := (h (by decide) (by decide) _ (edgeState_sameMetadata (-1) 0)).1
  revert hfound
  decide +kernel

end Memory
end OSLib
