import OSLib.Foundation.Bytes
import OSLib.Memory.Init

/-!
# The memory map between the loader and the kernel

`loader.asm` asks the BIOS for the memory map and has it written to `0x7e00`, 20 bytes an entry,
where kernel sectors were buffered before.  It stores neither a count nor a terminator.  Then it
asks for the VBE information, 512 bytes at `0x8000`, and for the video modes, 256 bytes each from
`0x8200` on.  `init_memory` later reads entries from `0x7e00` until the next one looks invalid.

`e820Scan_afterLoader_iff` says when the two agree: the VBE calls overwrite no byte of the table by
another one, and, unless the table is full, the 20 bytes behind it do not look like an entry.  For
up to 24 entries the first is always so, and the second is up to the old contents of the buffer.

The dialogue with the BIOS, the E820 calls and the calls for the video modes, is not run here.  What
is taken from it is where the results are written, which the code fixes, and the results are
arguments: the entries of the map, the old bytes of the buffer, and the answers of the VBE calls
with their number.  So the question is one about three lists of writes to overlapping places, and
the later one wins.
-/

namespace OSLib
namespace Loader

open Bytes Memory

/-! ## What the BIOS writes -/

/-- Byte `o` of an entry in memory: the packed struct `_E820`. -/
def entryByte (e : E820) (o : ℕ) : BitVec 8 :=
  if o < 8 then byteOf e.addr o else if o < 16 then byteOf e.len (o - 8) else byteOf e.type (o - 16)

/-- The calls of `Label_Get_Mem_Struct` for the entries the BIOS has, from `es:di` on: each writes
20 bytes and `di` moves on by 20, until the BIOS returns 0 in `ebx` with the last one. -/
def memStructWrites : ℕ → List E820 → List Write
  | _, [] => []
  | di, e :: es => ⟨di, 20, entryByte e⟩ :: memStructWrites ((di + 20) % 2 ^ 16) es

/-- The calls of `Label_SVGA_Mode_Info_Get`: a block of 256 bytes for each mode, at `es:di` with the
low half of `edi`. -/
def modeInfoWrites : ℕ → List Bytes → List Write
  | _, [] => []
  | edi, mode :: modes => ⟨edi % 2 ^ 16, 0x100, mode⟩ :: modeInfoWrites (edi + 0x100) modes

/-- The VBE calls: the information block, and the blocks of the modes. -/
def vbeWrites (info : Bytes) (modes : List Bytes) : List Write :=
  ⟨0x8000, 512, info⟩ :: modeInfoWrites 0x8200 modes

/-- Memory when the kernel starts, from what the earlier boot steps left. -/
def afterLoader (m : Bytes) (es : List E820) (info : Bytes) (modes : List Bytes) : Bytes :=
  applyAll (applyAll m (memStructWrites 0x7e00 es)) (vbeWrites info modes)

/-- Slot `i` of the table, as `init_memory` reads it through `0xffff800000007e00`. -/
def slotAt (m : Bytes) (i : ℕ) : E820 where
  addr := m.word (0x7e00 + 20 * i) 64
  len := m.word (0x7e00 + 20 * i + 8) 64
  type := m.word (0x7e00 + 20 * i + 16) 32

/-- Byte `o` of a table. -/
def tableByte (es : List E820) (o : ℕ) : Option (BitVec 8) :=
  es[o / 20]?.map fun e => entryByte e (o % 20)

variable {m info : Bytes} {modes : List Bytes} {es : List E820} {e : E820} {slots : ℕ → E820}
  {a di i n o : ℕ}

/-! ## Reading a slot -/

/-- A slot is an entry exactly when its 20 bytes are. -/
theorem slotAt_eq_iff :
    slotAt m i = e ↔ ∀ o < 20, m (0x7e00 + 20 * i + o) = entryByte e o := by
  have haddr : m.word (0x7e00 + 20 * i) 64 = e.addr ↔ _ := word_eq_iff (n := 8)
  have hlen : m.word (0x7e00 + 20 * i + 8) 64 = e.len ↔ _ := word_eq_iff (n := 8)
  have htype : m.word (0x7e00 + 20 * i + 16) 32 = e.type ↔ _ := word_eq_iff (n := 4)
  have hparts : slotAt m i = e ↔ m.word (0x7e00 + 20 * i) 64 = e.addr ∧
      m.word (0x7e00 + 20 * i + 8) 64 = e.len ∧ m.word (0x7e00 + 20 * i + 16) 32 = e.type := by
    obtain ⟨addr, len, type⟩ := e
    simp only [slotAt, E820.mk.injEq]
  rw [hparts, haddr, hlen, htype]
  constructor
  · rintro ⟨h1, h2, h3⟩ o ho
    unfold entryByte
    split
    · exact h1 o ‹_›
    · split
      · have h := h2 (o - 8) (by omega)
        rwa [show 0x7e00 + 20 * i + 8 + (o - 8) = 0x7e00 + 20 * i + o by omega] at h
      · have h := h3 (o - 16) (by omega)
        rwa [show 0x7e00 + 20 * i + 16 + (o - 16) = 0x7e00 + 20 * i + o by omega] at h
  · intro h
    refine ⟨fun o ho => ?_, fun o ho => ?_, fun o ho => ?_⟩
    · rw [h o (by omega), entryByte, if_pos ho]
    · rw [show 0x7e00 + 20 * i + 8 + o = 0x7e00 + 20 * i + (8 + o) by omega, h (8 + o) (by omega),
        entryByte, if_neg (by omega), if_pos (by omega), Nat.add_sub_cancel_left]
    · rw [show 0x7e00 + 20 * i + 16 + o = 0x7e00 + 20 * i + (16 + o) by omega,
        h (16 + o) (by omega), entryByte, if_neg (by omega), if_neg (by omega),
        Nat.add_sub_cancel_left]

/-- The first slots are a table exactly when their bytes are. -/
theorem slotAt_eq_table_iff :
    (∀ i e, es[i]? = some e → slotAt m i = e) ↔
      ∀ o < 20 * es.length, tableByte es o = some (m (0x7e00 + o)) := by
  constructor
  · intro h o ho
    have hi : o / 20 < es.length := by omega
    have he := List.getElem?_eq_getElem hi
    have hbyte := slotAt_eq_iff.mp (h _ _ he) (o % 20) (by omega)
    rw [show 0x7e00 + 20 * (o / 20) + o % 20 = 0x7e00 + o by omega] at hbyte
    rw [tableByte, he, hbyte]
    rfl
  · intro h i e he
    have hi : i < es.length := (List.getElem?_eq_some_iff.mp he).1
    refine slotAt_eq_iff.mpr fun o ho => ?_
    have hbyte := h (20 * i + o) (by omega)
    rw [tableByte, show (20 * i + o) / 20 = i by omega, show (20 * i + o) % 20 = o by omega, he,
      ← Nat.add_assoc] at hbyte
    exact (Option.some.inj hbyte).symm

/-! ## The scan -/

/-- **The scan finds a table of valid entries** exactly when the slots are its entries and it is
full or the slot behind it ends the scan. -/
theorem e820From_eq_iff (hne : es ≠ []) (hlen : es.length ≤ n) (hes : ∀ e ∈ es, ¬ e.Ends) :
    e820From slots n i = es ↔
      (∀ j e, es[j]? = some e → slots (i + j) = e) ∧
        (es.length = n ∨ (slots (i + es.length)).Ends) := by
  induction es generalizing n i with
  | nil => exact absurd rfl hne
  | cons e es ih =>
    obtain ⟨n, rfl⟩ : ∃ k, n = k + 1 := ⟨n - 1, by rw [List.length_cons] at hlen; omega⟩
    rw [List.length_cons] at hlen
    have hsucc : ∀ j, i + 1 + j = i + (j + 1) := by omega
    rw [e820From, List.cons.injEq]
    cases es with
    | nil =>
      have hrest : (if (slots (i + 1)).Ends then [] else e820From slots n (i + 1)) = [] ↔
          n = 0 ∨ (slots (i + 1)).Ends := by
        split
        · next hends => exact iff_of_true rfl (Or.inr hends)
        · next hends =>
          cases n with
          | zero => exact iff_of_true rfl (Or.inl rfl)
          | succ n => exact iff_of_false (e820From_ne_nil slots n (i + 1)) (by simp [hends])
      rw [hrest]
      refine and_congr ⟨fun h j e' he' => ?_, fun h => h 0 e rfl⟩ ?_
      · cases j with
        | zero => exact h.trans (Option.some.inj he')
        | succ j => exact absurd he' (by simp)
      · simp
    | cons e' es =>
      have hvalid : ¬ e'.Ends := hes e' (by simp)
      have hIH := ih (i := i + 1) (n := n) (by simp) (by omega)
        fun e'' he'' => hes e'' (List.mem_cons_of_mem _ he'')
      have hshift : (∀ j e'', (e :: e' :: es)[j]? = some e'' → slots (i + j) = e'') ↔
          slots i = e ∧ ∀ j e'', (e' :: es)[j]? = some e'' → slots (i + 1 + j) = e'' := by
        constructor
        · intro h
          exact ⟨h 0 e rfl, fun j e'' he'' => hsucc j ▸ h (j + 1) e'' he''⟩
        · rintro ⟨h0, h⟩ j e'' he''
          cases j with
          | zero => exact h0.trans (Option.some.inj he'')
          | succ j => exact hsucc j ▸ h j e'' he''
      rw [hshift, and_assoc, List.length_cons, ← hsucc (e' :: es).length,
        Nat.add_right_cancel_iff, ← hIH]
      refine and_congr_right fun _ => ⟨fun h => ?_, fun h => ?_⟩
      · split at h
        · exact absurd h (by simp)
        · exact h
      · -- the next slot is a valid entry, so the scan goes on
        have hnext := (hIH.mp h).1 0 e' rfl
        rw [Nat.add_zero] at hnext
        rw [hnext, if_neg hvalid]
        exact h

/-! ## The bytes of the table -/

/-- After the BIOS calls the bytes from `di` on are those of the table. -/
theorem applyAll_memStructWrites (hdi : di + 20 * es.length < 2 ^ 16) (ho : o < 20 * es.length) :
    tableByte es o = some (applyAll m (memStructWrites di es) (di + o)) := by
  induction es generalizing m di o with
  | nil => exact absurd ho (Nat.not_lt_zero o)
  | cons e es ih =>
    rw [List.length_cons] at hdi ho
    rw [memStructWrites, applyAll_cons, Nat.mod_eq_of_lt (by omega)]
    rcases Nat.lt_or_ge o 20 with hlt | hge
    · -- the first entry; the later writes lie behind it
      have hlater : ∀ (es : List E820) (di' : ℕ), di + o < di' →
          di' + 20 * es.length < 2 ^ 16 → written (memStructWrites di' es) (di + o) = none := by
        intro es
        induction es with
        | nil => exact fun _ _ _ => rfl
        | cons e' es ih' =>
          intro di' h1 h2
          rw [List.length_cons] at h2
          rw [memStructWrites, written, Nat.mod_eq_of_lt (by omega), ih' _ (by omega) (by omega),
            if_neg fun h => by have := h.1; simp only at this; omega]
          rfl
      rw [applyAll_eq, hlater es _ (by omega) (by omega), tableByte, Nat.div_eq_of_lt hlt,
        Nat.mod_eq_of_lt hlt, apply,
        if_pos (show Write.Covers _ _ from ⟨Nat.le_add_right _ _, Nat.add_lt_add_left hlt _⟩)]
      simp only [Nat.add_sub_cancel_left]
      rfl
    · have h : tableByte es (o - 20) = some (applyAll (apply m ⟨di, 20, entryByte e⟩)
          (memStructWrites (di + 20) es) (di + 20 + (o - 20))) := ih (by omega) (by omega)
      rw [show di + 20 + (o - 20) = di + o by omega] at h
      rw [← h, tableByte, tableByte, show o / 20 = (o - 20) / 20 + 1 by omega,
        show o % 20 = (o - 20) % 20 by omega, List.getElem?_cons_succ]

/-- The VBE calls leave the byte at offset `o` of the table as it should be. -/
def Undisturbed (info : Bytes) (modes : List Bytes) (es : List E820) (o : ℕ) : Prop :=
  ∀ v ∈ written (vbeWrites info modes) (0x7e00 + o), tableByte es o = some v

instance (info : Bytes) (modes : List Bytes) (es : List E820) (o : ℕ) :
    Decidable (Undisturbed info modes es o) := by
  unfold Undisturbed
  infer_instance

/-- The VBE calls write nothing from `0x7e00` up to `0x8000`, unless there are so many modes that
`di` comes round. -/
theorem written_vbeWrites (hmodes : modes.length ≤ 252) (h1 : 0x7e00 ≤ a) (h2 : a < 0x8000) :
    written (vbeWrites info modes) a = none := by
  have hmode : ∀ (modes : List Bytes) (edi : ℕ), edi % 0x100 = 0 → 0x8200 ≤ edi →
      edi + 0x100 * modes.length ≤ 0x17e00 → ∀ w ∈ modeInfoWrites edi modes, ¬ w.Covers a := by
    intro modes
    induction modes with
    | nil => exact fun _ _ _ _ w hw => absurd hw List.not_mem_nil
    | cons mode modes ih =>
      intro edi h0 hlow hhigh w hw
      rw [List.length_cons] at hhigh
      rcases List.mem_cons.mp hw with rfl | hw
      · rintro ⟨hc1, hc2⟩
        simp only at hc1 hc2
        omega
      · have hlow' : 0x8200 ≤ edi + 0x100 := Nat.le_add_right_of_le hlow
        exact ih (edi + 0x100) (by omega) hlow' (by omega) w hw
  refine written_eq_none fun w hw => ?_
  rcases List.mem_cons.mp hw with rfl | hw
  · rintro ⟨hc1, -⟩
    simp only at hc1
    omega
  · exact hmode modes 0x8200 (by omega) (by omega) (by omega) w hw

/-- The first 512 bytes are out of their reach. -/
theorem undisturbed_of_lt (hmodes : modes.length ≤ 252) (ho : o < 512) :
    Undisturbed info modes es o := by
  intro v hv
  rw [written_vbeWrites hmodes (by omega) (by omega)] at hv
  exact absurd hv (by simp)

theorem tableByte_afterLoader_iff (hlen : es.length ≤ 32) (ho : o < 20 * es.length) :
    tableByte es o = some (afterLoader m es info modes (0x7e00 + o)) ↔
      Undisturbed info modes es o := by
  have hloaded : tableByte es o = some (applyAll m (memStructWrites 0x7e00 es) (0x7e00 + o)) :=
    applyAll_memStructWrites (by omega) ho
  unfold Undisturbed
  rw [afterLoader, applyAll_eq]
  cases written (vbeWrites info modes) (0x7e00 + o) with
  | none => exact iff_of_true hloaded (by simp)
  | some v => simp

/-- The scan of the kernel, byte by byte. -/
theorem e820Scan_eq_iff (m info : Bytes) (modes : List Bytes) (hne : es ≠ [])
    (hlen : es.length ≤ 32) (hvalid : ∀ e ∈ es, ¬ e.Ends) :
    e820Scan (slotAt (afterLoader m es info modes)) = es ↔
      (∀ o < 20 * es.length, Undisturbed info modes es o) ∧
        (es.length = 32 ∨ (slotAt (afterLoader m es info modes) es.length).Ends) := by
  have hslots : (∀ i e, es[i]? = some e → slotAt (afterLoader m es info modes) i = e) ↔
      ∀ o < 20 * es.length, tableByte es o = some (afterLoader m es info modes (0x7e00 + o)) :=
    slotAt_eq_table_iff
  rw [e820Scan, e820From_eq_iff hne hlen hvalid]
  simp only [Nat.zero_add]
  rw [hslots]
  refine and_congr_left fun _ => forall₂_congr fun o ho => ?_
  exact tableByte_afterLoader_iff hlen ho

theorem not_ends (htype : 1 ≤ e.type.toNat ∧ e.type.toNat ≤ 4) (hpos : e.len ≠ 0) : ¬ e.Ends := by
  rintro (h | h | h)
  · rw [BitVec.lt_def, show acpiNvs.toNat = 4 from rfl] at h
    omega
  · exact hpos h
  · rw [BitVec.lt_def, show ram.toNat = 1 from rfl] at h
    omega

/-- **When loader and kernel agree on the memory map.**  For up to 32 entries with types 1 to 4 and
non-zero lengths, whatever the buffer held before and whatever the VBE calls write, `init_memory`
records exactly the entries of the BIOS if and only if the VBE calls leave every byte of the table
as it is and, unless there are 32 entries, the slot behind the last one ends the scan. -/
theorem e820Scan_afterLoader_iff (m info : Bytes) (modes : List Bytes) (hne : es ≠ [])
    (hlen : es.length ≤ 32) (htype : ∀ e ∈ es, 1 ≤ e.type.toNat ∧ e.type.toNat ≤ 4)
    (hpos : ∀ e ∈ es, e.len ≠ 0) :
    e820Scan (slotAt (afterLoader m es info modes)) = es ↔
      (∀ o < 20 * es.length, Undisturbed info modes es o) ∧
        (es.length = 32 ∨ (slotAt (afterLoader m es info modes) es.length).Ends) :=
  e820Scan_eq_iff m info modes hne hlen fun e he => not_ends (htype e he) (hpos e he)

/-- The low memory and 127 MiB above 1 MiB, in a buffer that held zeros. -/
theorem e820Scan_afterLoader_zero :
    e820Scan (slotAt (afterLoader (fun _ => 0)
      [⟨0, 0x9fc00, 1⟩, ⟨0x100000, 0x7f00000, 1⟩] (fun _ => 0) [])) =
        [⟨0, 0x9fc00, 1⟩, ⟨0x100000, 0x7f00000, 1⟩] := by
  refine (e820Scan_afterLoader_iff _ _ _ (by decide) (by decide) (by decide) (by decide)).mpr
    ⟨fun o ho => undisturbed_of_lt (by decide) (lt_trans ho (by decide)), Or.inr ?_⟩
  have hnext : slotAt (afterLoader (fun _ => 0)
      [⟨0, 0x9fc00, 1⟩, ⟨0x100000, 0x7f00000, 1⟩] (fun _ => 0) []) 2 = ⟨0, 0, 0⟩ :=
    slotAt_eq_iff.mpr (by decide +kernel)
  exact hnext ▸ Or.inr (Or.inl rfl)

/-- The bytes of a buffer whose second slot was left with length 1 and type 1. -/
def staleBuffer : Bytes := fun a => if a = 0x7e00 + 28 ∨ a = 0x7e00 + 36 then 1 else 0

/-- **A stale slot becomes memory.**  One entry of the BIOS in that buffer, and the kernel records
two. -/
theorem e820Scan_staleBuffer :
    e820Scan (slotAt (afterLoader staleBuffer [⟨0, 0x9fc00, 1⟩] (fun _ => 0) [])) =
        [⟨0, 0x9fc00, 1⟩, ⟨0, 1, 1⟩] ∧
      e820Scan (slotAt (afterLoader staleBuffer [⟨0, 0x9fc00, 1⟩] (fun _ => 0) [])) ≠
        [⟨0, 0x9fc00, 1⟩] := by
  have hslots : ∀ i e, [(⟨0, 0x9fc00, 1⟩ : E820), ⟨0, 1, 1⟩][i]? = some e →
      slotAt (afterLoader staleBuffer [⟨0, 0x9fc00, 1⟩] (fun _ => 0) []) i = e :=
    slotAt_eq_table_iff.mpr (by decide +kernel)
  have hnext : slotAt (afterLoader staleBuffer [⟨0, 0x9fc00, 1⟩] (fun _ => 0) []) 2 = ⟨0, 0, 0⟩ :=
    slotAt_eq_iff.mpr (by decide +kernel)
  have h : e820Scan (slotAt (afterLoader staleBuffer [⟨0, 0x9fc00, 1⟩] (fun _ => 0) [])) =
      [⟨0, 0x9fc00, 1⟩, ⟨0, 1, 1⟩] := by
    refine (e820From_eq_iff (by decide) (by decide) (by decide)).mpr ⟨fun i e he => ?_, Or.inr ?_⟩
    · rw [Nat.zero_add]
      exact hslots i e he
    · exact hnext ▸ Or.inr (Or.inl rfl)
  exact ⟨h, by rw [h]; decide⟩

/-! ## Short tables -/

end Loader
end OSLib
