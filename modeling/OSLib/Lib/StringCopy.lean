import OSLib.Lib.String
import OSLib.Lib.StringCompare

/-!
# `lib.h`: `strncpy` and `strcat`

Both copy bytes forward up to the NUL.  `strncpy` counts down what it may write, in the register
that `rep stosb` then pads with; `strcat` first scans its destination for the NUL.  A copy is right
as long as no byte of the source is overwritten before it is read.

Overlap is a question of what has been read when a byte is written.  Copying forward, a destination
at or before the source is harmless, and one behind it is harmless as long as it is behind every
byte that is still to be read.  The condition is therefore on the destination's address and the
number of bytes read, and not that the two blocks lie apart.

`Copied m src dst k` is the invariant of both loops: memory is as at the beginning but for the first
`k` bytes of the destination, which are those of the source as it was at the beginning.  That the
byte read next is still one of these is the hypothesis of the loop lemmas, and the condition on the
addresses is what discharges it.
-/

namespace OSLib
namespace Lib

open StringOps StringOps.Code

variable {m : Mem} {src dst a : BitVec 64} {bs ds : List (BitVec 8)} {s : Cpu} {text : Code}
  {pc p q k n : ℕ}

/-! ## Strings in memory -/

/-- The bytes of a string, and its NUL. -/
theorem CString.get (h : CString m a bs) {i : ℕ} (hi : i ≤ bs.length) :
    m (a + BitVec.ofNat 64 i) = (bs[i]?).getD 0 := by
  induction bs generalizing a i with
  | nil =>
    obtain rfl : i = 0 := Nat.le_zero.mp hi
    rw [Mem.add_ofNat_zero]
    exact h
  | cons b bs ih =>
    cases i with
    | zero =>
      rw [Mem.add_ofNat_zero]
      exact h.1
    | succ i =>
      rw [Mem.add_ofNat_succ, List.getElem?_cons_succ]
      exact ih h.2.2 (Nat.le_of_succ_le_succ hi)

theorem CString.ne_zero (h : CString m a bs) : (0 : BitVec 8) ∉ bs := by
  induction bs generalizing a with
  | nil => exact List.not_mem_nil
  | cons b bs ih =>
    rw [List.mem_cons, not_or]
    exact ⟨Ne.symm h.2.1, ih h.2.2⟩

/-- A string is its bytes. -/
theorem cString_of_get (hne : (0 : BitVec 8) ∉ bs)
    (h : ∀ i ≤ bs.length, m (a + BitVec.ofNat 64 i) = (bs[i]?).getD 0) : CString m a bs := by
  induction bs generalizing a with
  | nil =>
    have hzero := h 0 (Nat.le_refl 0)
    rw [Mem.add_ofNat_zero] at hzero
    exact hzero
  | cons b bs ih =>
    rw [List.mem_cons, not_or] at hne
    have hzero := h 0 (Nat.zero_le _)
    rw [Mem.add_ofNat_zero] at hzero
    refine ⟨hzero, Ne.symm hne.1, ih hne.2 fun i hi => ?_⟩
    have hsucc := h (i + 1) (Nat.succ_le_succ hi)
    rwa [Mem.add_ofNat_succ, List.getElem?_cons_succ] at hsucc

theorem CString.stringAt (h : CString m a bs) (hlt : bs.length + 1 < 2 ^ 32) : StringAt m a bs where
  length_lt := hlt
  get i hi := by rw [h.get hi.le, List.getElem?_eq_getElem hi, Option.getD_some]
  ne_zero := h.ne_zero
  nul := by rw [h.get (Nat.le_refl _), List.getElem?_eq_none (Nat.le_refl _), Option.getD_none]

/-! ## Scanning -/

theorem scasb_le (m : Mem) (n : ℕ) (a : BitVec 64) : scasb m n a ≤ n := by
  induction n generalizing a with
  | zero => exact Nat.le_refl 0
  | succ n ih =>
    rw [scasb]
    split
    · exact Nat.le_succ n
    · exact (ih (a + 1)).trans (Nat.le_succ n)

/-- What `repne scasb` leaves. -/
structure Scanned (s : Cpu) (n : ℕ) (t : Cpu) : Prop where
  rcx : t.rcx.toNat = scasb s.mem n s.rdi
  rdi : t.rdi = s.rdi + BitVec.ofNat 64 (n - scasb s.mem n s.rdi)
  rsi : t.rsi = s.rsi
  rax : t.rax = s.rax
  df : t.df = false
  mem : t.mem = s.mem

/-- **`repne scasb`** for a NUL. -/
theorem repne_scasb_arrives (hcode : text[pc]? = some (.repne .scasb)) (hdf : s.df = false)
    (hal : s.al = 0) (hn : s.rcx.toNat = n) :
    ∃ t, Arrives text.step (pc, s) (pc + 1, t) ∧ Scanned s n t := by
  induction n generalizing s with
  | zero =>
    have hzero : s.rcx = 0 := BitVec.eq_of_toNat_eq hn
    refine ⟨s, .single ((step_eq hcode).trans ?_), hn, (Mem.add_ofNat_zero _).symm, rfl, rfl, hdf,
      rfl⟩
    rw [exec, if_pos hzero]
  | succ n ih =>
    have hne : s.rcx ≠ 0 := by
      rintro hzero
      rw [hzero] at hn
      exact absurd hn (by simp)
    set u := s.round .scasb with hu
    have hrdi : u.rdi = s.rdi + 1 := congrArg (s.rdi + ·) (delta_one hdf)
    have hcount : u.rcx.toNat = n := by
      show (s.rcx - 1).toNat = n
      bv_omega
    have hzf : u.zf = decide (s.mem s.rdi = 0) := by
      show decide (s.al = s.mem s.rdi) = _
      rw [hal]
      exact decide_eq_decide.mpr eq_comm
    have hstep : text.step (pc, s) = some (if u.zf then pc + 1 else pc, u) := by
      rw [step_eq hcode, exec, if_neg hne]
    by_cases hzero : s.mem s.rdi = 0
    · rw [hzf, decide_eq_true hzero, if_pos rfl] at hstep
      have hscasb : scasb s.mem (n + 1) s.rdi = n := by rw [scasb, if_pos hzero]
      refine ⟨u, .single hstep, hcount.trans hscasb.symm, ?_, rfl, rfl, hdf, rfl⟩
      rw [hscasb, hrdi, Nat.add_sub_cancel_left]
      rfl
    · rw [hzf, decide_eq_false hzero, if_neg Bool.false_ne_true] at hstep
      obtain ⟨t, ht, h⟩ := ih (s := u) hdf hal hcount
      have hmem : u.mem = s.mem := rfl
      have hscasb : scasb s.mem (n + 1) s.rdi = scasb u.mem n u.rdi := by
        rw [scasb, if_neg hzero, hmem, hrdi]
      have hle := scasb_le u.mem n u.rdi
      refine ⟨t, .head hstep ht, h.rcx.trans hscasb.symm, ?_, h.rsi, h.rax, h.df, h.mem⟩
      rw [h.rdi, hscasb, Nat.sub_add_comm hle, Mem.add_ofNat_succ, ← hrdi]

/-! ## `strlen` -/

/-- The assembly of `strlen`. -/
def strlenText : Code := [.cld, .repne .scasb, .notEcx, .decEcx]

/-- Called for the string at `a`, the assembly comes to its end with the result `n` in `ecx`. -/
def StrlenReturns (m : Mem) (a : BitVec 64) (n : Int32) : Prop :=
  ∀ s : Cpu, s.mem = m → s.rdi = a → s.rcx = 0xffffffff → s.al = 0 →
    ∃ t, Arrives strlenText.step (0, s) (4, t) ∧ t.rcx.setWidth 32 = n.toBitVec ∧ t.mem = m

/-- **`strlen`** computes what is left of the count. -/
theorem strlen_arrives (m : Mem) (a : BitVec 64) : StrlenReturns m a (strlen m a) := by
  rintro s rfl hrdi hrcx hal
  set u : Cpu := { s with df := false } with hu
  have hcount : u.rcx.toNat = 0xffffffff := by
    show s.rcx.toNat = _
    rw [hrcx]
    rfl
  have hscan : ∃ t, Arrives strlenText.step (1, u) (2, t) ∧ Scanned u 0xffffffff t :=
    repne_scasb_arrives rfl rfl hal hcount
  obtain ⟨t, ht, h⟩ := hscan
  have hleft : t.rcx.setWidth 32 = BitVec.ofNat 32 (scasb s.mem 0xffffffff a) := by
    refine BitVec.eq_of_toNat_eq ?_
    rw [BitVec.toNat_setWidth, h.rcx, BitVec.toNat_ofNat, show u.rdi = a from hrdi]
  set v : Cpu := { t with rcx := (~~~t.rcx.setWidth 32).setWidth 64 } with hv
  have hnot : strlenText.step (2, t) = some (3, v) := rfl
  have hdec : strlenText.step (3, v) = some (4,
      { v.subFlags (v.rcx.setWidth 32) 1 with rcx := (v.rcx.setWidth 32 - 1).setWidth 64 }) := rfl
  have hrest : Arrives strlenText.step (2, t) (4, _) := .head hnot (.single hdec)
  refine ⟨_, .head rfl (ht.trans hrest), ?_, h.mem⟩
  show ((((~~~t.rcx.setWidth 32).setWidth 64).setWidth 32 - 1).setWidth 64).setWidth 32 = _
  rw [BitVec.setWidth_setWidth_of_le _ (by decide), BitVec.setWidth_setWidth_of_le _ (by decide),
    BitVec.setWidth_eq, BitVec.setWidth_eq, hleft]
  rfl

/-! ## Copying -/

/-- The state behind the copy of a byte. -/
structure ByteCopied (s t : Cpu) : Prop where
  al : t.al = s.mem s.rsi
  rsi : t.rsi = s.rsi + 1
  rdi : t.rdi = s.rdi + 1
  rcx : t.rcx = s.rcx
  df : t.df = false
  mem : t.mem = s.mem.moveBytes s.rsi s.rdi 1

/-- A byte of a word. -/
theorem storeBytes_one (m : Mem) (a v : BitVec 64) :
    m.storeBytes a 1 v = m.setBytes a 1 (v.setWidth 8) := by
  refine Mem.storeBytes_eq_setBytes fun o ho => ?_
  obtain rfl : o = 0 := by omega
  refine BitVec.eq_of_toNat_eq ?_
  rw [Bytes.byteOf, BitVec.toNat_ofNat, BitVec.toNat_setWidth, Nat.pow_zero, Nat.div_one]

/-- A block of one byte. -/
theorem moveBytes_one (m : Mem) (src dst : BitVec 64) :
    m.moveBytes src dst 1 = m.setBytes dst 1 (m src) := by
  funext b
  rw [Mem.moveBytes, Mem.setBytes]
  refine ite_congr rfl (fun hb => ?_) fun _ => rfl
  have hzero : b - dst = 0 := BitVec.eq_of_toNat_eq (Nat.lt_one_iff.mp hb)
  rw [hzero]
  exact congrArg m (BitVec.add_zero src)

/-- **A round of a copy**, which goes on at label 1 unless the byte is the NUL. -/
theorem copyByte_arrives (text : Code) (p : ℕ) (hlods : text[p]? = some (.string .lodsb))
    (hstos : text[p + 1]? = some (.string (.stos 1))) (htest : text[p + 2]? = some .testAl)
    (hloop : text[p + 3]? = some (.jcc .ne 1)) (hdf : s.df = false) :
    ∃ t, Arrives text.step (p, s) (if s.mem s.rsi ≠ 0 then text.target 1 else p + 4, t) ∧
      ByteCopied s t := by
  set u := s.string .lodsb with hu
  have hal : u.al = s.mem s.rsi := al_lodsb s
  set v := u.string (.stos 1) with hv
  set w := v.logicFlags v.al with hw
  have hjne : text.step (p + 3, w) = some (if w.holds .ne then text.target 1 else p + 4, w) :=
    step_eq hloop
  have hzero : w.holds .ne = decide (s.mem s.rsi ≠ 0) := by
    rw [← hal]
    show (!decide (u.al = 0)) = _
    rw [decide_not]
  rw [hzero] at hjne
  simp only [decide_eq_true_eq] at hjne
  refine ⟨w, .head (step_eq hlods) (.head (step_eq hstos) (.head (step_eq htest) (.single hjne))),
    hal, congrArg (s.rsi + ·) (delta_one hdf), congrArg (s.rdi + ·) (delta_one (s := u) hdf), rfl,
    hdf, ?_⟩
  show s.mem.storeBytes s.rdi 1 u.rax = _
  rw [storeBytes_one, moveBytes_one]
  exact congrArg _ hal

/-- A round goes on with a copy, if what it reads is not overwritten. -/
theorem Copied.byte {t : Cpu} (h : Copied m src dst k s) (ht : ByteCopied s t)
    (hk : k + 1 ≤ 2 ^ 64) (hread : k ≤ (src + BitVec.ofNat 64 k - dst).toNat) :
    Copied m src dst (k + 1) t ∧ s.mem s.rsi = m (src + BitVec.ofNat 64 k) := by
  refine ⟨⟨ht.df, ?_, ?_, ?_⟩, ?_⟩
  · rw [ht.rsi, h.rsi]
    exact Mem.add_ofNat_add src k 1
  · rw [ht.rdi, h.rdi]
    exact Mem.add_ofNat_add dst k 1
  · rw [ht.mem, h.mem, h.rsi, h.rdi]
    refine Mem.moveBytes_add hk fun j hj => ?_
    obtain rfl : j = 0 := by omega
    exact hread
  · rw [h.mem, h.rsi]
    exact if_neg (Nat.not_lt.mpr hread)

/-! ## `strncpy` -/

/-- The assembly of `strncpy`. -/
def strncpyText : Code :=
  [.cld, .label 1, .decRcx, .jcc .s 2, .string .lodsb, .string (.stos 1), .testAl, .jcc .ne 1,
    .rep (.stos 1), .label 2]

/-- The registers `strncpy(Dest, Src, Count)` loads. -/
structure StrncpyArgs (dest src count : BitVec 64) (s : Cpu) : Prop where
  rsi : s.rsi = src
  rdi : s.rdi = dest
  rcx : s.rcx = count

/-- **The padding.** -/
theorem strncpy_pad (hal : s.al = 0) (hdf : s.df = false) (hn : s.rcx.toNat = n) :
    ∃ t, Arrives strncpyText.step (8, s) (10, t) ∧ t.mem = s.mem.setBytes s.rdi n 0 := by
  have hrep : ∃ t, Arrives strncpyText.step (8, s) (9, t) ∧ (t.al = 0 ∧ t.df = false ∧
      t.rdi = s.rdi + BitVec.ofNat 64 n ∧ t.mem = s.mem.setBytes s.rdi n 0) ∧ t.rcx = 0 := by
    refine arrives_rep (I := fun k t => t.al = 0 ∧ t.df = false ∧
      t.rdi = s.rdi + BitVec.ofNat 64 k ∧ t.mem = s.mem.setBytes s.rdi k 0) rfl
      ⟨hal, hdf, (Mem.add_ofNat_zero _).symm, (Mem.setBytes_zero ..).symm⟩ hn ?_
    rintro k t hk ⟨hal', hdf', hrdi', hmem'⟩
    have hlt := s.rcx.isLt
    refine ⟨hal', hdf', ?_, ?_⟩
    · show t.rdi + t.delta 1 = _
      rw [hrdi', delta_of_df hdf', Mem.add_ofNat_add]
    · show t.mem.storeBytes t.rdi 1 t.rax = _
      rw [storeBytes_one, hmem', hrdi', show t.rax.setWidth 8 = 0 from hal',
        Mem.setBytes_add (by omega)]
  obtain ⟨t, ht, ⟨-, -, -, hmem⟩, -⟩ := hrep
  exact ⟨t, ht.trans (Arrives.single rfl), hmem⟩

/-- **The loop of `strncpy`**, from a state where `k` bytes are copied. -/
theorem strncpy_loop (h : Copied m src dst k s) (hbs : CString m (src + BitVec.ofNat 64 k) bs)
    (hn : s.rcx.toNat = n) (hn' : n < 2 ^ 63) (hk : k + n < 2 ^ 63)
    (hread : ∀ i, k ≤ i → i < k + min n (bs.length + 1) →
      i ≤ (src + BitVec.ofNat 64 i - dst).toNat) :
    ∃ t, Arrives strncpyText.step (1, s) (10, t) ∧
      t.mem = (m.moveBytes src dst (k + min n (bs.length + 1))).setBytes
        (dst + BitVec.ofNat 64 (k + min n (bs.length + 1))) (n - min n (bs.length + 1)) 0 := by
  induction n generalizing k s bs with
  | zero =>
    obtain ⟨t, ht, hdown⟩ := countDown_arrives [] strncpyText 2 2 rfl rfl (s := s) (by omega)
    rw [if_pos hn] at ht
    refine ⟨t, .head rfl ((arrives_of_stepIn ht).trans (Arrives.single rfl)), ?_⟩
    rw [Nat.zero_min, Nat.sub_zero, Mem.setBytes_zero, Nat.add_zero, hdown.mem, h.mem]
  | succ n ih =>
    obtain ⟨s', hcount, hdown⟩ := countDown_arrives [] strncpyText 2 2 rfl rfl (s := s) (by omega)
    rw [if_neg (by omega)] at hcount
    have hs' : Arrives strncpyText.step (1, s) (4, s') := .head rfl (arrives_of_stepIn hcount)
    have h' : Copied m src dst k s' := ⟨hdown.df.trans h.df, hdown.rsi.trans h.rsi,
      hdown.rdi.trans h.rdi, hdown.mem.trans h.mem⟩
    obtain ⟨t, ht, hbyte⟩ := copyByte_arrives strncpyText 4 rfl rfl rfl rfl h'.df
    obtain ⟨hcopied, hsrc⟩ := h'.byte hbyte (by omega) (hread k (Nat.le_refl k) (by omega))
    rw [hsrc] at ht
    have hleft : t.rcx.toNat = n := (congrArg _ hbyte.rcx).trans (hdown.rcx n hn)
    cases bs with
    | nil =>
      have hzero : m (src + BitVec.ofNat 64 k) = 0 := hbs
      rw [if_neg (not_not.mpr hzero)] at ht
      obtain ⟨u, hu, humem⟩ := strncpy_pad (hbyte.al.trans (hsrc.trans hzero)) hbyte.df hleft
      refine ⟨u, hs'.trans (ht.trans hu), ?_⟩
      rw [humem, hcopied.mem, hcopied.rdi, List.length_nil, Nat.min_eq_right (by omega),
        Nat.add_sub_cancel]
    | cons b bs =>
      have hne : m (src + BitVec.ofNat 64 k) ≠ 0 := by
        rw [hbs.1]
        exact hbs.2.1
      rw [if_pos hne] at ht
      have hmin : min (n + 1) ((b :: bs).length + 1) = min n (bs.length + 1) + 1 := by
        rw [List.length_cons, Nat.add_min_add_right]
      have hadd : k + 1 + min n (bs.length + 1) = k + min (n + 1) ((b :: bs).length + 1) := by
        rw [hmin]
        omega
      obtain ⟨u, hu, humem⟩ := ih hcopied (by rw [← Mem.add_ofNat_add]; exact hbs.2.2) hleft
        (by omega) (by omega) fun i hle hlt => hread i (Nat.le_of_succ_le hle) (by omega)
      refine ⟨u, hs'.trans (ht.trans hu), ?_⟩
      rw [humem, hadd, hmin, Nat.add_sub_add_right]

/-! ## `strcat` -/

/-- The assembly of `strcat`. -/
def strcatText : Code :=
  [.cld, .repne .scasb, .decRdi, .label 1, .string .lodsb, .string (.stos 1), .testAl, .jcc .ne 1]

/-- The registers `strcat(Dest, Src)` loads. -/
structure StrcatArgs (dest src : BitVec 64) (s : Cpu) : Prop where
  rsi : s.rsi = src
  rdi : s.rdi = dest
  eax : s.eax = 0
  rcx : s.rcx = 0xffffffff

/-- The scan stops behind the NUL, and one byte before is where the copy starts. -/
theorem strcat_scan (hs : StrcatArgs dst src s) (hds : CString s.mem dst ds)
    (hlt : ds.length < 2 ^ 31) :
    ∃ t, Arrives strcatText.step (0, s) (3, t) ∧
      Copied s.mem src (dst + BitVec.ofNat 64 ds.length) 0 t := by
  set u : Cpu := { s with df := false } with hu
  have hscan : ∃ t, Arrives strcatText.step (1, u) (2, t) ∧ Scanned u 0xffffffff t := by
    refine repne_scasb_arrives rfl rfl ?_ ?_
    · have hal : s.al = s.eax.setWidth 8 := (BitVec.setWidth_setWidth_of_le _ (by decide)).symm
      rw [show u.al = s.al from rfl, hal, hs.eax]
      rfl
    · rw [show u.rcx = 0xffffffff from hs.rcx]
      rfl
  obtain ⟨t, ht, h⟩ := hscan
  have hlen : scasb u.mem 0xffffffff u.rdi = 0xffffffff - (ds.length + 1) := by
    have hstring := hds.stringAt (by omega)
    rw [show u.rdi = dst from hs.rdi]
    exact scasb_of_stringAt hstring.get hstring.ne_zero hstring.nul (by omega)
  have hdec : Arrives strcatText.step (2, t) (3, { t.subFlags t.rdi 1 with rdi := t.rdi - 1 }) :=
    .single rfl
  refine ⟨_, .head rfl (ht.trans hdec), h.df,
    (h.rsi.trans hs.rsi).trans (Mem.add_ofNat_zero _).symm, ?_,
    h.mem.trans (Mem.moveBytes_zero ..).symm⟩
  show t.rdi - 1 = _
  rw [h.rdi, hlen, show u.rdi = dst from hs.rdi, Mem.add_ofNat_zero,
    show 0xffffffff - (0xffffffff - (ds.length + 1)) = ds.length + 1 by omega,
    Mem.add_ofNat_succ]
  ring

/-- **The loop of `strcat`**, from a state where `k` bytes are copied. -/
theorem strcat_loop (h : Copied m src dst k s) (hbs : CString m (src + BitVec.ofNat 64 k) bs)
    (hk : k + bs.length < 2 ^ 63)
    (hread : ∀ i, k ≤ i → i ≤ k + bs.length → i ≤ (src + BitVec.ofNat 64 i - dst).toNat) :
    ∃ t, Arrives strcatText.step (3, s) (8, t) ∧
      t.mem = m.moveBytes src dst (k + (bs.length + 1)) := by
  induction bs generalizing k s with
  | nil =>
    obtain ⟨t, ht, hbyte⟩ := copyByte_arrives strcatText 4 rfl rfl rfl rfl h.df
    obtain ⟨hcopied, hsrc⟩ := h.byte hbyte (by omega) (hread k (Nat.le_refl k) (by omega))
    have hzero : m (src + BitVec.ofNat 64 k) = 0 := hbs
    rw [hsrc, if_neg (not_not.mpr hzero)] at ht
    exact ⟨t, .head rfl ht, hcopied.mem⟩
  | cons b bs ih =>
    rw [List.length_cons] at hk hread
    obtain ⟨t, ht, hbyte⟩ := copyByte_arrives strcatText 4 rfl rfl rfl rfl h.df
    obtain ⟨hcopied, hsrc⟩ := h.byte hbyte (by omega) (hread k (Nat.le_refl k) (by omega))
    have hne : m (src + BitVec.ofNat 64 k) ≠ 0 := by
      rw [hbs.1]
      exact hbs.2.1
    rw [hsrc, if_pos hne] at ht
    obtain ⟨u, hu, humem⟩ := ih hcopied (by rw [← Mem.add_ofNat_add]; exact hbs.2.2) (by omega)
      fun i hle hlt => hread i (Nat.le_of_succ_le hle) (by omega)
    refine ⟨u, .head rfl (ht.trans hu), ?_⟩
    rw [humem, List.length_cons]
    exact congrArg _ (by omega)

/-! ## The results -/

/-- A copy forward overwrites nothing before it is read, unless its destination is a byte of the
source behind the first one. -/
theorem read_of_ne {c : ℕ}
    (h : ∀ i, 0 < i → i < c → dst ≠ src + BitVec.ofNat 64 i) {i : ℕ} (hi : i < c) :
    i ≤ (src + BitVec.ofNat 64 i - dst).toNat := by
  by_contra hlt
  set r := (src + BitVec.ofNat 64 i - dst).toNat with hr
  have hdst : dst + BitVec.ofNat 64 r = src + BitVec.ofNat 64 i := Mem.add_toNat_sub _ dst
  refine h (i - r) (by omega) (by omega) ?_
  have hsum : src + BitVec.ofNat 64 i = src + BitVec.ofNat 64 (i - r) + BitVec.ofNat 64 r := by
    rw [Mem.add_ofNat_add, Nat.sub_add_cancel (by omega)]
  exact add_right_cancel (hdst.trans hsum)

/-- `strncpy` writes the first bytes of the string, and zeros. -/
theorem writes_strncpy (h : CString m src bs) {c : ℕ} (hc : c < 2 ^ 63) :
    Mem.Writes m dst c (fun i => (bs[i]?).getD 0)
      ((m.moveBytes src dst (min c (bs.length + 1))).setBytes
        (dst + BitVec.ofNat 64 (min c (bs.length + 1))) (c - min c (bs.length + 1)) 0) := by
  have hmove := Mem.writes_moveBytes m src dst (n := min c (bs.length + 1)) (by omega)
  have hset := Mem.writes_setBytes (m.moveBytes src dst (min c (bs.length + 1)))
    (dst + BitVec.ofNat 64 (min c (bs.length + 1))) 0 (n := c - min c (bs.length + 1)) (by omega)
  have happend := hmove.append (h := fun i => (bs[i]?).getD 0) hset (by omega)
    (fun i hi => (h.get (by omega)).symm) fun i hi => by
      rw [List.getElem?_eq_none (by omega), Option.getD_none]
  rwa [Nat.add_sub_cancel' (Nat.min_le_left _ _)] at happend

/-- `strcat` leaves the concatenation. -/
theorem writes_strcat (hds : CString m dst ds) (hbs : CString m src bs)
    (hlt : ds.length + bs.length < 2 ^ 31) :
    Mem.Writes m dst (ds.length + (bs.length + 1)) (fun i => ((ds ++ bs)[i]?).getD 0)
      (m.moveBytes src (dst + BitVec.ofNat 64 ds.length) (bs.length + 1)) := by
  have hkeep : Mem.Writes m dst ds.length (fun i => m (dst + BitVec.ofNat 64 i)) m :=
    ⟨fun _ _ => rfl, fun _ _ => rfl⟩
  refine hkeep.append (Mem.writes_moveBytes m src _ (by omega)) (by omega) (fun i hi => ?_)
    fun i hi => ?_
  · rw [hds.get hi.le, List.getElem?_append_left hi]
  · rw [hbs.get (by omega), List.getElem?_append_right (Nat.le_add_right _ _),
      Nat.add_sub_cancel_left]

/-- The length of the concatenation. -/
theorem strlen_strcat {m' : Mem} (hds : CString m dst ds) (hbs : CString m src bs)
    (hlt : ds.length + bs.length < 2 ^ 31)
    (h : Mem.Writes m dst (ds.length + (bs.length + 1)) (fun i => ((ds ++ bs)[i]?).getD 0) m') :
    strlen m' dst = strlen m dst + strlen m src := by
  have hcat : CString m' dst (ds ++ bs) := by
    refine cString_of_get (fun hmem => ?_) fun i hi => h.block i ?_
    · exact (List.mem_append.mp hmem).elim hds.ne_zero hbs.ne_zero
    · rw [List.length_append] at hi
      omega
  rw [strlen_of_stringAt (hcat.stringAt (by rw [List.length_append]; omega)),
    strlen_of_stringAt (hds.stringAt (by omega)), strlen_of_stringAt (hbs.stringAt (by omega)),
    List.length_append, Int32.ofNat_add]

/-- **`strncpy` and `strcat`.**  If the destination is no byte of the source behind the first one
that is read, `strncpy` writes the string and zeros up to the count; and `strcat` leaves the
concatenation of strings that share no byte, whose `strlen` is the sum of theirs.  `strlen` is what
the assembly of that name returns. -/
theorem strncpy_strcat :
    (∀ dest src count bs s, StrncpyArgs dest src count s → 0 ≤ count.toInt →
      CString s.mem src bs →
      (∀ i, 0 < i → i < min count.toNat (bs.length + 1) → dest ≠ src + BitVec.ofNat 64 i) →
        ∃ t, Arrives strncpyText.step (0, s) (10, t) ∧
          Mem.Writes s.mem dest count.toNat (fun i => (bs[i]?).getD 0) t.mem) ∧
    (∀ dest src ds bs s, StrcatArgs dest src s → CString s.mem dest ds → CString s.mem src bs →
      (Block.mk dest (ds.length + 1)).Apart ⟨src, bs.length + 1⟩ →
      ds.length + bs.length < 2 ^ 31 →
        ∃ t, Arrives strcatText.step (0, s) (8, t) ∧
          Mem.Writes s.mem dest (ds.length + (bs.length + 1))
            (fun i => ((ds ++ bs)[i]?).getD 0) t.mem ∧
          strlen t.mem dest = strlen s.mem dest + strlen s.mem src) ∧
    ∀ m a, StrlenReturns m a (strlen m a) := by
  refine ⟨fun dest src count bs s hs hc hbs hne => ?_,
    fun dest src ds bs s hs hds hbs hapart hlt => ?_, strlen_arrives⟩
  · have hcount : count.toNat < 2 ^ 63 := toNat_lt_of_nonneg hc
    have hstart : Copied s.mem src dest 0 { s with df := false } :=
      ⟨rfl, hs.rsi.trans (Mem.add_ofNat_zero _).symm, hs.rdi.trans (Mem.add_ofNat_zero _).symm,
        (Mem.moveBytes_zero ..).symm⟩
    obtain ⟨t, ht, hmem⟩ := strncpy_loop hstart (by rw [Mem.add_ofNat_zero]; exact hbs)
      (congrArg BitVec.toNat hs.rcx) hcount (by omega) fun i _ hi => read_of_ne hne (by omega)
    refine ⟨t, .head rfl ht, ?_⟩
    rw [Nat.zero_add] at hmem
    rw [hmem]
    exact writes_strncpy hbs hcount
  · obtain ⟨t, ht, hstart⟩ := strcat_scan hs hds (by omega)
    obtain ⟨w, hw, hmem⟩ := strcat_loop hstart (by rw [Mem.add_ofNat_zero]; exact hbs) (by omega)
      fun i _ hi => by
        refine read_of_ne (c := bs.length + 1) (fun j hj hj' heq => ?_) (by omega)
        obtain ⟨hle, hle'⟩ := hapart
        simp only at hle hle'
        bv_omega
    rw [Nat.zero_add] at hmem
    have hwrites := writes_strcat hds hbs hlt
    rw [← hmem] at hwrites
    exact ⟨w, ht.trans hw, hwrites, strlen_strcat hds hbs hlt hwrites⟩

/-- The strings `ab` and `c`, and room behind them. -/
def abAndC : Mem := fun a =>
  if a = 16 then 0x61 else if a = 17 then 0x62 else if a = 32 then 0x63 else 0

theorem strncpy_strcat_abc :
    (∃ t, Arrives strncpyText.step
        (0, ⟨0, 5, 0, 16, 48, false, false, false, true, abAndC⟩) (10, t) ∧
      Mem.Writes abAndC 48 5 (fun i => (([0x61, 0x62] : List (BitVec 8))[i]?).getD 0) t.mem) ∧
    (∃ t, Arrives strcatText.step
        (0, ⟨0, 0xffffffff, 0, 32, 16, false, false, false, true, abAndC⟩) (8, t) ∧
      Mem.Writes abAndC 16 4 (fun i => (([0x61, 0x62, 0x63] : List (BitVec 8))[i]?).getD 0) t.mem ∧
      strlen t.mem 16 = strlen abAndC 16 + strlen abAndC 32) ∧
    StrlenReturns abAndC 16 2 := by
  have hab : CString abAndC 16 [0x61, 0x62] := ⟨by decide, by decide, by decide, by decide,
    (by decide : abAndC (16 + 1 + 1) = 0)⟩
  have hc : CString abAndC 32 [0x63] := ⟨by decide, by decide, (by decide : abAndC (32 + 1) = 0)⟩
  refine ⟨strncpy_strcat.1 48 16 5 [0x61, 0x62]
      ⟨0, 5, 0, 16, 48, false, false, false, true, abAndC⟩ ⟨rfl, rfl, rfl⟩ (by decide) hab
      fun i hi hi' => ?_,
    strncpy_strcat.2.1 16 32 [0x61, 0x62] [0x63]
      ⟨0, 0xffffffff, 0, 32, 16, false, false, false, true, abAndC⟩ ⟨rfl, rfl, rfl, rfl⟩ hab hc
      (by decide) (by decide), ?_⟩
  · have hlt : i < 3 := hi'.trans_le (Nat.min_le_right _ _)
    bv_omega
  · have hlen : strlen abAndC 16 = 2 := strlen_of_stringAt (hab.stringAt (by decide))
    rw [← hlen]
    exact strncpy_strcat.2.2 abAndC 16

/-- **A destination one byte behind the source**: the first byte is copied over the second one. -/
theorem strncpy_overlapping : ∃ t,
    Arrives strncpyText.step (0, ⟨0, 2, 0, 16, 17, false, false, false, true, abAndC⟩) (10, t) ∧
      CString abAndC 16 [0x61, 0x62] ∧
      ¬ Mem.Writes abAndC 17 2 (fun i => (([0x61, 0x62] : List (BitVec 8))[i]?).getD 0) t.mem := by
  -- two bytes of seven instructions each, between the first instruction and the end of the count
  refine ⟨_, .head rfl (.head rfl (.head rfl (.head rfl (.head rfl (.head rfl (.head rfl (.head rfl
    (.head rfl (.head rfl (.head rfl (.head rfl (.head rfl (.head rfl (.head rfl
    (.head rfl (.head rfl (.head rfl (.single rfl)))))))))))))))))), ?_, fun h => ?_⟩
  · exact ⟨by decide, by decide, by decide, by decide, (by decide : abAndC (16 + 1 + 1) = 0)⟩
  · exact absurd (h.block 1 (by decide)) (by decide)

end Lib
end OSLib
