import Mathlib.Data.List.Lex
import OSLib.Foundation.SubRegisters
import OSLib.Lib.Memory

/-!
# `lib.h`: `strcmp` and `strncmp`

Both loops load a byte of the second string, compare it with one of the first, and stop at the first
difference, behind a NUL, or, in `strncmp`, when the count goes below zero.  What they compute is
the order of the strings as sequences of signed bytes ended by NUL.

They run on a machine that can read the bytes of the two strings up to the NUL, and up to the count,
and nothing else.

The strings may be of any length, and they may overlap or be the same.  Being sequences of signed
bytes, they are compared in an order in which the NUL is not the least element: a byte above `0x7f`
is below it.  So the order is that of the lists with the NUL at their end, which is what the code
sees.

The loops are run by induction on both strings at once, by cases on their first bytes
(`FirstBytes`): equal and no NUL, both NUL, or different.  The order that is computed is shown to be
an order afterwards, for lists of integers (`order_antisymm`, `order_trans`), without another look
at the machine.
-/

namespace OSLib
namespace Lib

open StringOps StringOps.Code

/-! ## Strings -/

/-- The string at an address, without its NUL. -/
def CString (m : Mem) : BitVec 64 → List (BitVec 8) → Prop
  | a, [] => m a = 0
  | a, b :: bs => m a = b ∧ b ≠ 0 ∧ CString m (a + 1) bs

/-- The signed bytes of a string, and the NUL. -/
def signed (bs : List (BitVec 8)) : List ℤ := (bs ++ [0]).map BitVec.toInt

/-- The result for an order of sequences. -/
def order (x y : List ℤ) : BitVec 32 := if x < y then -1 else if y < x then 1 else 0

variable {m : Mem} {first second : BitVec 64} {as bs : List (BitVec 8)} {x y : BitVec 8} {n : ℕ}

/-- A string begins with its first byte, or its NUL, however it is cut. -/
theorem CString.signed_take_eq (h : CString m first as) (n : ℕ) :
    ∃ l, signed (as.take (n + 1)) = (m first).toInt :: l := by
  cases as with
  | nil => exact ⟨[], by rw [show m first = 0 from h]; rfl⟩
  | cons a as => exact ⟨signed (as.take n), by rw [h.1]; rfl⟩

/-- What the first bytes of two strings say about them. -/
inductive FirstBytes (m : Mem) (first second : BitVec 64) (as bs : List (BitVec 8)) : Prop where
  | differ (hne : m first ≠ m second)
  | ended (heq : m first = m second) (hzero : m second = 0) (ha : as = []) (hb : bs = [])
  | goOn (as' bs' : List (BitVec 8)) (heq : m first = m second) (hne : m second ≠ 0)
      (ha : as = m first :: as') (hb : bs = m first :: bs') (ha' : CString m (first + 1) as')
      (hb' : CString m (second + 1) bs')

theorem CString.firstBytes (ha : CString m first as) (hb : CString m second bs) :
    FirstBytes m first second as bs := by
  by_cases heq : m first = m second
  · cases as with
    | nil =>
      have hzero : m first = 0 := ha
      cases bs with
      | nil => exact .ended heq hb rfl rfl
      | cons b bs => exact absurd (hb.1.symm.trans (heq.symm.trans hzero)) hb.2.1
    | cons a as =>
      have hne : m second ≠ 0 := fun hzero => ha.2.1 (ha.1.symm.trans (heq.trans hzero))
      cases bs with
      | nil => exact absurd hb hne
      | cons b bs =>
        exact .goOn as bs heq hne (by rw [ha.1]) (by rw [heq, hb.1]) ha.2.2 hb.2.2
  · exact .differ heq

/-- Strings that differ at once. -/
theorem order_of_ne {k l : List ℤ} (hne : x ≠ y) :
    order (x.toInt :: k) (y.toInt :: l) = if y.toInt < x.toInt then 1 else -1 := by
  have hint : x.toInt ≠ y.toInt := fun h => hne (BitVec.eq_of_toInt_eq h)
  rw [order]
  rcases Int.lt_or_gt_of_ne hint with hlt | hlt
  · have hcons : x.toInt :: k < y.toInt :: l := List.cons_lt_cons_iff.mpr (.inl hlt)
    rw [if_pos hcons, if_neg hlt.not_gt]
  · have hcons : y.toInt :: l < x.toInt :: k := List.cons_lt_cons_iff.mpr (.inl hlt)
    rw [if_neg hcons.not_gt, if_pos hcons, if_pos hlt]

/-- So do strings whose first bytes differ. -/
theorem order_differ (ha : CString m first as) (hb : CString m second bs)
    (hne : m first ≠ m second) (n : ℕ) :
    order (signed (as.take (n + 1))) (signed (bs.take (n + 1))) =
      if (m second).toInt < (m first).toInt then 1 else -1 := by
  obtain ⟨k, hk⟩ := ha.signed_take_eq n
  obtain ⟨l, hl⟩ := hb.signed_take_eq n
  rw [hk, hl]
  exact order_of_ne hne

/-- Strings that begin with one byte. -/
theorem order_cons (z : ℤ) (k l : List ℤ) : order (z :: k) (z :: l) = order k l := by
  have hcons (k l : List ℤ) : z :: k < z :: l ↔ k < l := List.cons_lt_cons_self
  rw [order, order]
  exact ite_congr (propext (hcons k l)) (fun _ => rfl) fun _ =>
    ite_congr (propext (hcons l k)) (fun _ => rfl) fun _ => rfl

theorem order_self (k : List ℤ) : order k k = 0 := by
  rw [order, if_neg (lt_irrefl k), if_neg (lt_irrefl k)]

theorem order_antisymm (k l : List ℤ) : order l k = -order k l := by
  rw [order, order]
  rcases lt_trichotomy k l with hlt | rfl | hlt
  · rw [if_neg hlt.not_gt, if_pos hlt, if_pos hlt]
    rfl
  · rw [if_neg (lt_irrefl k), if_neg (lt_irrefl k)]
    rfl
  · rw [if_pos hlt, if_neg hlt.not_gt, if_pos hlt]

theorem order_ne_one_iff (k l : List ℤ) : order k l ≠ 1 ↔ k ≤ l := by
  rw [order, ← not_lt]
  rcases lt_trichotomy k l with hlt | rfl | hlt
  · rw [if_pos hlt]
    exact iff_of_true (by decide) hlt.not_gt
  · rw [if_neg (lt_irrefl k), if_neg (lt_irrefl k)]
    exact iff_of_true (by decide) (lt_irrefl k)
  · rw [if_neg hlt.not_gt, if_pos hlt]
    exact iff_of_false (fun h => h rfl) fun h => h hlt

theorem order_trans {j k l : List ℤ} (h : order j k ≠ 1) (h' : order k l ≠ 1) : order j l ≠ 1 :=
  (order_ne_one_iff j l).mpr (((order_ne_one_iff j k).mp h).trans ((order_ne_one_iff k l).mp h'))

/-! ## One byte of each -/

variable {s : Cpu} {A B : Block} {text : Code} {p l : ℕ}

theorem al_lodsb (s : Cpu) : (s.string .lodsb).al = s.mem s.rsi := by
  refine BitVec.eq_of_toNat_eq ?_
  have hlt := (s.mem s.rsi).isLt
  show ((s.rax.extractLsb' 8 56 ++ s.mem s.rsi).setWidth 8).toNat = _
  rw [BitVec.toNat_setWidth, SubRegisters.toNat_append]
  omega

/-- The blocks hold the next `n` bytes of the two strings. -/
structure Readable (A B : Block) (n : ℕ) (s : Cpu) : Prop where
  first : A.Has s.rdi n
  second : B.Has s.rsi n

theorem has_of_le {a : BitVec 64} {k : ℕ} (h : A.Has a n) (hk : k ≤ n) : A.Has a k := by
  unfold Block.Has at h ⊢
  omega

theorem has_succ {a : BitVec 64} (h : A.Has a (n + 1)) : A.Has (a + 1) n := by
  unfold Block.Has at h ⊢
  bv_omega

/-- The state behind the comparison of a byte. -/
structure ByteDone (s t : Cpu) : Prop where
  rdi : t.rdi = s.rdi + 1
  rsi : t.rsi = s.rsi + 1
  rcx : t.rcx = s.rcx
  df : t.df = false
  mem : t.mem = s.mem

/-- **A round of the loop**: at a difference it leaves the loop with the flags of the comparison; at
a NUL it goes on behind the loop; else it starts again. -/
theorem byte_arrives (text : Code) (p l : ℕ) (hlods : text[p]? = some (.string .lodsb))
    (hscas : text[p + 1]? = some (.string .scasb)) (hjne : text[p + 2]? = some (.jcc .ne l))
    (htest : text[p + 3]? = some .testAl) (hloop : text[p + 4]? = some (.jcc .ne 1))
    (hdf : s.df = false) (hr : Readable A B 1 s) :
    ∃ t, ByteDone s t ∧
      if s.mem s.rdi ≠ s.mem s.rsi then
        Arrives (text.stepIn [A, B]) (p, s) (text.target l, t) ∧
          t.holds .l = decide ((s.mem s.rsi).toInt < (s.mem s.rdi).toInt)
      else
        Arrives (text.stepIn [A, B]) (p, s)
          (if s.mem s.rsi ≠ 0 then text.target 1 else p + 5, t) := by
  set u := s.string .lodsb with hu
  have hal : u.al = s.mem s.rsi := al_lodsb s
  have hlods' : text.stepIn [A, B] (p, s) = some (p + 1, u) := by
    refine stepIn_eq hlods fun C hC => ⟨B, List.mem_cons_of_mem A List.mem_cons_self, ?_⟩
    obtain rfl := List.mem_singleton.mp hC
    exact hr.second
  set v := u.string .scasb with hv
  have hscas' : text.stepIn [A, B] (p + 1, u) = some (p + 2, v) := by
    refine stepIn_eq hscas fun C hC => ⟨A, List.mem_cons_self, ?_⟩
    obtain rfl := List.mem_singleton.mp hC
    exact hr.first
  have hdone : ByteDone s v := by
    refine ⟨?_, ?_, rfl, hdf, rfl⟩
    · exact congrArg (s.rdi + ·) (delta_one (s := u) hdf)
    · exact congrArg (s.rsi + ·) (delta_one hdf)
  have hne : v.holds .ne = decide (s.mem s.rsi ≠ s.mem s.rdi) := by
    rw [← hal]
    exact u.holds_ne_subFlags u.al (u.mem u.rdi)
  have hjne' : text.stepIn [A, B] (p + 2, v) =
      some (if v.holds .ne then text.target l else p + 3, v) := stepIn_of_reads_nil hjne rfl
  by_cases heq : s.mem s.rdi = s.mem s.rsi
  · rw [hne, heq, decide_eq_false (not_not.mpr rfl), if_neg Bool.false_ne_true] at hjne'
    set w := v.logicFlags v.al with hw
    have hloop' : text.stepIn [A, B] (p + 4, w) =
        some (if w.holds .ne then text.target 1 else p + 5, w) := stepIn_of_reads_nil hloop rfl
    have hzero : w.holds .ne = decide (s.mem s.rsi ≠ 0) := by
      rw [← hal]
      show (!decide (u.al = 0)) = _
      rw [decide_not]
    rw [hzero] at hloop'
    simp only [decide_eq_true_eq] at hloop'
    refine ⟨w, ⟨hdone.rdi, hdone.rsi, hdone.rcx, hdone.df, hdone.mem⟩, ?_⟩
    rw [if_neg (not_not.mpr heq)]
    exact .head hlods' (.head hscas' (.head hjne' (.head (stepIn_of_reads_nil htest rfl)
      (.single hloop'))))
  · rw [hne, decide_eq_true (Ne.symm heq), if_pos rfl] at hjne'
    refine ⟨v, hdone, ?_⟩
    rw [if_pos heq]
    refine ⟨.head hlods' (.head hscas' (.single hjne')), ?_⟩
    rw [← hal]
    exact u.holds_l_subFlags u.al (u.mem u.rdi)

/-! ## A round of a count -/

theorem msb_sub_one {c : BitVec 64} (hc : c.toNat < 2 ^ 63) :
    (c - 1).msb = decide (c.toNat = 0) := by
  rw [BitVec.msb_eq_decide, BitVec.toNat_sub]
  refine decide_eq_decide.mpr ?_
  show 2 ^ 63 ≤ (2 ^ 64 - 1 + c.toNat) % 2 ^ 64 ↔ _
  omega

theorem toNat_lt_of_nonneg {c : BitVec 64} (hc : 0 ≤ c.toInt) : c.toNat < 2 ^ 63 := by
  rw [BitVec.toInt_eq_toNat_cond] at hc
  split at hc <;> omega

/-- The state behind the decrement of the count. -/
structure CountedDown (s t : Cpu) : Prop where
  rdi : t.rdi = s.rdi
  rsi : t.rsi = s.rsi
  df : t.df = s.df
  mem : t.mem = s.mem
  rcx : ∀ n, s.rcx.toNat = n + 1 → t.rcx.toNat = n

/-- **A round of a count** ends at `l` when the count is 0, as the decrement is negative then. -/
theorem countDown_arrives (blocks : List Block) (text : Code) (p l : ℕ)
    (hdec : text[p]? = some .decRcx) (hjs : text[p + 1]? = some (.jcc .s l))
    (hn : s.rcx.toNat < 2 ^ 63) :
    ∃ t, Arrives (text.stepIn blocks) (p, s)
        (if s.rcx.toNat = 0 then text.target l else p + 2, t) ∧ CountedDown s t := by
  set t := (text.exec p s .decRcx).2 with ht
  have hdec' : text.stepIn blocks (p, s) = some (p + 1, t) := stepIn_of_reads_nil hdec rfl
  have hjs' : text.stepIn blocks (p + 1, t) =
      some (if t.holds .s then text.target l else p + 2, t) := stepIn_of_reads_nil hjs rfl
  have hsign : t.holds .s = (s.rcx - 1).msb := rfl
  rw [hsign, msb_sub_one hn] at hjs'
  simp only [decide_eq_true_eq] at hjs'
  refine ⟨t, .head hdec' (.single hjs'), rfl, rfl, rfl, rfl, fun n hs => ?_⟩
  have hrcx : t.rcx = s.rcx - 1 := rfl
  rw [hrcx]
  bv_omega

/-! ## `strcmp` -/

/-- The assembly of `strcmp`. -/
def strcmpText : Code :=
  [.cld, .label 1, .string .lodsb, .string .scasb, .jcc .ne 2, .testAl, .jcc .ne 1, .xorEax, .jmp 3,
    .label 2, .movEax 1, .jcc .l 3, .negEax, .label 3]

/-- The registers `strcmp(FirstPart, SecondPart)` loads. -/
structure StrcmpArgs (first second : BitVec 64) (s : Cpu) : Prop where
  rdi : s.rdi = first
  rsi : s.rsi = second

/-- The end where the strings have not differed. -/
theorem strcmp_equal (t : Cpu) :
    ∃ u, Arrives (strcmpText.stepIn [A, B]) (7, t) (14, u) ∧ u.eax = 0 :=
  ⟨_, .head rfl (.head rfl (.single rfl)), rfl⟩

/-- **The loop of `strcmp`.** -/
theorem strcmp_loop (ha : CString s.mem s.rdi as) (hb : CString s.mem s.rsi bs)
    (hdf : s.df = false) (hA : A.Has s.rdi (as.length + 1)) (hB : B.Has s.rsi (bs.length + 1)) :
    ∃ u, Arrives (strcmpText.stepIn [A, B]) (1, s) (14, u) ∧
      u.eax = order (signed as) (signed bs) := by
  induction hn : as.length using Nat.strong_induction_on generalizing as bs s with
  | _ n ih =>
    have hlabel : strcmpText.stepIn [A, B] (1, s) = some (2, s) := rfl
    obtain ⟨t, hdone, hround⟩ := byte_arrives strcmpText 2 2 rfl rfl rfl rfl rfl hdf
      ⟨has_of_le hA (Nat.succ_pos _), has_of_le hB (Nat.succ_pos _)⟩
    cases ha.firstBytes hb with
    | differ hne =>
      rw [if_pos hne] at hround
      obtain ⟨hrun, hl⟩ := hround
      obtain ⟨u, hu, heax⟩ := sign_arrives [A, B] strcmpText 10 3 rfl rfl rfl rfl rfl t
      refine ⟨u, .head hlabel (hrun.trans (.head rfl hu)), ?_⟩
      have horder := order_differ ha hb hne (as.length + bs.length)
      rw [List.take_of_length_le (by omega), List.take_of_length_le (by omega)] at horder
      rw [heax, horder, hl]
      simp only [decide_eq_true_eq]
    | ended heq hzero ha hb =>
      rw [if_neg (not_not.mpr heq), if_neg (not_not.mpr hzero)] at hround
      obtain ⟨u, hu, heax⟩ := strcmp_equal (A := A) (B := B) t
      refine ⟨u, .head hlabel (hround.trans hu), ?_⟩
      rw [heax, ha, hb, order_self]
    | goOn as' bs' heq hne ha hb ha' hb' =>
      rw [if_neg (not_not.mpr heq), if_pos hne] at hround
      rw [ha, List.length_cons] at hA hn
      rw [hb, List.length_cons] at hB
      rw [← hdone.mem, ← hdone.rdi] at ha'
      rw [← hdone.mem, ← hdone.rsi] at hb'
      obtain ⟨u, hu, heax⟩ := ih as'.length (by omega) ha' hb' hdone.df
        (by rw [hdone.rdi]; exact has_succ hA) (by rw [hdone.rsi]; exact has_succ hB) rfl
      refine ⟨u, .head hlabel (hround.trans hu), ?_⟩
      rw [heax, ha, hb]
      exact (order_cons _ _ _).symm

/-! ## `strncmp` -/

/-- The assembly of `strncmp`. -/
def strncmpText : Code :=
  [.cld, .label 1, .decRcx, .jcc .s 2, .string .lodsb, .string .scasb, .jcc .ne 3, .testAl,
    .jcc .ne 1, .label 2, .xorEax, .jmp 4, .label 3, .movEax 1, .jcc .l 4, .negEax, .label 4]

/-- The registers `strncmp(FirstPart, SecondPart, Count)` loads. -/
structure StrncmpArgs (first second count : BitVec 64) (s : Cpu) : Prop where
  rdi : s.rdi = first
  rsi : s.rsi = second
  rcx : s.rcx = count

/-- The end where the strings have not differed. -/
theorem strncmp_equal (t : Cpu) :
    ∃ u, Arrives (strncmpText.stepIn [A, B]) (9, t) (17, u) ∧ u.eax = 0 :=
  ⟨_, .head rfl (.head rfl (.head rfl (.single rfl))), rfl⟩

/-- **The loop of `strncmp`.** -/
theorem strncmp_loop (ha : CString s.mem s.rdi as) (hb : CString s.mem s.rsi bs)
    (hdf : s.df = false) (hn : s.rcx.toNat = n) (hn' : n < 2 ^ 63)
    (hA : A.Has s.rdi (min n (as.length + 1))) (hB : B.Has s.rsi (min n (bs.length + 1))) :
    ∃ u, Arrives (strncmpText.stepIn [A, B]) (1, s) (17, u) ∧
      u.eax = order (signed (as.take n)) (signed (bs.take n)) := by
  induction n generalizing as bs s with
  | zero =>
    obtain ⟨t, ht, -⟩ := countDown_arrives [A, B] strncmpText 2 2 rfl rfl (s := s) (by omega)
    obtain ⟨u, hu, heax⟩ := strncmp_equal (A := A) (B := B) t
    rw [if_pos hn] at ht
    exact ⟨u, .head rfl (ht.trans hu), heax⟩
  | succ n ih =>
    obtain ⟨s', hcount, hdown⟩ :=
      countDown_arrives [A, B] strncmpText 2 2 rfl rfl (s := s) (by omega)
    rw [if_neg (by omega)] at hcount
    have hs' : Arrives (strncmpText.stepIn [A, B]) (1, s) (4, s') := .head rfl hcount
    rw [← hdown.mem, ← hdown.rdi] at ha
    rw [← hdown.mem, ← hdown.rsi] at hb
    rw [← hdown.rdi] at hA
    rw [← hdown.rsi] at hB
    obtain ⟨t, hdone, hround⟩ := byte_arrives strncmpText 4 3 rfl rfl rfl rfl rfl
      (hdown.df.trans hdf) ⟨has_of_le hA (by omega), has_of_le hB (by omega)⟩
    cases ha.firstBytes hb with
    | differ hne =>
      rw [if_pos hne] at hround
      obtain ⟨hrun, hl⟩ := hround
      obtain ⟨u, hu, heax⟩ := sign_arrives [A, B] strncmpText 13 4 rfl rfl rfl rfl rfl t
      refine ⟨u, hs'.trans (hrun.trans (.head rfl hu)), ?_⟩
      rw [heax, order_differ ha hb hne n, hl]
      simp only [decide_eq_true_eq]
    | ended heq hzero ha hb =>
      rw [if_neg (not_not.mpr heq), if_neg (not_not.mpr hzero)] at hround
      obtain ⟨u, hu, heax⟩ := strncmp_equal (A := A) (B := B) t
      refine ⟨u, hs'.trans (hround.trans hu), ?_⟩
      rw [heax, ha, hb, order_self]
    | goOn as' bs' heq hne ha hb ha' hb' =>
      rw [if_neg (not_not.mpr heq), if_pos hne] at hround
      rw [ha, List.length_cons, Nat.add_min_add_right] at hA
      rw [hb, List.length_cons, Nat.add_min_add_right] at hB
      rw [← hdone.mem, ← hdone.rdi] at ha'
      rw [← hdone.mem, ← hdone.rsi] at hb'
      have hleft : t.rcx.toNat = n := (congrArg _ hdone.rcx).trans (hdown.rcx n hn)
      obtain ⟨u, hu, heax⟩ := ih ha' hb' hdone.df hleft (by omega)
        (by rw [hdone.rdi]; exact has_succ hA) (by rw [hdone.rsi]; exact has_succ hB)
      refine ⟨u, hs'.trans (hround.trans hu), ?_⟩
      rw [heax, ha, hb]
      exact (order_cons _ _ _).symm

/-! ## The results -/

/-- **`strcmp` and `strncmp`** compute the order of the strings, cut to the count by the latter, on
a machine that can read the strings only, up to the NUL and up to the count; and the order is one.
-/
theorem strcmp_strncmp :
    (∀ first second as bs s, StrcmpArgs first second s → CString s.mem first as →
      CString s.mem second bs →
        ∃ t, Arrives (strcmpText.stepIn [⟨first, as.length + 1⟩, ⟨second, bs.length + 1⟩]) (0, s)
            (14, t) ∧ t.eax = order (signed as) (signed bs)) ∧
    (∀ first second count as bs s, StrncmpArgs first second count s → 0 ≤ count.toInt →
      CString s.mem first as → CString s.mem second bs →
        ∃ t, Arrives (strncmpText.stepIn [⟨first, min count.toNat (as.length + 1)⟩,
            ⟨second, min count.toNat (bs.length + 1)⟩]) (0, s) (17, t) ∧
          t.eax = order (signed (as.take count.toNat)) (signed (bs.take count.toNat))) ∧
    (∀ k l, order l k = -order k l) ∧
    ∀ j k l, order j k ≠ 1 → order k l ≠ 1 → order j l ≠ 1 := by
  refine ⟨fun first second as bs s hs ha hb => ?_, fun first second count as bs s hs hc ha hb => ?_,
    order_antisymm, fun j k l => order_trans⟩
  · rw [← hs.rdi] at ha
    rw [← hs.rsi] at hb
    have hloop := strcmp_loop (s := { s with df := false }) (A := ⟨first, as.length + 1⟩)
      (B := ⟨second, bs.length + 1⟩) ha hb rfl ?_ ?_
    · obtain ⟨t, ht, heax⟩ := hloop
      exact ⟨t, .head rfl ht, heax⟩
    · rw [show ({ s with df := false } : Cpu).rdi = first from hs.rdi]
      exact Block.has_self first (Nat.le_refl _)
    · rw [show ({ s with df := false } : Cpu).rsi = second from hs.rsi]
      exact Block.has_self second (Nat.le_refl _)
  · rw [← hs.rdi] at ha
    rw [← hs.rsi] at hb
    have hlt : count.toNat < 2 ^ 63 := toNat_lt_of_nonneg hc
    have hloop := strncmp_loop (s := { s with df := false })
      (A := ⟨first, min count.toNat (as.length + 1)⟩)
      (B := ⟨second, min count.toNat (bs.length + 1)⟩) ha hb rfl (congrArg BitVec.toNat hs.rcx) hlt
      ?_ ?_
    · obtain ⟨t, ht, heax⟩ := hloop
      exact ⟨t, .head rfl ht, heax⟩
    · rw [show ({ s with df := false } : Cpu).rdi = first from hs.rdi]
      exact Block.has_self first (Nat.le_refl _)
    · rw [show ({ s with df := false } : Cpu).rsi = second from hs.rsi]
      exact Block.has_self second (Nat.le_refl _)

/-- The strings `ab` and `ac`. -/
def abAndAc : Mem := fun a =>
  if a = 16 ∨ a = 32 then 0x61 else if a = 17 then 0x62 else if a = 33 then 0x63 else 0

theorem strcmp_strncmp_ab :
    (∃ t, Arrives (strcmpText.stepIn [⟨16, 3⟩, ⟨32, 3⟩])
        (0, ⟨0, 0, 0, 32, 16, false, false, false, true, abAndAc⟩) (14, t) ∧
      t.eax = order [0x61, 0x62, 0] [0x61, 0x63, 0]) ∧
    ∃ t, Arrives (strncmpText.stepIn [⟨16, 1⟩, ⟨32, 1⟩])
        (0, ⟨0, 1, 0, 32, 16, false, false, false, true, abAndAc⟩) (17, t) ∧
      t.eax = order [0x61, 0] [0x61, 0] :=
  have ab : CString abAndAc 16 [0x61, 0x62] := ⟨by decide, by decide, by decide, by decide,
    (by decide : abAndAc (16 + 1 + 1) = 0)⟩
  have ac : CString abAndAc 32 [0x61, 0x63] := ⟨by decide, by decide, by decide, by decide,
    (by decide : abAndAc (32 + 1 + 1) = 0)⟩
  ⟨strcmp_strncmp.1 16 32 [0x61, 0x62] [0x61, 0x63]
      ⟨0, 0, 0, 32, 16, false, false, false, true, abAndAc⟩ ⟨rfl, rfl⟩ ab ac,
    strcmp_strncmp.2.1 16 32 1 [0x61, 0x62] [0x61, 0x63]
      ⟨0, 1, 0, 32, 16, false, false, false, true, abAndAc⟩ ⟨rfl, rfl, rfl⟩ (by decide) ab ac⟩

end Lib
end OSLib
