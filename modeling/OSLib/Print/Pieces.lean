import OSLib.Print.Format

/-!
# What a format string asks for

A format string is a sequence of pieces: bytes to copy, and conversions.  Where a piece ends does
not depend on the arguments, so the string is cut into pieces first and printed piece by piece
(`vsprintf_eq`).  The length of a piece's text is a number computed from its width, precision and
argument, and so the length of the whole text is known before anything is printed.  Nothing in the
code compares it with the 4096 bytes of `__buf`.

The cutting is a function on the bytes of the format and knows nothing of the arguments, which is
what the two statements about the scanner need: `Scan` compares the pieces with the format, and
`Buffer` adds up their lengths.  Both would otherwise have to follow the scanner through its states.
-/

namespace OSLib
namespace Print

/-! ## Conversions -/

/-- The character is a flag. -/
def isFlag (c : BitVec 8) : Bool := (setFlag c).isSome

/-- A number of a conversion: missing, in digits, or an argument. -/
inductive Amount where
  | absent
  | digits (ds : List (BitVec 8))
  | star
  deriving DecidableEq

/-- A conversion without its `%`.  `precision` is what follows the dot, if there is a dot, and
`letter` is the NUL if the format ends before. -/
structure Spec where
  flags : List (BitVec 8)
  width : Amount
  precision : Option Amount
  qualifier : Option (BitVec 8)
  letter : BitVec 8
  deriving DecidableEq

/-- The number at the start of the rest of a format, and what follows it. -/
def amount (fmt : List (BitVec 8)) : Amount × List (BitVec 8) :=
  if isDigit (cur fmt) then (.digits (fmt.takeWhile isDigit), fmt.dropWhile isDigit)
  else if cur fmt = 0x2a then (.star, fmt.tail)
  else (.absent, fmt)

/-- The precision, and what follows it. -/
def dotAmount (fmt : List (BitVec 8)) : Option Amount × List (BitVec 8) :=
  if cur fmt = 0x2e then (some (amount fmt.tail).1, (amount fmt.tail).2) else (none, fmt)

/-- The qualifier, and what follows it. -/
def qualifierOf (fmt : List (BitVec 8)) : Option (BitVec 8) × List (BitVec 8) :=
  if isQualifier (cur fmt) then (some (cur fmt), fmt.tail) else (none, fmt)

/-- The conversion after a `%`, and what follows it. -/
def spec (fmt : List (BitVec 8)) : Spec × List (BitVec 8) :=
  let width := amount (fmt.dropWhile isFlag)
  let precision := dotAmount width.2
  let qualifier := qualifierOf precision.2
  (⟨fmt.takeWhile isFlag, width.1, precision.1, qualifier.1, cur qualifier.2⟩,
    if cur qualifier.2 = 0 then qualifier.2 else qualifier.2.tail)

/-! ## What the numbers are -/

/-- The value of digits, modulo `2 ^ 32`. -/
def digitsValue (ds : List (BitVec 8)) : Int32 :=
  ds.foldl (fun i c => i * 10 + Int32.ofNat c.toNat - 0x30) 0

/-- The number of arguments an amount takes. -/
def Amount.used : Amount → ℕ
  | .star => 1
  | _ => 0

/-- The value of an amount. -/
def Amount.value (v : BitVec 64) : Amount → Int32
  | .absent => -1
  | .digits ds => digitsValue ds
  | .star => int32Arg v

/-- The amount is a negative argument. -/
def Amount.isNegative (v : BitVec 64) : Amount → Bool
  | .star => int32Arg v < 0
  | _ => false

/-- A width: a negative argument counts without its sign. -/
def Amount.width (v : BitVec 64) (a : Amount) : Int32 :=
  if a.isNegative v then -a.value v else a.value v

/-- A precision: without a dot there is none, and a negative one is 0. -/
def dotValue (v : BitVec 64) : Option Amount → Int32
  | none => -1
  | some a => if a.value v < 0 then 0 else a.value v

namespace Spec

variable (s : Spec) (args : ℕ → BitVec 64) (k : ℕ)

/-- The arguments taken before the conversion's own. -/
def stars : ℕ := s.width.used + s.precision.elim 0 Amount.used

/-- The flags; a negative width asks for left alignment. -/
def flagSet : Flags :=
  let flags := s.flags.foldl (fun flags c => (setFlag c).getD id flags) {}
  if s.width.isNegative (args k) then { flags with left := true } else flags

/-- The width. -/
def widthValue : Int32 := s.width.width (args k)

/-- The precision. -/
def precisionValue : Int32 := dotValue (args (k + s.width.used)) s.precision

end Spec

/-! ## Pieces -/

/-- A byte to copy or a conversion. -/
inductive Piece where
  | byte (c : BitVec 8)
  | conversion (s : Spec)
  deriving DecidableEq

theorem length_tail_le (fmt : List (BitVec 8)) : fmt.tail.length ≤ fmt.length := by
  rw [List.length_tail]
  omega

theorem length_amount_le (fmt : List (BitVec 8)) : (amount fmt).2.length ≤ fmt.length := by
  unfold amount
  split
  · exact (List.dropWhile_suffix _).length_le
  · split
    · exact length_tail_le fmt
    · exact le_refl _

theorem length_spec_le (fmt : List (BitVec 8)) : (spec fmt).2.length ≤ fmt.length := by
  have hflags : (fmt.dropWhile isFlag).length ≤ fmt.length := (List.dropWhile_suffix _).length_le
  have hwidth := length_amount_le (fmt.dropWhile isFlag)
  have hdot (fmt : List (BitVec 8)) : (dotAmount fmt).2.length ≤ fmt.length := by
    unfold dotAmount
    split
    · exact (length_amount_le _).trans (length_tail_le fmt)
    · exact le_refl _
  have hqualifier (fmt : List (BitVec 8)) : (qualifierOf fmt).2.length ≤ fmt.length := by
    unfold qualifierOf
    split
    · exact length_tail_le fmt
    · exact le_refl _
  have h₁ := hdot (amount (fmt.dropWhile isFlag)).2
  have h₂ := hqualifier (dotAmount (amount (fmt.dropWhile isFlag)).2).2
  have h₃ := length_tail_le (qualifierOf (dotAmount (amount (fmt.dropWhile isFlag)).2).2).2
  unfold spec
  simp only
  split <;> omega

/-- The pieces of a format string. -/
def pieces : List (BitVec 8) → List Piece
  | [] => []
  | c :: fmt =>
    if c = 0 then []
    else if c = 0x25 then .conversion (spec fmt).1 :: pieces (spec fmt).2
    else .byte c :: pieces fmt
termination_by fmt => fmt.length
decreasing_by
  · exact Nat.lt_succ_of_le (length_spec_le fmt)
  · exact Nat.lt_succ_self _

variable (mem : Mem) (args : ℕ → BitVec 64)

/-- Printing a piece. -/
def emit (p : Printing) : Piece → Except Fault Printing
  | .byte c => .ok ⟨p.text ++ [c], p.arg⟩
  | .conversion s => do
    let (text, used) ← convert mem s.letter (s.flagSet args p.arg) (s.widthValue args p.arg)
      (s.precisionValue args p.arg) s.qualifier (args (p.arg + s.stars))
    .ok ⟨p.text ++ text, p.arg + s.stars + used⟩

/-! ## The scanner finds the pieces -/

theorem skipAtoi_eq (fmt : List (BitVec 8)) (i : Int32) :
    skipAtoi fmt i = (fmt.dropWhile isDigit,
      (fmt.takeWhile isDigit).foldl (fun i c => i * 10 + Int32.ofNat c.toNat - 0x30) i) := by
  induction fmt generalizing i with
  | nil => rfl
  | cons c fmt ih =>
    rw [skipAtoi]
    split
    · next h => rw [ih, List.dropWhile_cons_of_pos h, List.takeWhile_cons_of_pos h, List.foldl_cons]
    · next h =>
      rw [List.dropWhile_cons_of_neg h, List.takeWhile_cons_of_neg h]
      rfl

theorem repeatFlags_eq (c : BitVec 8) (fmt : List (BitVec 8)) (flags : Flags) :
    repeatFlags (c :: fmt) flags = .ok (fmt.dropWhile isFlag,
      (fmt.takeWhile isFlag).foldl (fun flags c => (setFlag c).getD id flags) flags) := by
  induction fmt generalizing c flags with
  | nil => rfl
  | cons d fmt ih =>
    have hcur : cur (d :: fmt) = d := rfl
    rw [repeatFlags, hcur]
    cases hd : setFlag d with
    | none =>
      have h : ¬ isFlag d = true := by simp [isFlag, hd]
      rw [List.dropWhile_cons_of_neg h, List.takeWhile_cons_of_neg h]
      rfl
    | some set =>
      have h : isFlag d = true := by simp [isFlag, hd]
      rw [List.dropWhile_cons_of_pos h, List.takeWhile_cons_of_pos h, List.foldl_cons, hd]
      exact ih d (set flags)

/-- `fmt++` on a character that is not the NUL. -/
theorem next_of_cur {fmt : List (BitVec 8)} (h : cur fmt ≠ 0) : next fmt = .ok fmt.tail := by
  cases fmt with
  | nil => exact absurd rfl h
  | cons c fmt => rfl

theorem ok_bind {α β : Type} (a : α) (f : α → Except Fault β) : (Except.ok a >>= f) = f a := rfl

variable {mem} {args}

theorem fieldWidth_eq (fmt : List (BitVec 8)) (k : ℕ) (flags : Flags) :
    fieldWidth args fmt k flags = .ok ((amount fmt).2, k + (amount fmt).1.used,
      (amount fmt).1.width (args k),
      if (amount fmt).1.isNegative (args k) then { flags with left := true } else flags) := by
  unfold fieldWidth amount
  split
  · rw [skipAtoi_eq]
    rfl
  · split
    · next hstar =>
      rw [next_of_cur (by rw [hstar]; decide), ok_bind]
      by_cases hneg : int32Arg (args k) < 0
      · simp [hneg, Amount.used, Amount.width, Amount.isNegative, Amount.value]
      · simp [hneg, Amount.used, Amount.width, Amount.isNegative, Amount.value]
    · rfl

theorem getPrecision_eq (fmt : List (BitVec 8)) (k : ℕ) :
    getPrecision args fmt k = .ok ((dotAmount fmt).2, k + (dotAmount fmt).1.elim 0 Amount.used,
      dotValue (args k) (dotAmount fmt).1) := by
  unfold getPrecision dotAmount
  split
  · next hdot =>
    rw [next_of_cur (by rw [hdot]; decide), ok_bind]
    unfold amount
    split
    · rw [skipAtoi_eq]
      rfl
    · split
      · next hstar =>
        rw [next_of_cur (by rw [hstar]; decide), ok_bind]
        rfl
      · rfl
  · rfl

theorem getQualifier_eq (fmt : List (BitVec 8)) :
    getQualifier fmt = .ok ((qualifierOf fmt).2, (qualifierOf fmt).1) := by
  unfold getQualifier qualifierOf
  split
  · next hq =>
    rw [next_of_cur, ok_bind]
    intro hzero
    rw [hzero] at hq
    cases hq
  · rfl

/-- **The scanner finds the conversion and moves behind it.** -/
theorem conversion_eq (c : BitVec 8) (fmt : List (BitVec 8)) (p : Printing) :
    conversion mem args (c :: fmt) p =
      (emit mem args p (.conversion (spec fmt).1)).map ((spec fmt).2, ·) := by
  unfold conversion
  simp only [repeatFlags_eq, ok_bind, fieldWidth_eq, getPrecision_eq, getQualifier_eq]
  unfold emit spec Spec.flagSet Spec.widthValue Spec.precisionValue Spec.stars
  simp only [← Nat.add_assoc]
  generalize convert mem _ _ _ _ _ _ = r
  cases r with
  | error e => rfl
  | ok r =>
    simp only [ok_bind]
    split
    · rfl
    · next hcur =>
      rw [next_of_cur hcur]
      rfl

/-! ## The loop -/

theorem length_round_lt {fmt : List (BitVec 8)} {p : Printing} {r : List (BitVec 8) × Printing}
    (hcur : cur fmt ≠ 0) (h : round mem args fmt p = .ok r) : r.1.length < fmt.length := by
  cases fmt with
  | nil => exact absurd rfl hcur
  | cons c fmt =>
    unfold round at h
    split at h
    · rw [next_of_cur hcur, ok_bind] at h
      obtain rfl := Except.ok.inj h
      exact Nat.lt_succ_self _
    · rw [conversion_eq] at h
      cases hemit : emit mem args p (.conversion (spec fmt).1) with
      | error e => rw [hemit] at h; cases h
      | ok q =>
        rw [hemit] at h
        obtain rfl := Except.ok.inj h
        exact Nat.lt_succ_of_le (length_spec_le fmt)

variable (mem args) in
/-- The loop of `__vsprintf`. -/
def vsprintfLoop (fmt : List (BitVec 8)) (p : Printing) : Except Fault Printing :=
  if cur fmt = 0 then .ok p
  else
    match _h : round mem args fmt p with
    | .error e => .error e
    | .ok r => vsprintfLoop r.1 r.2
termination_by fmt.length
decreasing_by exact length_round_lt ‹_› ‹_›

variable (mem args) in
/-- `__vsprintf`: the text it leaves in `__buf`, without the NUL. -/
def vsprintf (fmt : List (BitVec 8)) : Except Fault Printing := vsprintfLoop mem args fmt ⟨[], 0⟩

theorem vsprintfLoop_of_zero {fmt : List (BitVec 8)} (h : cur fmt = 0) (p : Printing) :
    vsprintfLoop mem args fmt p = .ok p := by
  rw [vsprintfLoop]
  exact if_pos h

/-- A round, and then the rest. -/
theorem vsprintfLoop_of_ne {fmt : List (BitVec 8)} (h : cur fmt ≠ 0) (p : Printing) :
    vsprintfLoop mem args fmt p =
      round mem args fmt p >>= fun r => vsprintfLoop mem args r.1 r.2 := by
  rw [vsprintfLoop]
  refine (if_neg h).trans ?_
  split
  · next e hround => rw [hround]; rfl
  · next r hround => rw [hround]; rfl

/-- **The format is printed piece by piece.** -/
theorem vsprintfLoop_eq (fmt : List (BitVec 8)) (p : Printing) :
    vsprintfLoop mem args fmt p = (pieces fmt).foldlM (emit mem args) p := by
  cases fmt with
  | nil =>
    rw [vsprintfLoop_of_zero rfl, pieces]
    rfl
  | cons c fmt =>
    rw [pieces]
    by_cases hzero : c = 0
    · have hcur : cur (c :: fmt) = 0 := hzero
      rw [vsprintfLoop_of_zero hcur, if_pos hzero]
      rfl
    have hcur : cur (c :: fmt) ≠ 0 := hzero
    rw [vsprintfLoop_of_ne hcur, if_neg hzero, round]
    by_cases hpercent : c = 0x25
    · have hconv : ¬ cur (c :: fmt) ≠ 0x25 := not_not.mpr hpercent
      rw [if_pos hpercent, List.foldlM_cons, if_neg hconv, conversion_eq]
      cases emit mem args p (.conversion (spec fmt).1) with
      | error e => rfl
      | ok q =>
        have hlt := length_spec_le fmt
        exact vsprintfLoop_eq (spec fmt).2 q
    · have hcopy : cur (c :: fmt) ≠ 0x25 := hpercent
      rw [if_neg hpercent, List.foldlM_cons, if_pos hcopy, next_of_cur hcur]
      exact vsprintfLoop_eq fmt _
termination_by fmt.length
decreasing_by
  · exact Nat.lt_succ_of_le hlt
  · exact Nat.lt_succ_self _

end Print
end OSLib
