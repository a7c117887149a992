import OSLib.Print.Buffer
import Mathlib.Data.List.TakeWhile

/-!
# The scanner of `__vsprintf`

The pieces of a format are the format: put one behind the other, their characters are its bytes
(`pieces_source`), and a piece that is no conversion is a byte other than `%`.  Printing them takes
the arguments one after the other, as many for each piece as it has stars and a value of its own
(`emit_text`).  The scanner does not come past the end of the format on any of this, also where the
format ends inside a conversion: `next` would fail there.

An unknown letter is a piece too: the code prints the percent sign and the letter and takes no
argument.  So is a format that ends behind a percent sign, whose piece has no letter.  Every format
is therefore a list of pieces, and nothing is assumed of it but that it has no NUL inside.
-/

namespace OSLib
namespace Print

/-! ## The characters of a piece -/

/-- The characters of an amount. -/
def Amount.source : Amount → List (BitVec 8)
  | .absent => []
  | .digits ds => ds
  | .star => [0x2a]

/-- The characters of a conversion behind its `%`; at the end of the format it has no letter. -/
def Spec.source (s : Spec) : List (BitVec 8) :=
  s.flags ++ s.width.source ++ s.precision.elim [] (fun a => 0x2e :: a.source) ++
    s.qualifier.toList ++ if s.letter = 0 then [] else [s.letter]

/-- The characters of a piece. -/
def Piece.source : Piece → List (BitVec 8)
  | .byte c => [c]
  | .conversion s => 0x25 :: s.source

/-- An amount in digits has a digit, and digits only. -/
def Amount.WellFormed : Amount → Prop
  | .digits ds => ds ≠ [] ∧ ∀ c ∈ ds, isDigit c = true
  | _ => True

/-- A conversion has flags, amounts and a qualifier, each where it belongs. -/
structure Spec.WellFormed (s : Spec) : Prop where
  flags : ∀ c ∈ s.flags, isFlag c = true
  width : s.width.WellFormed
  precision : ∀ a ∈ s.precision, a.WellFormed
  qualifier : ∀ c ∈ s.qualifier, isQualifier c = true

/-- A piece that is no conversion does not start one. -/
def Piece.WellFormed : Piece → Prop
  | .byte c => c ≠ 0x25
  | .conversion s => s.WellFormed

variable {fmt : List (BitVec 8)} {c : BitVec 8}

theorem cons_tail_of_cur (hc : c ≠ 0) (h : cur fmt = c) : c :: fmt.tail = fmt := by
  cases fmt with
  | nil => exact absurd h.symm hc
  | cons d fmt => exact congrArg (· :: fmt) h.symm

theorem amount_source (fmt : List (BitVec 8)) :
    (amount fmt).1.source ++ (amount fmt).2 = fmt := by
  rw [amount]
  split
  · exact List.takeWhile_append_dropWhile
  · split
    · next hstar => exact cons_tail_of_cur (by decide) hstar
    · rfl

theorem amount_wellFormed (fmt : List (BitVec 8)) : (amount fmt).1.WellFormed := by
  rw [amount]
  split
  · next hdigit =>
    cases fmt with
    | nil => cases hdigit
    | cons c fmt =>
      have hc : isDigit c = true := hdigit
      refine ⟨?_, fun d hd => List.mem_takeWhile_imp hd⟩
      rw [List.takeWhile_cons_of_pos hc]
      exact List.cons_ne_nil _ _
  · split <;> exact trivial

theorem dotAmount_source (fmt : List (BitVec 8)) :
    (dotAmount fmt).1.elim [] (fun a => 0x2e :: a.source) ++ (dotAmount fmt).2 = fmt := by
  rw [dotAmount]
  split
  · next hdot =>
    refine (congrArg (0x2e :: ·) (amount_source fmt.tail)).trans ?_
    exact cons_tail_of_cur (by decide) hdot
  · rfl

theorem dotAmount_wellFormed (fmt : List (BitVec 8)) :
    ∀ a ∈ (dotAmount fmt).1, a.WellFormed := by
  intro a ha
  rw [dotAmount] at ha
  split at ha
  · obtain rfl := Option.mem_some_iff.mp ha
    exact amount_wellFormed fmt.tail
  · cases ha

theorem qualifierOf_source (fmt : List (BitVec 8)) :
    (qualifierOf fmt).1.toList ++ (qualifierOf fmt).2 = fmt := by
  rw [qualifierOf]
  split
  · next hq =>
    refine cons_tail_of_cur (fun hzero => ?_) rfl
    rw [hzero] at hq
    cases hq
  · rfl

theorem qualifierOf_wellFormed (fmt : List (BitVec 8)) :
    ∀ c ∈ (qualifierOf fmt).1, isQualifier c = true := by
  intro c hc
  rw [qualifierOf] at hc
  split at hc
  · next hq =>
    obtain rfl := Option.mem_some_iff.mp hc
    exact hq
  · cases hc

/-- **A conversion and what follows it** are the format behind the `%`. -/
theorem spec_source (fmt : List (BitVec 8)) : (spec fmt).1.source ++ (spec fmt).2 = fmt := by
  have hletter (fmt : List (BitVec 8)) : (if cur fmt = 0 then [] else [cur fmt]) ++
      (if cur fmt = 0 then fmt else fmt.tail) = fmt := by
    split
    · rfl
    · next hcur => exact cons_tail_of_cur hcur rfl
  rw [spec, Spec.source]
  simp only [List.append_assoc, hletter, qualifierOf_source, dotAmount_source, amount_source]
  exact List.takeWhile_append_dropWhile

theorem spec_wellFormed (fmt : List (BitVec 8)) : (spec fmt).1.WellFormed where
  flags _ hc := List.mem_takeWhile_imp hc
  width := amount_wellFormed _
  precision := dotAmount_wellFormed _
  qualifier := qualifierOf_wellFormed _

/-- **The pieces of a format are the format.** -/
theorem pieces_source (fmt : List (BitVec 8)) (hfmt : 0 ∉ fmt) :
    (pieces fmt).flatMap Piece.source = fmt := by
  induction fmt using pieces.induct with
  | case1 =>
    rw [pieces]
    rfl
  | case2 fmt => exact absurd List.mem_cons_self hfmt
  | case3 fmt hne ih =>
    have hsource := spec_source fmt
    have hspec : 0 ∉ (spec fmt).2 := by
      intro h
      have hmem := List.mem_append_right (spec fmt).1.source h
      rw [hsource] at hmem
      exact hfmt (List.mem_cons_of_mem _ hmem)
    rw [pieces, if_neg hne, if_pos rfl, List.flatMap_cons, ih hspec, Piece.source,
      List.cons_append, hsource]
  | case4 c fmt hzero hpercent ih =>
    rw [pieces, if_neg hzero, if_neg hpercent, List.flatMap_cons,
      ih fun h => hfmt (List.mem_cons_of_mem _ h)]
    rfl

theorem pieces_wellFormed (fmt : List (BitVec 8)) : ∀ q ∈ pieces fmt, q.WellFormed := by
  induction fmt using pieces.induct with
  | case1 =>
    rw [pieces]
    exact List.forall_mem_nil _
  | case2 fmt =>
    rw [pieces, if_pos rfl]
    exact List.forall_mem_nil _
  | case3 fmt hne ih =>
    rw [pieces, if_neg hne, if_pos rfl]
    exact List.forall_mem_cons.mpr ⟨spec_wellFormed fmt, ih⟩
  | case4 c fmt hzero hpercent ih =>
    rw [pieces, if_neg hzero, if_neg hpercent]
    exact List.forall_mem_cons.mpr ⟨hpercent, ih⟩

/-! ## What is printed for it -/

variable {mem : Mem} {args : ℕ → BitVec 64} {p : Printing} {q : Piece}

/-- A text for a piece: the byte itself, if it is one. -/
def Piece.Copied (q : Piece) (text : List (BitVec 8)) : Prop := ∀ c, q = .byte c → text = [c]

/-- A piece appends its text and takes its arguments. -/
theorem emit_text (mem : Mem) (h : ¬ q.ReadsNull args p.arg) :
    ∃ text, emit mem args p q = .ok ⟨p.text ++ text, p.arg + q.used⟩ ∧ q.Copied text := by
  cases q with
  | byte c =>
    refine ⟨[c], rfl, fun d hd => ?_⟩
    rw [Piece.byte.inj hd]
  | conversion s =>
    obtain ⟨text, hconvert, -⟩ := convert_eq mem s.letter (s.flagSet args p.arg)
      (s.widthValue args p.arg) (s.precisionValue args p.arg) s.qualifier (args (p.arg + s.stars))
      fun hletter hnull => h ⟨hletter, hnull⟩
    refine ⟨text, ?_, fun d hd => nomatch hd⟩
    rw [emit, hconvert, Piece.used, ← Nat.add_assoc]
    rfl

/-- The pieces append their texts in order and take their arguments one after the other. -/
theorem emit_texts (mem : Mem) (ps : List Piece) (p : Printing) (h : NoNull args p.arg ps) :
    ∃ texts, ps.foldlM (emit mem args) p =
        .ok ⟨p.text ++ texts.flatten, p.arg + (ps.map Piece.used).sum⟩ ∧
      List.Forall₂ Piece.Copied ps texts := by
  induction ps generalizing p with
  | nil =>
    refine ⟨[], ?_, .nil⟩
    rw [List.flatten_nil, List.append_nil]
    rfl
  | cons q ps ih =>
    obtain ⟨text, hemit, hcopied⟩ := emit_text mem h.1
    obtain ⟨texts, hrest, hall⟩ := ih ⟨p.text ++ text, p.arg + q.used⟩ h.2
    refine ⟨text :: texts, ?_, .cons hcopied hall⟩
    rw [List.foldlM_cons, hemit, ok_bind, hrest, List.flatten_cons, List.append_assoc,
      List.map_cons, List.sum_cons, Nat.add_assoc]

/-- **The scanner.**  For every format and all arguments with strings where strings are asked for,
`__vsprintf` comes to the end of the format and no further.  The pieces of the format are its bytes;
of those the bytes outside of conversions are copied, in order, and the arguments taken are one for
each star and one for each conversion that has a value of its own. -/
theorem vsprintf_scan (mem : Mem) (hfmt : 0 ∉ fmt) (hnull : NoNull args 0 (pieces fmt)) :
    (pieces fmt).flatMap Piece.source = fmt ∧ (∀ q ∈ pieces fmt, q.WellFormed) ∧
    ∃ texts, vsprintf mem args fmt =
        .ok ⟨texts.flatten, ((pieces fmt).map Piece.used).sum⟩ ∧
      List.Forall₂ Piece.Copied (pieces fmt) texts := by
  refine ⟨pieces_source fmt hfmt, pieces_wellFormed fmt, ?_⟩
  obtain ⟨texts, hprint, hall⟩ := emit_texts mem (pieces fmt) ⟨[], 0⟩ hnull
  rw [List.nil_append, Nat.zero_add] at hprint
  exact ⟨texts, by rw [vsprintf, vsprintfLoop_eq, hprint], hall⟩

/-- The format `a%*d%s%y`, with a conversion that there is not. -/
def starFormat : List (BitVec 8) := [0x61, 0x25, 0x2a, 0x64, 0x25, 0x73, 0x25, 0x79]

theorem starFormat_pieces : pieces starFormat =
    [.byte 0x61, .conversion ⟨[], .star, none, none, 0x64⟩,
      .conversion ⟨[], .absent, none, none, 0x73⟩,
      .conversion ⟨[], .absent, none, none, 0x79⟩] := by
  have hstar : spec [0x2a, 0x64, 0x25, 0x73, 0x25, 0x79] =
      (⟨[], .star, none, none, 0x64⟩, [0x25, 0x73, 0x25, 0x79]) := by decide +kernel
  have hstring : spec [0x73, 0x25, 0x79] =
      (⟨[], .absent, none, none, 0x73⟩, [0x25, 0x79]) := by decide +kernel
  have hunknown : spec [0x79] = (⟨[], .absent, none, none, 0x79⟩, []) := by decide +kernel
  rw [starFormat, pieces, if_neg (by decide), if_neg (by decide), pieces, if_neg (by decide),
    if_pos rfl, hstar, pieces, if_neg (by decide), if_pos rfl, hstring, pieces,
    if_neg (by decide), if_pos rfl, hunknown, pieces]

/-- It takes the width, the number and the string. -/
theorem vsprintf_scan_star :
    ∃ texts, vsprintf Lib.abcde (fun k => [5, 7, 16].getD k 0) starFormat =
        .ok ⟨texts.flatten, 3⟩ ∧
      List.Forall₂ Piece.Copied (pieces starFormat) texts := by
  have hnull : NoNull (fun k => [5, 7, 16].getD k 0) 0 (pieces starFormat) := by
    rw [starFormat_pieces]
    exact ⟨id, fun h => absurd h.1 (by decide), fun h => absurd h.2 (by decide),
      fun h => absurd h.1 (by decide), trivial⟩
  have hsum : ((pieces starFormat).map Piece.used).sum = 3 := by
    rw [starFormat_pieces]
    rfl
  obtain ⟨-, -, texts, hprint, hall⟩ := vsprintf_scan Lib.abcde (by decide) hnull
  rw [hsum] at hprint
  exact ⟨texts, hprint, hall⟩

end Print
end OSLib
