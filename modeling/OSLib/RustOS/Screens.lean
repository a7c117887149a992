import OSLib.Foundation.Runs
import OSLib.RustOS.Writer

/-!
# rustOS: one screen, two writers

The crate has a library and a binary of the same name, and `main.rs` compiles a `mod vga_buffer` of
its own.  So there are two statics `WRITER`, both over the buffer at `0xb8000`, each with its own
column: `kernel_main` and the panic handler print through that of the binary, the interrupt handlers
through that of the library.  `Screens` is the buffer with the two columns, and each call of
`print!` or `println!` prints a text through one of them, atomically.

Beside it runs one writer that receives all texts.  The two agree as long as every text is printed
from the column the text before has ended at (`always_sameScreen`); a text that starts with a
newline, or an empty one, may be printed from any column.  Where a text ends depends on its column
and its bytes alone, so the calls of a run say whether they are all in place
(`InWidth.inPlace_iff`).  One character of the other crate in between, and the next text overwrites
it.

That a call is atomic is what the locks of `Locks` are for.  The colours are those of the two
statics, which are the same, so the column is all in which the writers can differ.
-/

namespace OSLib
namespace RustOS

/-! ## The two writers -/

/-- The two crates of the package. -/
inductive Crate where
  | bin | lib
  deriving DecidableEq

/-- `ColorCode::new(Color::Yellow, Color::Black)`. -/
def yellowOnBlack : BitVec 8 := 0 <<< 4 ||| 14

/-- The VGA buffer, and `col_pos` of the two `WRITER`s. -/
structure Screens where
  buffer : Buffer
  colPos : Crate → ℕ

/-- The `WRITER` of a crate. -/
def Screens.writer (s : Screens) (x : Crate) : Writer := ⟨s.colPos x, yellowOnBlack, s.buffer⟩

/-- `_print` in a crate. -/
def Screens.print (s : Screens) (x : Crate) (text : Text) : Option Screens := do
  let w ← (s.writer x).writeString text
  return ⟨w.buffer, Function.update s.colPos x w.colPos⟩

/-- The calls of `print!` and `println!` that share the screen.  The panic handler prints what the
panic says, and the keyboard handler prints what the key decodes to. -/
inductive Call where
  | helloWorld
  | panic (info : Text)
  | timer
  | keyboard (key : Text)

namespace Call

/-- The crate whose macro the call uses. -/
def crate : Call → Crate
  | helloWorld | panic _ => .bin
  | timer | keyboard _ => .lib

/-- What the call prints. -/
def text : Call → Text
  | helloWorld =>
    [0x48, 0x65, 0x6c, 0x6c, 0x6f, 0x2c, 0x20, 0x57, 0x6f, 0x72, 0x6c, 0x64, 0x21, newline]
  | panic info => info ++ [newline]
  | timer => [0x2e]
  | keyboard key => key

end Call

/-! ## Beside one writer -/

/-- The two writers, and one writer that receives the same texts. -/
structure Both where
  screens : Screens
  one : Writer

/-- The calls print one after the other. -/
def Prints (s : Both) (c : Call) (t : Both) : Prop :=
  s.screens.print c.crate c.text = some t.screens ∧ s.one.writeString c.text = some t.one

/-- The screen is that of the one writer. -/
def SameScreen (s : Both) : Prop := s.screens.buffer = s.one.buffer

/-- The call prints from the column at which the texts before have ended; or it prints nothing, or a
newline first. -/
def InPlace (s : Both) (c : Call) : Prop :=
  s.screens.colPos c.crate = s.one.colPos ∨ c.text = [] ∨ c.text.head? = some newline

/-- All columns are at 0. -/
def Both.start (b : Buffer) : Both := ⟨⟨b, fun _ => 0⟩, ⟨0, yellowOnBlack, b⟩⟩

/-- The terminal all calls of a run have printed on. -/
def printed (b : Buffer) (tr : List (Call × Both)) : Terminal :=
  (Terminal.start b 0).print yellowOnBlack (tr.flatMap fun x => x.1.text)

variable {s t : Both} {c : Call} {b : Buffer} {x : Crate} {text : Text} {tr : List (Call × Both)}

/-! ## Every run goes on -/

/-- The columns stay on the screen. -/
structure InWidth (s : Both) : Prop where
  screens : ∀ x, s.screens.colPos x ≤ bufferWidth
  one : s.one.colPos ≤ bufferWidth

theorem inWidth_start (b : Buffer) : InWidth (Both.start b) :=
  ⟨fun _ => Nat.zero_le _, Nat.zero_le _⟩

/-- The column at which a text ends that is printed from a column. -/
def endColumn (col : ℕ) (text : Text) : ℕ := (text.foldl Terminal.advance (24, col)).2

/-- A writer whose column is on the screen prints every text. -/
theorem exists_writeString {w : Writer} (h : w.colPos ≤ bufferWidth) (text : Text) :
    ∃ w', w.writeString text = some w' ∧ w'.colPos = endColumn w.colPos text ∧
      w'.colPos ≤ bufferWidth := by
  obtain ⟨w', hw', -, hs⟩ := (shows_start w.buffer w.color h).writeString text
  have hcursor := Terminal.cursor_print (Terminal.start w.buffer w.colPos) w.color text
  refine ⟨w', hw', ?_, hs.col ▸ hs.col_le⟩
  rw [hs.col]
  exact congrArg Prod.snd hcursor

/-- What `_print` does. -/
theorem print_eq {u : Screens} : u.print x text = ((u.writer x).writeString text).map fun w =>
    ⟨w.buffer, Function.update u.colPos x w.colPos⟩ := by
  unfold Screens.print
  cases (u.writer x).writeString text <;> rfl

/-- **The columns after a call**: that of the one writer and that of the crate have moved. -/
theorem InWidth.prints (h : InWidth s) (hp : Prints s c t) : InWidth t ∧
    t.one.colPos = endColumn s.one.colPos c.text ∧
    t.screens.colPos = Function.update s.screens.colPos c.crate
      (endColumn (s.screens.colPos c.crate) c.text) := by
  obtain ⟨w, hw, hcol, hle⟩ := exists_writeString
    (show (s.screens.writer c.crate).colPos ≤ bufferWidth from h.screens _) c.text
  obtain ⟨w₁, hw₁, hone, hle₁⟩ := exists_writeString h.one c.text
  obtain ⟨hscreens, hwriter⟩ := hp
  obtain rfl : w₁ = t.one := Option.some.inj (hw₁.symm.trans hwriter)
  rw [print_eq, hw] at hscreens
  have hpos : t.screens.colPos = Function.update s.screens.colPos c.crate w.colPos := by
    rw [← Option.some.inj hscreens]
  refine ⟨⟨fun x => ?_, hle₁⟩, hone, hpos.trans (congrArg _ hcol)⟩
  rw [hpos]
  by_cases hx : x = c.crate
  · subst hx
    simpa only [Function.update_self] using hle
  · simpa only [Function.update_of_ne hx] using h.screens x

theorem InWidth.exists_prints (h : InWidth s) (c : Call) : ∃ t, Prints s c t ∧ InWidth t := by
  obtain ⟨w, hw, -⟩ := exists_writeString
    (show (s.screens.writer c.crate).colPos ≤ bufferWidth from h.screens _) c.text
  obtain ⟨w₁, hw₁, -⟩ := exists_writeString h.one c.text
  have hp : Prints s c ⟨⟨w.buffer, Function.update s.screens.colPos c.crate w.colPos⟩, w₁⟩ := by
    refine ⟨?_, hw₁⟩
    rw [print_eq, hw]
    rfl
  exact ⟨_, hp, (h.prints hp).1⟩

theorem InWidth.exists_run (h : InWidth s) (calls : List Call) :
    ∃ tr, tr.map Prod.fst = calls ∧ Always Prints s tr := by
  induction calls generalizing s with
  | nil => exact ⟨[], rfl, trivial⟩
  | cons c calls ih =>
    obtain ⟨t, ht, hwidth⟩ := h.exists_prints c
    obtain ⟨tr, rfl, htr⟩ := ih hwidth
    exact ⟨(c, t) :: tr, rfl, ht, htr⟩

/-! ## Where the two agree -/

/-- The one writer shows the terminal, and the screen is its own. -/
structure Agrees (s : Both) (T : Terminal) : Prop where
  same : SameScreen s
  color : s.one.color = yellowOnBlack
  shows : Shows s.one T

theorem agrees_start (b : Buffer) : Agrees (Both.start b) (Terminal.start b 0) :=
  ⟨rfl, rfl, shows_start _ _ (Nat.zero_le _)⟩

/-- A text that starts with a newline goes to the same place from every column. -/
theorem writeString_newline (w : Writer) (col : ℕ) (text : Text) :
    Writer.writeString { w with colPos := col } (newline :: text) =
      w.writeString (newline :: text) := by
  have hchar (w : Writer) : w.writeChar newline = w.newLine := by
    unfold Writer.writeChar Writer.writeByte
    rw [if_pos (.inr rfl), if_pos rfl]
  unfold Writer.writeString
  rw [List.foldlM_cons, List.foldlM_cons, hchar, hchar, newLine_eq, newLine_eq]

/-- **One call in place** keeps the agreement. -/
theorem Agrees.prints {T : Terminal} (h : Agrees s T) (hp : Prints s c t) (hin : InPlace s c) :
    Agrees t (T.print yellowOnBlack c.text) := by
  obtain ⟨hscreens, hone⟩ := hp
  obtain ⟨w, hw, hcolor, hshows⟩ := h.shows.writeString c.text
  obtain rfl : w = t.one := Option.some.inj (hw.symm.trans hone)
  rw [h.color] at hcolor hshows
  refine ⟨?_, hcolor, hshows⟩
  -- the writer of the crate differs from the one writer in its column at most
  have hwriter : s.screens.writer c.crate =
      { s.one with colPos := s.screens.colPos c.crate } := by
    unfold Screens.writer
    rw [h.same, ← h.color]
  rw [print_eq, hwriter] at hscreens
  rcases hin with hcol | hnil | hnew
  · rw [hcol, hone] at hscreens
    exact congrArg Screens.buffer (Option.some.inj hscreens).symm
  · rw [hnil] at hscreens hone
    rw [SameScreen, ← congrArg Screens.buffer (Option.some.inj hscreens), ← Option.some.inj hone]
  · obtain ⟨text, htext⟩ : ∃ text, c.text = newline :: text := by
      cases hc : c.text with
      | nil => rw [hc] at hnew; cases hnew
      | cons x text =>
        rw [hc] at hnew
        exact ⟨text, congrArg (· :: text) (Option.some.inj hnew)⟩
    rw [htext, writeString_newline, ← htext, hone] at hscreens
    exact congrArg Screens.buffer (Option.some.inj hscreens).symm

/-- A whole run of calls in place. -/
theorem Agrees.run {T : Terminal} (h : Agrees s T) (hrun : Always Prints s tr)
    (hin : Always (fun s c _ => InPlace s c) s tr) :
    Always (fun _ _ t => SameScreen t) s tr ∧
      Agrees (final s tr) (T.print yellowOnBlack (tr.flatMap fun x => x.1.text)) := by
  induction tr generalizing s T with
  | nil => exact ⟨trivial, h⟩
  | cons x tr ih =>
    have hx := h.prints hrun.1 hin.1
    obtain ⟨hsame, hend⟩ := ih hx hrun.2 hin.2
    refine ⟨⟨hx.same, hsame⟩, ?_⟩
    unfold Terminal.print at hend ⊢
    rwa [List.flatMap_cons, List.foldl_append]

/-- **The two writers act as one** in every run whose texts are printed in place: after every call
the screen is that of one writer, and what has been printed stands on it until its row scrolls
off. -/
theorem always_sameScreen (b : Buffer) (calls : List Call) :
    ∃ tr, tr.map Prod.fst = calls ∧ Always Prints (Both.start b) tr ∧
      (Always (fun s c _ => InPlace s c) (Both.start b) tr →
        Always (fun _ _ t => SameScreen t) (Both.start b) tr ∧
        ∀ tr₁ tr₂, tr = tr₁ ++ tr₂ → ∀ r j, (printed b tr₁).Before r j →
          ∀ i : Fin bufferHeight, (printed b tr).last + 1 - bufferHeight + i = r →
            (final (Both.start b) tr).screens.buffer i j = (printed b tr₁).rows r j) := by
  obtain ⟨tr, hcalls, hrun⟩ := (inWidth_start b).exists_run calls
  refine ⟨tr, hcalls, hrun, fun hin => ?_⟩
  obtain ⟨hsame, hend⟩ := (agrees_start b).run hrun hin
  refine ⟨hsame, ?_⟩
  rintro tr₁ tr₂ rfl r j hbefore i rfl
  have hkept : (printed b tr₁).KeptBy (printed b (tr₁ ++ tr₂)) := by
    unfold printed
    rw [List.flatMap_append, Terminal.print, Terminal.print, List.foldl_append]
    exact Terminal.keptBy_print _ _ _
  rw [hend.same, hend.shows.buffer, ← (hkept _ _ hbefore).2]
  rfl

/-! ## The columns alone

Where a text ends depends on where it began and on nothing else of the screen, so whether the calls
of a run are in place can be told from the calls. -/

/-- The calls are in place, where the one writer is at `col` and the crates are at `colPos`. -/
def InColumns (col : ℕ) (colPos : Crate → ℕ) : List Call → Prop
  | [] => True
  | c :: calls =>
    (colPos c.crate = col ∨ c.text = [] ∨ c.text.head? = some newline) ∧
      InColumns (endColumn col c.text)
        (Function.update colPos c.crate (endColumn (colPos c.crate) c.text)) calls

instance InColumns.decidable :
    (col : ℕ) → (colPos : Crate → ℕ) → (calls : List Call) → Decidable (InColumns col colPos calls)
  | _, _, [] => .isTrue trivial
  | col, colPos, c :: calls =>
    have := InColumns.decidable (endColumn col c.text)
      (Function.update colPos c.crate (endColumn (colPos c.crate) c.text)) calls
    inferInstanceAs (Decidable (_ ∧ _))

/-- **Calls in place**, told from the calls of the run. -/
theorem InWidth.inPlace_iff (h : InWidth s) (hrun : Always Prints s tr) :
    Always (fun s c _ => InPlace s c) s tr ↔
      InColumns s.one.colPos s.screens.colPos (tr.map Prod.fst) := by
  induction tr generalizing s with
  | nil => exact Iff.rfl
  | cons x tr ih =>
    obtain ⟨hwidth, hone, hpos⟩ := h.prints hrun.1
    have hrest := ih hwidth hrun.2
    rw [hone, hpos] at hrest
    exact and_congr Iff.rfl hrest

/-- Beside the greeting of `kernel_main` there are ticks and a key, and a panic on a line of its
own: what the library prints begins where the binary has stopped. -/
theorem interleaved_sameScreen :
    ∃ tr, tr.map Prod.fst =
        [.helloWorld, .timer, .keyboard [0x61], .timer, .panic [newline, 0x62]] ∧
      Always Prints (Both.start fun _ => blankRow 0x07) tr ∧
      Always (fun _ _ t => SameScreen t) (Both.start fun _ => blankRow 0x07) tr := by
  obtain ⟨tr, hcalls, hrun, hsame⟩ := always_sameScreen (fun _ => blankRow 0x07)
    [.helloWorld, .timer, .keyboard [0x61], .timer, .panic [newline, 0x62]]
  refine ⟨tr, hcalls, hrun, (hsame ?_).1⟩
  rw [(inWidth_start _).inPlace_iff hrun, hcalls]
  decide

/-- The first character of the row above the last one. -/
def firstChar (b : Buffer) : BitVec 8 := (b ⟨23, by decide⟩ ⟨0, by decide⟩).ascii

/-- The first character of a text printed from the start of a row stays when the text ends with the
row. -/
theorem firstChar_print {T : Terminal} {x : BitVec 8} (s : Text) (hlast : T.last = 24)
    (hcol : T.col = 0) (hx : x ≠ newline ∧ shown x = x)
    (hs : s.foldl Terminal.advance (24, 1) = (25, 0)) :
    firstChar (T.print yellowOnBlack (x :: s)).screen = x := by
  obtain ⟨T', hT'⟩ : ∃ T', T' = T.put yellowOnBlack x := ⟨_, rfl⟩
  have hput : T'.last = 24 ∧ T'.col = 1 ∧ (T'.rows 24 ⟨0, by decide⟩).ascii = x := by
    have hwidth : T.col ≠ bufferWidth := by
      rw [hcol]
      decide
    rw [hT', Terminal.put, if_neg hx.1, if_neg hwidth, hx.2, Terminal.place]
    refine ⟨hlast, by rw [hcol], ?_⟩
    simp only [hlast, hcol, Function.update_self, if_true]
  have hcursor := Terminal.cursor_print T' yellowOnBlack s
  rw [hput.1, hput.2.1, hs] at hcursor
  have hkept := Terminal.keptBy_print T' yellowOnBlack s 24 ⟨0, by decide⟩
    (.inr ⟨hput.1.symm, hput.2.1 ▸ Nat.one_pos⟩)
  unfold firstChar Terminal.screen
  rw [Terminal.print_cons, ← hT', (Prod.mk.inj hcursor).1]
  exact (congrArg ScreenChar.ascii hkept.2).trans hput.2.2

/-- The text of `kernel_main` starts at the column of the binary, whatever stands there. -/
theorem firstChar_helloWorld {u v : Screens} (h0 : u.colPos .bin = 0)
    (h : u.print .bin Call.helloWorld.text = some v) : firstChar v.buffer = 0x48 := by
  obtain ⟨w, hw, -, hs⟩ := (shows_start u.buffer yellowOnBlack
    (Nat.zero_le bufferWidth)).writeString Call.helloWorld.text
  rw [print_eq, Screens.writer, h0, hw] at h
  rw [← Option.some.inj h]
  show firstChar w.buffer = 0x48
  rw [hs.buffer]
  exact firstChar_print _ rfl rfl (by decide) (by decide)

/-- **A tick is lost.**  A timer interrupt prints its dot before `kernel_main` prints, and the text
of `kernel_main` overwrites it. -/
theorem tick_not_sameScreen :
    ∃ tr, tr.map Prod.fst = [.timer, .helloWorld] ∧
      Always Prints (Both.start fun _ => blankRow 0x07) tr ∧
      ¬ SameScreen (final (Both.start fun _ => blankRow 0x07) tr) := by
  obtain ⟨s₁, h₁, hwidth⟩ := (inWidth_start fun _ => blankRow 0x07).exists_prints .timer
  obtain ⟨s₂, h₂, -⟩ := hwidth.exists_prints .helloWorld
  refine ⟨[(.timer, s₁), (.helloWorld, s₂)], rfl, ⟨h₁, h₂, trivial⟩, fun hsame => ?_⟩
  have hH : firstChar s₂.screens.buffer = 0x48 := by
    refine firstChar_helloWorld ?_ h₂.1
    have htick := h₁.1
    rw [print_eq] at htick
    obtain ⟨w, -, hw⟩ := Option.map_eq_some_iff.mp htick
    rw [← hw]
    rfl
  -- the one writer still shows the dot there
  have hdot : firstChar s₂.one.buffer = 0x2e := by
    obtain ⟨w, hw, -, hs⟩ := (agrees_start fun _ => blankRow 0x07).shows.writeString
      (Call.timer.text ++ Call.helloWorld.text)
    rw [writeString_append, h₁.2, Option.bind_some, h₂.2] at hw
    rw [Option.some.inj hw, hs.buffer]
    exact firstChar_print _ rfl rfl (by decide) (by decide)
  have hbuffer : s₂.screens.buffer = s₂.one.buffer := hsame
  rw [hbuffer, hdot] at hH
  cases hH

end RustOS
end OSLib
