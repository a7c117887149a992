import OSLib.Print.Number
import OSLib.Print.TextGrid
import OSLib.Lib.String

/-!
# `__vsprintf` and `color_printk`

A format string is the list of its bytes before the NUL, and `fmt` is what is left of it: reading a
`fmt` that has come to the end gives the NUL, and moving it further is a fault.  The variadic
arguments are 64-bit words, counted from 0.  `str` only ever moves forward from `__buf`, one byte a
store, so what has been written is a list of bytes, and the NUL at the end goes behind them.  The
strings that arguments point to do not lie in `__buf`.

The other fault is a read through a null pointer: `strlen` reads the string it is given.

Stores to `__buf` are not stores to memory here: the text is a list, so that how long it gets is a
question that `Buffer` can ask afterwards.  No conversion of the code has an effect elsewhere; there
is no `%n`.

Of the arguments nothing is known but their words.  The code reads an `int32` or `int64` from each
as the conversion says, and a format with fewer arguments than conversions reads words that its
caller did not pass: how many are read is counted (`Printing.arg`).
-/

namespace OSLib
namespace Print

/-- An access no C program may make. -/
inductive Fault where
  /-- through a null pointer -/
  | null
  /-- behind the NUL of the format string -/
  | format
  deriving DecidableEq

/-- The bytes written from `__buf` to `str`, and the number of arguments taken. -/
structure Printing where
  text : List (BitVec 8)
  arg : ℕ
  deriving DecidableEq

/-! ## The format string -/

/-- `*fmt`. -/
def cur (fmt : List (BitVec 8)) : BitVec 8 := fmt.headD 0

/-- `fmt++`. -/
def next : List (BitVec 8) → Except Fault (List (BitVec 8))
  | [] => .error .format
  | _ :: fmt => .ok fmt

/-- `is_digit`. -/
def isDigit (c : BitVec 8) : Bool := 0x30 ≤ c && c ≤ 0x39

/-- `__skip_atoi`, with the value so far. -/
def skipAtoi : List (BitVec 8) → Int32 → List (BitVec 8) × Int32
  | [], i => ([], i)
  | c :: fmt, i =>
    if isDigit c then skipAtoi fmt (i * 10 + Int32.ofNat c.toNat - 0x30) else (c :: fmt, i)

/-- The cases of the first `switch`. -/
def setFlag (c : BitVec 8) : Option (Flags → Flags) :=
  if c = 0x2d then some fun flags => { flags with left := true }
  else if c = 0x2b then some fun flags => { flags with plus := true }
  else if c = 0x20 then some fun flags => { flags with space := true }
  else if c = 0x23 then some fun flags => { flags with special := true }
  else if c = 0x30 then some fun flags => { flags with zeropad := true }
  else none

/-- The loop from the label `repeat`: `fmt++`, and again after a flag. -/
def repeatFlags : List (BitVec 8) → Flags → Except Fault (List (BitVec 8) × Flags)
  | [], _ => .error .format
  | _ :: fmt, flags =>
    match setFlag (cur fmt) with
    | some set => repeatFlags fmt (set flags)
    | none => .ok (fmt, flags)

/-! ## The arguments -/

/-- `va_arg(args, int32)`. -/
def int32Arg (v : BitVec 64) : Int32 := Int32.ofBitVec (v.setWidth 32)

/-- `va_arg(args, int32)`, widened to the parameter `num` of `__number`. -/
def widened (v : BitVec 64) : BitVec 64 := (v.setWidth 32).signExtend 64

section

variable (args : ℕ → BitVec 64)

/-- The field width: the rest of the format, the next argument, the width and the flags. -/
def fieldWidth (fmt : List (BitVec 8)) (arg : ℕ) (flags : Flags) :
    Except Fault (List (BitVec 8) × ℕ × Int32 × Flags) :=
  if isDigit (cur fmt) then .ok ((skipAtoi fmt 0).1, arg, (skipAtoi fmt 0).2, flags)
  else if cur fmt = 0x2a then do
    let fmt ← next fmt
    let width := int32Arg (args arg)
    if width < 0 then .ok (fmt, arg + 1, -width, { flags with left := true })
    else .ok (fmt, arg + 1, width, flags)
  else .ok (fmt, arg, -1, flags)

/-- The precision: the rest of the format, the next argument and the precision. -/
def getPrecision (fmt : List (BitVec 8)) (arg : ℕ) : Except Fault (List (BitVec 8) × ℕ × Int32) :=
  if cur fmt = 0x2e then do
    let fmt ← next fmt
    let (fmt, arg, precision) ←
      if isDigit (cur fmt) then .ok ((skipAtoi fmt 0).1, arg, (skipAtoi fmt 0).2)
      else if cur fmt = 0x2a then do
        let fmt ← next fmt
        .ok (fmt, arg + 1, int32Arg (args arg))
      else .ok (fmt, arg, -1)
    .ok (fmt, arg, if precision < 0 then 0 else precision)
  else .ok (fmt, arg, -1)

end

/-- `'h'`, `'l'`, `'L'` or `'Z'`. -/
def isQualifier (c : BitVec 8) : Bool := c == 0x68 || c == 0x6c || c == 0x4c || c == 0x5a

/-- The qualifier. -/
def getQualifier (fmt : List (BitVec 8)) : Except Fault (List (BitVec 8) × Option (BitVec 8)) :=
  if isQualifier (cur fmt) then do
    let rest ← next fmt
    .ok (rest, some (cur fmt))
  else .ok (fmt, none)

/-! ## The conversions -/

/-- The case `'c'`. -/
def char (flags : Flags) (width : Int32) (v : BitVec 64) : List (BitVec 8) :=
  let before := if flags.left then ([], width) else countdownPre 0x20 0 width
  before.1 ++ [(int32Arg v).toBitVec.setWidth 8] ++ (countdownPre 0x20 0 before.2).1

/-- `strlen(s)`, which reads the string. -/
def strlenArg (mem : Mem) (s : BitVec 64) : Except Fault Int32 :=
  if s = 0 then .error .null else .ok (Lib.strlen mem s)

/-- The bytes of a string that are shown. -/
def shownLength (precision len : Int32) : Int32 :=
  if precision < 0 then len else if len > precision then precision else len

/-- The case `'s'`. -/
def string (mem : Mem) (flags : Flags) (width precision : Int32) (s : BitVec 64) :
    Except Fault (List (BitVec 8)) := do
  let s := if s = 0 then 0 else s -- `if (!s) s = '\0'`
  let len := shownLength precision (← strlenArg mem s)
  let before := if flags.left then ([], width) else countdown 0x20 len width
  .ok (before.1 ++ (List.range len.toInt.toNat).map (fun i => mem (s + BitVec.ofNat 64 i)) ++
    (countdown 0x20 len before.2).1)

/-- A call of `__number`; if it returned a null pointer the next byte would be stored there. -/
def integer (num : BitVec 64) (base : ℕ) (width precision : Int32) (flags : Flags) :
    Except Fault (List (BitVec 8)) :=
  match number num base width precision flags with
  | some text => .ok text
  | none => .error .null

/-- The argument of an integer conversion. -/
def integerArg (qualifier : Option (BitVec 8)) (v : BitVec 64) : BitVec 64 :=
  if qualifier = some 0x6c then v else widened v

/-- The second `switch`: what is appended, and how many arguments are taken. -/
def convert (mem : Mem) (letter : BitVec 8) (flags : Flags) (width precision : Int32)
    (qualifier : Option (BitVec 8)) (v : BitVec 64) : Except Fault (List (BitVec 8) × ℕ) :=
  if letter = 0x63 then .ok (char flags width v, 1)
  else if letter = 0x73 then (string mem flags width precision v).map (·, 1)
  else if letter = 0x6f then
    (integer (integerArg qualifier v) 8 width precision flags).map (·, 1)
  else if letter = 0x70 then
    if width = -1 then (integer v 16 16 precision { flags with zeropad := true }).map (·, 1)
    else (integer v 16 width precision flags).map (·, 1)
  else if letter = 0x78 then
    (integer (integerArg qualifier v) 16 width precision { flags with small := true }).map (·, 1)
  else if letter = 0x58 then
    (integer (integerArg qualifier v) 16 width precision flags).map (·, 1)
  else if letter = 0x64 ∨ letter = 0x69 then
    (integer (integerArg qualifier v) 10 width precision { flags with sign := true }).map (·, 1)
  else if letter = 0x75 then
    (integer (integerArg qualifier v) 10 width precision flags).map (·, 1)
  else if letter = 0x25 then .ok ([0x25], 0)
  else .ok (if letter = 0 then [0x25] else [0x25, letter], 0)

/-! ## The loop -/

variable (mem : Mem) (args : ℕ → BitVec 64)

/-- A round of the loop that has met a `%`. -/
def conversion (fmt : List (BitVec 8)) (p : Printing) :
    Except Fault (List (BitVec 8) × Printing) := do
  let (fmt, flags) ← repeatFlags fmt {}
  let (fmt, arg, width, flags) ← fieldWidth args fmt p.arg flags
  let (fmt, arg, precision) ← getPrecision args fmt arg
  let (fmt, qualifier) ← getQualifier fmt
  let (text, used) ← convert mem (cur fmt) flags width precision qualifier (args arg)
  -- at the NUL `fmt--` of the last case takes back the `fmt++` of the loop
  let fmt ← if cur fmt = 0 then .ok fmt else next fmt
  .ok (fmt, ⟨p.text ++ text, arg + used⟩)

/-- A round of the loop, with the `fmt++` at its end. -/
def round (fmt : List (BitVec 8)) (p : Printing) : Except Fault (List (BitVec 8) × Printing) :=
  if cur fmt ≠ 0x25 then do
    let rest ← next fmt
    .ok (rest, ⟨p.text ++ [cur fmt], p.arg⟩)
  else conversion mem args fmt p

end Print
end OSLib
