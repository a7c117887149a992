import OSLib.Print.Texts
import OSLib.Trap.Handlers

/-!
# What the handlers print

Each C function of `trap.c` prints what it has been called with, in one line, and loops.  Five of
them go on to explain the error code.  The calls of `color_printk` are listed here with their
formats and arguments, and `Fault.report` is the text they make.

`fault_reported` follows an exception from its delivery to the text: the numbers printed are those
of the program that was interrupted.  `report_eq_iff` says that nothing gets lost on the way: the
text determines the exception and all the numbers.

`color_printk` is called with the same `__buf` each time, so that every line has to fit by itself.
The formats are those of the source, byte for byte, and the text is computed by the model of
`__vsprintf`, with nothing said about it in advance; `Texts` evaluates it for numbers that are not
known.  Where the text goes on the screen is the subject of `TextGrid`.
-/

namespace OSLib
namespace Trap

open X86 Print

/-- A call of `color_printk`. -/
structure Call where
  fmt : String
  args : List (BitVec 64)

namespace Call

variable (mem : Mem) (c : Call)

/-- The text of a call. -/
def text : Except Print.Fault (List (BitVec 8)) :=
  (vsprintf mem (fun i => c.args.getD i 0) (bytes c.fmt)).map Printing.text

/-- The text of one call after another. -/
def texts (mem : Mem) : List Call → Except Print.Fault (List (BitVec 8))
  | [] => .ok []
  | c :: cs => do
    let first ← text mem c
    let rest ← texts mem cs
    .ok (first ++ rest)

end Call

/-- The texts that explain an error code. -/
inductive Note where
  | external | gateInIdt | gdtOrLdt | inLdt | inGdt
  | notPresent | write | read | user | supervisor | reservedBit | instructionFetch | newline
  deriving DecidableEq

namespace Note

/-- The text of a note. -/
def text : Note → String
  | external =>
    "The exception occurred during delivery of an event external to " ++
      "the program, such as an interrupt or an earlier exception.\n"
  | gateInIdt => "Refers to a gate descriptor in the IDT;\n"
  | gdtOrLdt => "Refers to a descriptor in the GDT or the current LDT;\n"
  | inLdt => "Refers to a segment or gate descriptor in the LDT;\n"
  | inGdt => "Refers to a descriptor in the current GDT;\n"
  | notPresent => "Page Not-Present, \t"
  | write => "Write Cause Fault, \t"
  | read => "Read Cause Fault, \t"
  | user => "Fault in user(3)\t"
  | supervisor => "Fault in supervisor(0, 1, 2)\t"
  | reservedBit => ", Reserved Bit Cause Fault\t"
  | instructionFetch => ", Instruction fetch Cause Fault"
  | newline => "\n"

/-- The call that prints it. -/
def call (n : Note) : Call := ⟨n.text, []⟩

end Note

namespace Fault

/-- How the line of a handler begins. -/
def label : Fault → String
  | divideError => "do_divide_error(0)"
  | debug => "do_debug(1)"
  | nmi => "do_nmi(2)"
  | int3 => "do_int3(3)"
  | overflow => "do_overflow(4)"
  | bounds => "do_bounds(5)"
  | undefinedOpcode => "do_undefined_opcode(6)"
  | devNotAvailable => "do_dev_not_available(7)"
  | doubleFault => "do_double_fault(8)"
  | coprocessorSegmentOverrun => "do_coprocessor_segment_overrun(9)"
  | invalidTss => "do_invalid_TSS(10)"
  | segmentNotPresent => "do_segment_not_present(11)"
  | stackSegmentFault => "do_stack_segment_fault(12)"
  | generalProtection => "do_general_protection(13)"
  | pageFault => "do_page_fault(14)"
  | x87FpuError => "do_x87_FPU_error(16)"
  | alignmentCheck => "do_alignment_check(17)"
  | machineCheck => "do_machine_check(18)"
  | simdException => "do_SIMD_exception(19)"
  | virtualizationException => "do_virtualization_exception(20)"

/-- The first call of every handler. -/
def header (e : Fault) (rsp errorCode rip : BitVec 64) : Call :=
  ⟨e.label ++ ", ERROR_CODE: %#018lx, RSP: %#018lx, RIP: %#018lx\n", [errorCode, rsp, rip]⟩

/-- The notes of `do_invalid_TSS` and the three handlers after it. -/
def selectorNotes (errorCode : BitVec 64) : List Note :=
  (if errorCode &&& 0x01 ≠ 0 then [.external] else []) ++
  (if errorCode &&& 0x02 ≠ 0 then [.gateInIdt] else [.gdtOrLdt]) ++
  (if errorCode &&& 0x02 = 0 then if errorCode &&& 0x04 ≠ 0 then [.inLdt] else [.inGdt] else [])

/-- The notes of `do_page_fault`. -/
def pageFaultNotes (errorCode : BitVec 64) : List Note :=
  (if ¬ errorCode &&& 0x01 ≠ 0 then [.notPresent] else []) ++
  (if errorCode &&& 0x02 ≠ 0 then [.write] else [.read]) ++
  (if errorCode &&& 0x04 ≠ 0 then [.user] else [.supervisor]) ++
  (if errorCode &&& 0x08 ≠ 0 then [.reservedBit] else []) ++
  (if errorCode &&& 0x10 ≠ 0 then [.instructionFetch] else []) ++
  [.newline]

/-- The other calls of a handler. -/
def details (errorCode cr2 : BitVec 64) : Fault → List Call
  | invalidTss | segmentNotPresent | stackSegmentFault | generalProtection =>
    (selectorNotes errorCode).map Note.call ++
      [⟨"Segment Selector Index: %#010x\n", [errorCode &&& 0xfff8]⟩]
  | pageFault => (pageFaultNotes errorCode).map Note.call ++ [⟨"CR2: %#018lx\n", [cr2]⟩]
  | _ => []

/-- All calls of a handler. -/
def calls (e : Fault) (rsp errorCode rip cr2 : BitVec 64) : List Call :=
  e.header rsp errorCode rip :: e.details errorCode cr2

/-- The C function, entered in the state `t`: it prints its arguments, and the word at
`rsp + 0x98`. -/
def handlerCalls (e : Fault) (t : Cpu) (cr2 : BitVec 64) : List Call :=
  e.calls (t.gpr .rdi) (t.gpr .rsi) (t.mem.read (t.gpr .rdi + 0x98)) cr2

/-! ## The text -/

/-- The text of the calls behind the first one. -/
def detailsText (errorCode cr2 : BitVec 64) : Fault → List (BitVec 8)
  | invalidTss | segmentNotPresent | stackSegmentFault | generalProtection =>
    (selectorNotes errorCode).flatMap (bytes ·.text) ++
      (bytes "Segment Selector Index: " ++ hexText 10 (errorCode &&& 0xfff8) ++ bytes "\n")
  | pageFault =>
    (pageFaultNotes errorCode).flatMap (bytes ·.text) ++
      (bytes "CR2: " ++ hexField cr2 ++ bytes "\n")
  | _ => []

/-- **The text of a handler.** -/
def report (e : Fault) (rsp errorCode rip cr2 : BitVec 64) : List (BitVec 8) :=
  bytes e.label ++ bytes ", ERROR_CODE: " ++ hexField errorCode ++ bytes ", RSP: " ++
    hexField rsp ++ bytes ", RIP: " ++ hexField rip ++ bytes "\n" ++ e.detailsText errorCode cr2

end Fault

variable {mem : Mem} {c : Call} {cs : List Call} {first rest : List (BitVec 8)} {e e' : Fault}
  {rsp rsp' errorCode errorCode' rip rip' cr2 cr2' : BitVec 64}

theorem Call.texts_cons (hc : c.text mem = .ok first) (hcs : Call.texts mem cs = .ok rest) :
    Call.texts mem (c :: cs) = .ok (first ++ rest) := by
  rw [Call.texts, hc, ok_bind, hcs, ok_bind]

theorem Call.texts_append {cs' : List Call} (hcs : Call.texts mem cs = .ok first)
    (hcs' : Call.texts mem cs' = .ok rest) : Call.texts mem (cs ++ cs') = .ok (first ++ rest) := by
  induction cs generalizing first with
  | nil =>
    obtain rfl := Except.ok.inj hcs
    exact hcs'
  | cons c cs ih =>
    rw [Call.texts] at hcs
    cases hc : c.text mem with
    | error f =>
      rw [hc] at hcs
      cases hcs
    | ok text =>
      cases htail : Call.texts mem cs with
      | error f =>
        rw [hc, htail] at hcs
        cases hcs
      | ok tail =>
        rw [hc, ok_bind, htail, ok_bind] at hcs
        rw [← Except.ok.inj hcs, List.append_assoc]
        exact Call.texts_cons hc (ih htail)

/-- The notes are literal text, and short. -/
theorem Note.literal (n : Note) : Literal (bytes n.text) ∧ (bytes n.text).length < 4096 := by
  have h : ∃ l, bytes n.text = l ∧ Literal l ∧ l.length < 4096 := by
    cases n
    case external =>
      exact ⟨_, (bytes_append _ _).trans (congrArg₂ (· ++ ·) (bytes_ofList rfl)
        (bytes_ofList rfl)), by decide +kernel⟩
    all_goals exact ⟨_, bytes_ofList rfl, by decide +kernel⟩
  obtain ⟨l, rfl, hl⟩ := h
  exact hl

/-- A note is printed as it stands. -/
theorem Note.text_call (n : Note) : n.call.text mem = .ok (bytes n.text) := by
  have hloop : vsprintfLoop mem (fun i => n.call.args.getD i 0) (bytes n.text ++ []) ⟨[], 0⟩ =
      vsprintfLoop mem (fun i => n.call.args.getD i 0) [] ⟨[] ++ bytes n.text, 0⟩ :=
    vsprintfLoop_bytes n.literal.1
  rw [List.append_nil, vsprintf_nil] at hloop
  rw [Call.text, vsprintf]
  exact congrArg (Except.map Printing.text) hloop

theorem Note.texts_calls (ns : List Note) :
    Call.texts mem (ns.map Note.call) = .ok (ns.flatMap (bytes ·.text)) := by
  induction ns with
  | nil => rfl
  | cons n ns ih => exact Call.texts_cons n.text_call ih

namespace Fault

/-- The label is literal text that ends with the vector. -/
theorem label_spec (e : Fault) : Literal (bytes e.label) ∧ 0x2c ∉ bytes e.label ∧
    (bytes e.label).length < 40 ∧
    Numerals.lastNumber 10 ((bytes e.label).takeWhile (· ≠ 0x29)) = e.vector := by
  have h : ∃ l, bytes e.label = l ∧ Literal l ∧ 0x2c ∉ l ∧ l.length < 40 ∧
      Numerals.lastNumber 10 (l.takeWhile (· ≠ 0x29)) = e.vector := by
    cases e <;> exact ⟨_, bytes_ofList rfl, by decide +kernel⟩
  obtain ⟨l, rfl, hl⟩ := h
  exact hl

/-- The line that every handler prints. -/
theorem text_header (e : Fault) (rsp errorCode rip : BitVec 64) :
    (e.header rsp errorCode rip).text mem = .ok (bytes e.label ++ bytes ", ERROR_CODE: " ++
      hexField errorCode ++ bytes ", RSP: " ++ hexField rsp ++ bytes ", RIP: " ++ hexField rip ++
      bytes "\n") := by
  have hfmt : bytes (e.header rsp errorCode rip).fmt = bytes e.label ++ (bytes ", ERROR_CODE: " ++
      (bytes "%#018lx" ++ (bytes ", RSP: " ++ (bytes "%#018lx" ++ (bytes ", RIP: " ++
        (bytes "%#018lx" ++ (bytes "\n" ++ []))))))) := by
    rw [header, bytes_append]
    exact congrArg (bytes e.label ++ ·) (by simp [bytes])
  have hcode : Literal (bytes ", ERROR_CODE: ") := literal_ofList rfl (by decide)
  have hrsp : Literal (bytes ", RSP: ") := literal_ofList rfl (by decide)
  have hrip : Literal (bytes ", RIP: ") := literal_ofList rfl (by decide)
  have hnewline : Literal (bytes "\n") := literal_ofList rfl (by decide)
  rw [Call.text, hfmt, vsprintf, vsprintfLoop_bytes e.label_spec.1, vsprintfLoop_bytes hcode,
    vsprintfLoop_hex, vsprintfLoop_bytes hrsp, vsprintfLoop_hex, vsprintfLoop_bytes hrip,
    vsprintfLoop_hex, vsprintfLoop_bytes hnewline, vsprintf_nil]
  rfl

/-- The line of the selector index, whose argument has 16 bits. -/
theorem text_selector (errorCode : BitVec 64) :
    Call.text mem ⟨"Segment Selector Index: %#010x\n", [errorCode &&& 0xfff8]⟩ =
      .ok (bytes "Segment Selector Index: " ++ hexText 10 (errorCode &&& 0xfff8) ++
        bytes "\n") := by
  have hfmt : bytes "Segment Selector Index: %#010x\n" = bytes "Segment Selector Index: " ++
      (bytes "%#010x" ++ (bytes "\n" ++ [])) := by simp [bytes]
  have htext : Literal (bytes "Segment Selector Index: ") := literal_ofList rfl (by decide)
  have hnewline : Literal (bytes "\n") := literal_ofList rfl (by decide)
  have hwidened : widened (errorCode &&& 0xfff8) = errorCode &&& 0xfff8 := by
    have hlt : (errorCode &&& 0xfff8).toNat < 2 ^ 16 := by
      rw [BitVec.toNat_and]
      exact Nat.and_lt_two_pow _ (by decide)
    have hlow : ((errorCode &&& 0xfff8).setWidth 32).toNat = (errorCode &&& 0xfff8).toNat := by
      rw [BitVec.toNat_setWidth]
      omega
    refine BitVec.eq_of_toNat_eq ?_
    rw [toNat_widened, hlow, if_neg (by omega), Nat.add_zero]
  rw [Call.text, hfmt, vsprintf, vsprintfLoop_bytes htext, vsprintfLoop_hex_10,
    vsprintfLoop_bytes hnewline, vsprintf_nil]
  show Except.ok (_ ++ hexText 10 (widened (errorCode &&& 0xfff8)) ++ _) = _
  rw [hwidened]
  rfl

/-- The line of `cr2`. -/
theorem text_cr2 (cr2 : BitVec 64) :
    Call.text mem ⟨"CR2: %#018lx\n", [cr2]⟩ =
      .ok (bytes "CR2: " ++ hexField cr2 ++ bytes "\n") := by
  have hfmt : bytes "CR2: %#018lx\n" =
      bytes "CR2: " ++ (bytes "%#018lx" ++ (bytes "\n" ++ [])) := by simp [bytes]
  have htext : Literal (bytes "CR2: ") := literal_ofList rfl (by decide)
  have hnewline : Literal (bytes "\n") := literal_ofList rfl (by decide)
  rw [Call.text, hfmt, vsprintf, vsprintfLoop_bytes htext, vsprintfLoop_hex,
    vsprintfLoop_bytes hnewline, vsprintf_nil]
  rfl

/-- The calls behind the first one. -/
theorem texts_details (e : Fault) (errorCode cr2 : BitVec 64) :
    Call.texts mem (e.details errorCode cr2) = .ok (e.detailsText errorCode cr2) := by
  have hselector : Call.texts mem ((selectorNotes errorCode).map Note.call ++
      [⟨"Segment Selector Index: %#010x\n", [errorCode &&& 0xfff8]⟩]) =
        .ok ((selectorNotes errorCode).flatMap (bytes ·.text) ++
          (bytes "Segment Selector Index: " ++ hexText 10 (errorCode &&& 0xfff8) ++ bytes "\n" ++
            [])) :=
    Call.texts_append (Note.texts_calls _)
      (Call.texts_cons (text_selector errorCode) rfl)
  have hcr2 : Call.texts mem ((pageFaultNotes errorCode).map Note.call ++
      [⟨"CR2: %#018lx\n", [cr2]⟩]) =
      .ok ((pageFaultNotes errorCode).flatMap (bytes ·.text) ++
        (bytes "CR2: " ++ hexField cr2 ++ bytes "\n" ++ [])) :=
    Call.texts_append (Note.texts_calls _)
      (Call.texts_cons (text_cr2 cr2) rfl)
  rw [List.append_nil] at hselector hcr2
  cases e
  case invalidTss => exact hselector
  case segmentNotPresent => exact hselector
  case stackSegmentFault => exact hselector
  case generalProtection => exact hselector
  case pageFault => exact hcr2
  all_goals rfl

/-- **What a handler prints.** -/
theorem texts_calls (e : Fault) (rsp errorCode rip cr2 : BitVec 64) :
    Call.texts mem (e.calls rsp errorCode rip cr2) = .ok (e.report rsp errorCode rip cr2) :=
  Call.texts_cons (e.text_header rsp errorCode rip) (e.texts_details errorCode cr2)

/-- Each call stays inside `__buf`. -/
theorem calls_short (e : Fault) (rsp errorCode rip cr2 : BitVec 64) :
    ∀ c ∈ e.calls rsp errorCode rip cr2, ∃ text, c.text mem = .ok text ∧ text.length < 4096 := by
  have hnotes : ∀ (ns : List Note), ∀ c ∈ ns.map Note.call,
      ∃ text, c.text mem = .ok text ∧ text.length < 4096 := by
    intro ns c hc
    obtain ⟨n, -, rfl⟩ := List.mem_map.mp hc
    exact ⟨bytes n.text, n.text_call, n.literal.2⟩
  have hheader : (bytes ", ERROR_CODE: ").length = 14 ∧ (bytes ", RSP: ").length = 7 ∧
      (bytes ", RIP: ").length = 7 ∧ (bytes "\n").length = 1 := by
    simp [bytes]
  have hline : (bytes "Segment Selector Index: ").length = 24 ∧ (bytes "CR2: ").length = 5 := by
    simp [bytes]
  intro c hc
  rcases List.mem_cons.mp hc with rfl | hc
  · refine ⟨_, e.text_header rsp errorCode rip, ?_⟩
    have hlabel := e.label_spec.2.2.1
    simp only [List.length_append, length_hexField]
    omega
  · cases e <;> simp only [details, List.mem_append, List.mem_singleton, List.not_mem_nil] at hc
    case invalidTss | segmentNotPresent | stackSegmentFault | generalProtection =>
      rcases hc with hc | rfl
      · exact hnotes _ c hc
      · refine ⟨_, text_selector errorCode, ?_⟩
        have hcount := figureCount_16_le (errorCode &&& 0xfff8)
        have hlen := length_hexText (show 0 ≤ (10 : Int32).toInt by decide) (errorCode &&& 0xfff8)
        have hsize : (10 : Int32).toInt = 10 := rfl
        simp only [List.length_append]
        omega
    case pageFault =>
      rcases hc with hc | rfl
      · exact hnotes _ c hc
      · refine ⟨_, text_cr2 cr2, ?_⟩
        simp only [List.length_append, length_hexField]
        omega

/-! ## Reading it -/

/-- The labels can be told apart. -/
theorem label_inj (h : bytes e.label = bytes e'.label) : e = e' := by
  have hvector : e.vector = e'.vector := by
    rw [← e.label_spec.2.2.2, ← e'.label_spec.2.2.2, h]
  cases e <;> cases e' <;> first | rfl | cases hvector

/-- A label ends before the first comma of the text. -/
theorem takeWhile_report (e : Fault) (rsp errorCode rip cr2 : BitVec 64) :
    (e.report rsp errorCode rip cr2).takeWhile (· ≠ 0x2c) = bytes e.label := by
  have hcomma : bytes ", ERROR_CODE: " = 0x2c :: bytes " ERROR_CODE: " := by simp [bytes]
  have hlabel : ∀ c ∈ bytes e.label, decide (c ≠ 0x2c) = true := by
    intro c hc
    exact decide_eq_true fun h => e.label_spec.2.1 (h ▸ hc)
  simp only [report, List.append_assoc]
  rw [hcomma, List.takeWhile_append_of_pos hlabel, List.cons_append, List.takeWhile_cons_of_neg
    (by decide), List.append_nil]

/-- The text of the calls behind the first one has `cr2` in it for a page fault only. -/
theorem detailsText_eq_iff : e.detailsText errorCode cr2 = e.detailsText errorCode cr2' ↔
    (e = .pageFault → cr2 = cr2') := by
  constructor
  · rintro h rfl
    simp only [detailsText, List.append_assoc, List.append_cancel_left_eq] at h
    exact (hexField_append_inj h).1
  · intro h
    by_cases he : e = .pageFault
    · rw [h he]
    · cases e
      case pageFault => exact absurd rfl he
      all_goals rfl

/-- **The text of a handler determines** the exception and the numbers: the two registers and the
error code, and for a page fault also `cr2`. -/
theorem report_eq_iff : e.report rsp errorCode rip cr2 = e'.report rsp' errorCode' rip' cr2' ↔
    e = e' ∧ rsp = rsp' ∧ errorCode = errorCode' ∧ rip = rip' ∧ (e = .pageFault → cr2 = cr2') := by
  constructor
  · intro h
    obtain rfl : e = e' := by
      refine label_inj ?_
      rw [← takeWhile_report e rsp errorCode rip cr2, h, takeWhile_report]
    simp only [report, List.append_assoc, List.append_cancel_left_eq] at h
    obtain ⟨rfl, hrest⟩ := hexField_append_inj h
    obtain ⟨hrsp, hrest⟩ := hexField_append_inj (List.append_cancel_left hrest)
    obtain ⟨hrip, hrest⟩ := hexField_append_inj (List.append_cancel_left hrest)
    exact ⟨rfl, hrsp, rfl, hrip, detailsText_eq_iff.mp (List.append_cancel_left hrest)⟩
  · rintro ⟨rfl, rfl, rfl, rfl, hcr2⟩
    rw [report, report, detailsText_eq_iff.mpr hcr2]

end Fault

/-! ## From the delivery to the text -/

/-- **An exception is reported.**  From the delivery of an exception with a vector above 1 control
reaches its C function, which prints the stack pointer it has been given, the error code of the CPU
(or 0) and the address at which the program was interrupted.  Each of its calls fits in `__buf`. -/
theorem fault_reported {e : Fault} (h0 : e ≠ .divideError) (h1 : e ≠ .debug)
    (sym : Symbol → BitVec 64) (tss : Tss) (s : Cpu) (rip errcode cr2 : BitVec 64) :
    ∃ t, Leaves sym Trap.text (kernelIdt e.vector).addr (deliver tss e.vector s rip errcode)
        (.enters (sym (.handler e)) t) ∧
      Call.texts t.mem (e.handlerCalls t cr2) =
        .ok (e.report (t.gpr .rdi) (e.secondArg errcode) rip cr2) ∧
      ∀ c ∈ e.handlerCalls t cr2, ∃ text, c.text t.mem = .ok text ∧ text.length < 4096 := by
  obtain ⟨t, hleaves, hframe, -⟩ := fault_handled h0 h1 sym tss s rip errcode
  have hcalls : e.handlerCalls t cr2 = e.calls (t.gpr .rdi) (e.secondArg errcode) rip cr2 := by
    rw [Fault.handlerCalls, hframe.arg, hframe.rip]
  refine ⟨t, hleaves, ?_, ?_⟩
  · rw [hcalls, Fault.texts_calls]
  · rw [hcalls]
    exact Fault.calls_short e _ _ _ _

/-- A write to a page that is not present. -/
theorem pageFault_reported :
    ∃ t, Leaves linked Trap.text (kernelIdt 14).addr
        (deliver (kernelTss 0 0 0 fun _ => 0) 14 kernelCpu 0xffff800000104000 2)
        (.enters (linked (.handler .pageFault)) t) ∧
      Call.texts t.mem (Fault.pageFault.handlerCalls t 0xffff800001a00000) =
        .ok (Fault.pageFault.report (t.gpr .rdi) 2 0xffff800000104000 0xffff800001a00000) ∧
      ∀ c ∈ Fault.pageFault.handlerCalls t 0xffff800001a00000,
        ∃ text, c.text t.mem = .ok text ∧ text.length < 4096 :=
  fault_reported (e := .pageFault) (by decide) (by decide) linked _ kernelCpu 0xffff800000104000 2
    0xffff800001a00000

end Trap
end OSLib
