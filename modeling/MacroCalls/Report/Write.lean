import MacroCalls.Failure
import MacroCalls.Report.Excerpt

/-!
# Reports

A failure is reported by what it holds: the first syntax error anywhere inside it, else the first
diagnostic, else the first invalid format string, each with an excerpt of the source where a file
is at hand; any other failure by its text alone. A report is written whole or not at all, and a
list of reports stops at the first one that cannot be written.
-/

namespace MacroCalls

/-- A syntax error as a diagnostic on the offending token. -/
def SyntaxError.diagnostic (e : SyntaxError) : Diagnostic :=
  { code := e.kind.code
    message :=
      match e.kind with
      | .unexpectedEnd => ascii "unexpected end of file"
      | .unexpectedToken => ascii "encountered unexpected syntax " ++ e.found.quoted
      | _ => ascii "encountered unexpected syntax"
    span := e.span
    labels :=
      [⟨e.span,
        match e.expected.getD [] with
        | [] => ascii "unexpected syntax"
        | expected => ascii "expected one of: " ++ (ascii ", ").intercalate expected⟩] }

/-- The diagnostic that a failure is reported as, if there is one inside it. -/
def Failure.reported? (e : Failure) : Option Diagnostic :=
  (e.syntaxError?.map SyntaxError.diagnostic).or
    (e.diagnostic?.or (e.format?.map FormatError.diagnostic))

namespace Report

/-- The first line of a report. -/
def header (color : Bool) (code message : Text) : Text :=
  Text.painted color .red (ascii "[" ++ code ++ ascii "] Error:") ++ message.appended ++
    [Text.newline]

/-- The report on a diagnostic, with an excerpt if there is a file. -/
def onDiagnostic (color : Bool) (file : Option SourceFile) (d : Diagnostic) : Except Fault Text :=
  match file with
  | none => .ok (header color d.code d.message)
  | some f => (Excerpt.text color f d).map (header color d.code d.message ++ ·)

/-- The report on a failure. -/
def render (color : Bool) (file : Option SourceFile) (e : Failure) : Except Fault Text :=
  match e.reported? with
  | some d => onDiagnostic color file d
  | none => .ok (header color (ascii "Error") e.text)

/-- Why reports were not all written. -/
inductive Stop where
  | fault (f : Fault)
  /-- The writer accepts no more. -/
  | refused
  deriving DecidableEq, Repr

/-- What was written, and why not more if something was left. -/
structure Written where
  output : Text
  stop : Option Stop := none
  deriving DecidableEq, Repr

/-- Write reports one after another to a writer that accepts so many of them, or any number. -/
def writeAll (color : Bool) (file : Option SourceFile) :
    (accepts : Option Nat) → List (Option Failure) → Written
  | _, [] => ⟨[], none⟩
  | _, none :: _ => ⟨[], some (.fault .missingFailure)⟩
  | accepts, some e :: rest =>
    match render color file e, accepts with
    | .error f, _ => ⟨[], some (.fault f)⟩
    | .ok _, some 0 => ⟨[], some .refused⟩
    | .ok t, _ =>
      let w := writeAll color file (accepts.map (· - 1)) rest
      ⟨t ++ w.output, w.stop⟩

end Report

end MacroCalls
