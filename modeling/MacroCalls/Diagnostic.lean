import MacroCalls.FormatString

/-!
# Diagnostics of calls

The calls `print!` and `println!` take a format string and one argument per placeholder;
`println!` may also be called without any. A call that breaks these rules has one problem. A
diagnostic tells of a problem: a code, a message, the place it is about and labels on every part
of the source involved.
-/

namespace MacroCalls

/-- A message attached to a span of the source; the message may be empty. -/
structure Label where
  span : Span
  message : Text := []
  deriving DecidableEq, Repr

/-- A problem as it is told. -/
structure Diagnostic where
  code : Text
  message : Text
  span : Span
  labels : List Label
  deriving DecidableEq, Repr

/-- The diagnostic as one line. -/
def Diagnostic.text (d : Diagnostic) : Text := d.code ++ ascii ": " ++ d.message

/-- An invalid format string as a diagnostic on the byte to blame. -/
def FormatError.diagnostic (e : FormatError) : Diagnostic :=
  let span : Span := ⟨e.offset, wrap64 (e.offset + 1)⟩
  ⟨ascii "InvalidFmtStr", e.reason.message, span, [⟨span, ascii "unexpected syntax"⟩]⟩

/-- What can be wrong with a call. -/
inductive Problem where
  | unknownMacro (name : Name)
  | missingFormat (name : Name)
  | invalidFormat (e : FormatError)
  /-- The arguments `unused` have no placeholder in the format string. -/
  | extraArguments (format : Literal) (unused : List Literal)
  /-- The placeholders `first :: more` are more than the arguments given. -/
  | notEnoughArguments (first : Span) (more : List Span) (given : List Literal)
  deriving DecidableEq, Repr

/-- The singular for one thing, the plural for any other number. -/
def plural (n : Nat) (one many : String) : Text := if n = 1 then ascii one else ascii many

/-- How a problem is told. -/
def Problem.diagnostic : Problem → Diagnostic
  | unknownMacro name =>
    ⟨ascii "UnknownMacro", ascii "cannot find macro `" ++ name.name ++ ascii "` in this scope",
      name.span, [⟨name.span, ascii "not a known macro"⟩]⟩
  | missingFormat name =>
    ⟨ascii "MissingFmtStr", ascii "missing format string",
      name.span, [⟨name.span, ascii "requires at least a format string argument"⟩]⟩
  | invalidFormat e => e.diagnostic
  | extraArguments format unused =>
    ⟨ascii "ExtraFmtArguments",
      plural unused.length "unused formatting argument" "multiple unused formatting arguments",
      format.span,
      ⟨format.span, plural unused.length "missing formatting specifier"
        "multiple missing formatting specifiers"⟩ ::
        unused.map fun a => ⟨a.span, ascii "argument never used"⟩⟩
  | notEnoughArguments first more given =>
    ⟨ascii "NotEnoughFmtArguments",
      Text.decimal (more.length + 1) ++ ascii " positional " ++
        plural (more.length + 1) "argument" "arguments" ++ ascii " in format string, but there " ++
        plural given.length "is" "are" ++ ascii " " ++ Text.decimal given.length ++ ascii " " ++
        plural given.length "argument" "arguments",
      first,
      (first :: more).map (⟨·, []⟩) ++ given.map (⟨·.span, []⟩)⟩

/-- The problem of a format string with the arguments that follow it. -/
def Literal.formatProblem? (format : Literal) (given : List Literal) : Option Problem :=
  match format.pieces with
  | .error e => some (.invalidFormat e)
  | .ok pieces =>
    let spans := Piece.placeholders pieces
    if spans.length < given.length then some (.extraArguments format (given.drop spans.length))
    else
      match spans with
      | [] => none
      | first :: more =>
        if given.length ≤ more.length then some (.notEnoughArguments first more given) else none

/-- The problem of a call, if it has one. -/
def Call.problem? (c : Call) : Option Problem :=
  if c.name.name = ascii "println!" then
    match c.argList with
    | [] => none
    | format :: given => format.formatProblem? given
  else if c.name.name = ascii "print!" then
    match c.argList with
    | [] => some (.missingFormat c.name)
    | format :: given => format.formatProblem? given
  else some (.unknownMacro c.name)

end MacroCalls
