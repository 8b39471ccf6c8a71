import MacroCalls.Text.Quoted
import MacroCalls.Token.Scanner

/-!
# Syntax errors

A syntax error says which token could not come next, where it stands, which terminals could have
come instead and inside what. Errors may also be built from other sources, so their numbers and
texts are arbitrary.
-/

namespace MacroCalls

/-- What kind of token was found. -/
inductive SyntaxError.Kind where
  | unexpectedToken
  | unexpectedEnd
  | invalidToken
  | other (code : Int)
  deriving DecidableEq, Repr

/-- A token that could not come next. -/
structure SyntaxError where
  kind : SyntaxError.Kind
  offset : Int
  line : Int
  column : Int
  span : Span
  /-- The text of the token, empty at the end of the input. -/
  found : Text
  /-- What could have come instead, or `none` where the list itself is missing. -/
  expected : Option (List Text)
  /-- The part of the grammar that was being read. -/
  context : Text
  deriving DecidableEq, Repr

/-- Alternatives in a sentence: commas between all but the last two, `or` before the last. There
is no such sentence without any alternative. -/
def alternatives? (items : List Text) : Option Text :=
  match items.getLast? with
  | none => none
  | some last =>
    match items.dropLast with
    | [] => some last
    | front => some ((ascii ", ").intercalate front ++ ascii " or " ++ last)

namespace SyntaxError

/-- The code under which errors of a kind are reported. -/
def Kind.code : Kind → Text
  | unexpectedToken => ascii "UnrecognizedToken"
  | unexpectedEnd => ascii "UnrecognizedEOF"
  | invalidToken => ascii "InvalidToken"
  | other n => ascii "ErrorKind(" ++ Text.integer n ++ ascii ")"

/-- The kind of error that a token makes where it cannot come next. -/
def Kind.ofToken : Token.Kind → Kind
  | .endOfInput => unexpectedEnd
  | .invalid => invalidToken
  | _ => unexpectedToken

/-- What was found, in words. A lone quote opens a literal that nothing closes. -/
def foundDescription (e : SyntaxError) : Text :=
  match e.kind with
  | .unexpectedEnd => ascii "end of input"
  | .invalidToken =>
    if e.found = [Text.quoteMark] then ascii "unterminated string literal"
    else ascii "character " ++ e.found.quoted
  | _ => e.found.quoted

/-- The error as one sentence. -/
def message (e : SyntaxError) : Text :=
  Text.integer e.line ++ ascii ":" ++ Text.integer e.column ++ ascii ": unexpected " ++
    e.foundDescription ++
    (if e.context = [] then [] else ascii " in " ++ e.context) ++
    (match alternatives? (e.expected.getD []) with
    | none => []
    | some choice => ascii ", expected " ++ choice)

end SyntaxError

end MacroCalls
