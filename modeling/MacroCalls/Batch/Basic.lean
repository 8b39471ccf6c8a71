import MacroCalls.Failure
import MacroCalls.Parse

/-!
# Batches

Sources can be parsed under a size limit and with a log of what happens. A batch of sources is
parsed one after another: it stops at the first source that fails, whose failure is told with its
number, and it stops between sources once the batch has been cancelled. A batch that was cancelled
has no result, even if every source was parsed.
-/

namespace MacroCalls

/-- What is logged about the parsing of sources. -/
inductive LogRecord where
  | batch (count : Nat) (concurrency : Int)
  | parsing (size : Nat)
  | parsed (statements : Nat)
  | rejected (e : SyntaxError)
  deriving DecidableEq, Repr

/-- A value in the log. -/
inductive LogRecord.Value where
  | number (n : Int)
  | text (t : Text)
  deriving DecidableEq, Repr

/-- What a record says. -/
def LogRecord.message : LogRecord → Text
  | batch .. => ascii "Parsing sources"
  | parsing _ => ascii "Parsing"
  | parsed _ => ascii "Parsed"
  | rejected _ => ascii "Syntax error"

/-- The named values of a record. -/
def LogRecord.values : LogRecord → List (Text × LogRecord.Value)
  | batch count concurrency =>
    [(ascii "count", .number count), (ascii "concurrency", .number concurrency)]
  | parsing size => [(ascii "len", .number size)]
  | parsed statements => [(ascii "statements", .number statements)]
  | rejected e =>
    [(ascii "offset", .number e.offset), (ascii "line", .number e.line),
      (ascii "column", .number e.column), (ascii "context", .text e.context)]

/-- Parse a source of at most `limit` bytes, any size if the limit is not positive, with a log. -/
def parseWithin (limit : Int) (src : Text) : List LogRecord × Except Failure Program :=
  if 0 < limit ∧ limit < src.length then ([], .error (.oversize src.length limit))
  else
    match parse src with
    | .ok p => ([.parsing src.length, .parsed p.statementList.length], .ok p)
    | .error e => ([.parsing src.length, .rejected e], .error (.syntaxError e))

namespace Batch

/-- When a batch is cancelled: once this many records have been logged, if at all. -/
abbrev CancelPoint := Option Nat

/-- Whether a batch has been cancelled by the time a log has been written. -/
def CancelPoint.reached (c : CancelPoint) (log : List LogRecord) : Bool :=
  match c with
  | some n => n ≤ log.length
  | none => false

/-- The failure of the source with a number. -/
def failureOf (i : Nat) (e : Failure) : Failure :=
  .note (ascii "source #" ++ Text.decimal i) (some e)

/-- Parse the rest of a batch from source number `i` on, with the log so far. -/
def parseFrom (limit : Int) (cancel : CancelPoint) (i : Nat) (log : List LogRecord) :
    List Text → List LogRecord × Except Failure (List Program)
  | [] => (log, if cancel.reached log then .error .canceled else .ok [])
  | src :: rest =>
    if cancel.reached log then (log, .error .canceled)
    else
      match parseWithin limit src with
      | (records, .error e) => (log ++ records, .error (failureOf i e))
      | (records, .ok p) =>
        let (log, result) := parseFrom limit cancel (i + 1) (log ++ records) rest
        (log, result.map (p :: ·))

/-- Parse a batch of sources, one after another, with a log. -/
def parseAll (limit concurrency : Int) (cancel : CancelPoint) (srcs : List Text) :
    List LogRecord × Except Failure (List Program) :=
  parseFrom limit cancel 0 [.batch srcs.length concurrency] srcs

end Batch

end MacroCalls
