import MacroCalls.Diagnostic
import MacroCalls.SyntaxError

/-!
# Failures

A failure is whatever can go wrong with a source, from a syntax error to a cancelled batch.
Failures nest: one can be told in other words or joined with others, and then still counts as what
it holds. The failures inside a failure are searched depth first (`Failure.parts`).
-/

namespace MacroCalls

/-- What can go wrong with a source. -/
inductive Failure where
  | syntaxError (e : SyntaxError)
  | diagnostic (d : Diagnostic)
  | format (e : FormatError)
  /-- A source is larger than allowed. -/
  | tooLarge
  /-- A source of `size` bytes is larger than the limit. -/
  | oversize (size : Nat) (limit : Int)
  | canceled
  /-- A failure that is told in other words. -/
  | within (message : Text) (inner : Failure)
  /-- A note on where something happened, without a failure to go with it. -/
  | bare (context : Text)
  /-- Several failures at once. -/
  | joined (all : List Failure)
  | other (message : Text)

namespace Failure

mutual

/-- The failure in words. -/
def text : Failure → Text
  | syntaxError e => e.message
  | diagnostic d => d.text
  | format e => e.message
  | tooLarge => ascii "source too large"
  | oversize size limit =>
    ascii "source too large: " ++ Text.decimal size ++ ascii " bytes exceeds limit of " ++
      Text.integer limit
  | canceled => ascii "context canceled"
  | within message _ => message
  | bare context => context ++ ascii ": %!w(<nil>)"
  | joined all => [Text.newline].intercalate (texts all)
  | other message => message

/-- Each failure in words. -/
def texts : List Failure → List Text
  | [] => []
  | e :: rest => text e :: texts rest

end

mutual

/-- A failure and all failures inside it, depth first. -/
def parts : Failure → List Failure
  | within message inner => within message inner :: parts inner
  | joined all => joined all :: partsAll all
  | e => [e]

/-- The parts of each failure in turn. -/
def partsAll : List Failure → List Failure
  | [] => []
  | e :: rest => parts e ++ partsAll rest

end

/-- The first syntax error inside a failure. -/
def syntaxError? (e : Failure) : Option SyntaxError :=
  e.parts.findSome? fun | syntaxError s => some s | _ => none

/-- The first diagnostic inside a failure. -/
def diagnostic? (e : Failure) : Option Diagnostic :=
  e.parts.findSome? fun | diagnostic d => some d | _ => none

/-- The first invalid format string inside a failure. -/
def format? (e : Failure) : Option FormatError :=
  e.parts.findSome? fun | format f => some f | _ => none

/-- Whether some source was too large. -/
def isTooLarge (e : Failure) : Bool :=
  e.parts.any fun | tooLarge | oversize .. => true | _ => false

/-- Whether work was cancelled. -/
def isCanceled (e : Failure) : Bool := e.parts.any fun | canceled => true | _ => false

/-- A possible failure with a note on where it happened. The note is a failure of its own if there
is none to put it on. -/
def note (context : Text) : Option Failure → Failure
  | some inner => within (context ++ ascii ": " ++ inner.text) inner
  | none => bare context

/-- Several possible failures at once; those that did not happen are left out, and if none
happened there is no failure. -/
def join? (all : List (Option Failure)) : Option Failure :=
  match all.filterMap id with
  | [] => none
  | e :: rest => some (joined (e :: rest))

end Failure

end MacroCalls
