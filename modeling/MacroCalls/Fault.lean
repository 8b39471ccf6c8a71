import MacroCalls.Program

/-!
# Faults

A fault stops an operation that was handed something it has no answer for: a gap where a statement
is needed, a label that lies wholly before its file, a node that cannot be entered. Operations
that produce output as they go keep what they have produced when a fault stops them.
-/

namespace MacroCalls

/-- Why an operation stopped. -/
inductive Fault where
  /-- A gap among the statements was reached. -/
  | missingStatement
  /-- There is no failure to report. -/
  | missingFailure
  /-- A label starts and ends before its file does. -/
  | labelBeforeFile
  /-- A choice was to be described, without anything to choose from. -/
  | noAlternatives
  /-- A detached copy of a node was to be entered. -/
  | detachedNode (type : NodeType)
  /-- A node was to be entered where there is none. -/
  | missingNode
  deriving DecidableEq, Repr

/-- What a fault says, if anything. -/
def Fault.message? : Fault → Option Text
  | detachedNode type => some (ascii "unhandled type ast." ++ type.tag)
  | missingNode => some (ascii "unhandled type <nil>")
  | _ => none

end MacroCalls
