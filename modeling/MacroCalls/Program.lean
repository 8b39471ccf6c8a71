import MacroCalls.Span

/-!
# Programs

The tree of a program: a list of calls, each with a name and string literals as arguments, every
node with the span of the source it came from. Trees that are read from elsewhere may lack a list
of statements or arguments, which is not the same as an empty list, and may have gaps among the
statements; both are visible in the types.
-/

namespace MacroCalls

/-- A string literal; the value is what stands between its quotes. -/
structure Literal where
  span : Span := {}
  val : Text := []
  deriving DecidableEq, Repr, Inhabited

/-- The name of a call, with its closing `!`. -/
structure Name where
  span : Span := {}
  name : Text := []
  deriving DecidableEq, Repr, Inhabited

/-- A call of a macro. -/
structure Call where
  name : Name := {}
  /-- The arguments, or `none` where the list itself is missing. -/
  args : Option (List Literal) := none
  span : Span := {}
  deriving DecidableEq, Repr, Inhabited

/-- A whole program. -/
structure Program where
  /-- The statements, with `none` for a gap, or `none` where the list itself is missing. -/
  statements : Option (List (Option Call)) := none
  span : Span := {}
  deriving DecidableEq, Repr, Inhabited

/-- The arguments of a call, none if the list is missing. -/
def Call.argList (c : Call) : List Literal := c.args.getD []

/-- The statements of a program, none if the list is missing. -/
def Program.statementList (p : Program) : List (Option Call) := p.statements.getD []

/-- The types of nodes. -/
inductive NodeType where
  | program
  | call
  | name
  | literal
  deriving DecidableEq, Repr

/-- The word for a node type in written trees. -/
def NodeType.tag : NodeType → Text
  | program => ascii "Main"
  | call => ascii "Macro"
  | name => ascii "Name"
  | literal => ascii "StrLit"

end MacroCalls
