import MacroCalls.Fault
import MacroCalls.Program

/-!
# Walks

A walk visits the nodes of a tree depth first in source order: a program, each of its calls, its
name and its arguments. A visitor is asked at each node whether to go inside. When the walk is
through with the inside of a node, it tells the visitor that it leaves. An answer may depend on
everything the visitor has seen before. Gaps, detached copies of nodes and missing nodes are
visited too, but cannot be entered.
-/

namespace MacroCalls

/-- A node of a tree. -/
inductive Node where
  | program (p : Program)
  /-- A call, or a gap where a call should be. -/
  | call (c : Option Call)
  | name (n : Name)
  | literal (l : Literal)
  /-- A copy of a node apart from its tree. -/
  | detached (type : NodeType) (span : Span)
  | missing
  deriving DecidableEq, Repr

/-- What a visitor is told. -/
inductive Visit where
  | enter (n : Node)
  | leave
  deriving DecidableEq, Repr

/-- A visitor answers each visit, knowing the visits before it. -/
abbrev Visitor := Array Visit → Visit → Bool

/-- The visits made, or a fault and the visits made before it. -/
abbrev Walked := Except (Fault × Array Visit) (Array Visit)

namespace Visitor

/-- Visit a node and, if the visitor says so, its inside. -/
def visit (f : Visitor) (n : Node) (inside : Array Visit → Walked) (seen : Array Visit) : Walked :=
  let seen' := seen.push (.enter n)
  if f seen (.enter n) then (inside seen').map (·.push .leave) else .ok seen'

/-- Walk over the name of a call. -/
def walkName (f : Visitor) (seen : Array Visit) (n : Name) : Walked := f.visit (.name n) .ok seen

/-- Walk over a literal. -/
def walkLiteral (f : Visitor) (seen : Array Visit) (l : Literal) : Walked :=
  f.visit (.literal l) .ok seen

/-- Walk over a call, its name and its arguments. -/
def walkCall (f : Visitor) (seen : Array Visit) (c : Call) : Walked :=
  f.visit (.call (some c))
    (fun seen => (f.walkName seen c.name).bind fun seen => c.argList.foldlM f.walkLiteral seen) seen

/-- Walk over a statement; a gap cannot be entered. -/
def walkStatement (f : Visitor) (seen : Array Visit) : Option Call → Walked
  | some c => f.walkCall seen c
  | none => f.visit (.call none) (fun seen => .error (.missingStatement, seen)) seen

/-- Walk over a program and its statements. -/
def walkProgram (f : Visitor) (seen : Array Visit) (p : Program) : Walked :=
  f.visit (.program p) (fun seen => p.statementList.foldlM f.walkStatement seen) seen

/-- The visits of a walk that starts at a node. -/
def walk (f : Visitor) : Node → Walked
  | .program p => f.walkProgram #[] p
  | .call c => f.walkStatement #[] c
  | .name n => f.walkName #[] n
  | .literal l => f.walkLiteral #[] l
  | .detached type span =>
    f.visit (.detached type span) (fun seen => .error (.detachedNode type, seen)) #[]
  | .missing => f.visit .missing (fun seen => .error (.missingNode, seen)) #[]

end Visitor

end MacroCalls
