import MacroCalls.Json.Basic
import MacroCalls.Program

/-!
# Trees as JSON

Every node of a tree is written as an object with its type and its contents, which in turn are an
object. A missing list and a gap among the statements are `null`.
-/

namespace MacroCalls

open Json (null number string array object)

/-- A node with its type. -/
def NodeType.tagged (type : NodeType) (members : List (Text × Json)) : Json :=
  object [(ascii "Type", string type.tag), (ascii "Node", object members)]

/-- A span with its two ends. -/
def Span.toJson (s : Span) : Json :=
  object
    [(ascii "Start", number (Text.integer s.start)), (ascii "End", number (Text.integer s.stop))]

/-- The name of a call as a node. -/
def Name.toJson (n : Name) : Json :=
  NodeType.name.tagged [(ascii "Span", n.span.toJson), (ascii "Name", string n.name)]

/-- A literal as a node. -/
def Literal.toJson (l : Literal) : Json :=
  NodeType.literal.tagged [(ascii "Span", l.span.toJson), (ascii "Val", string l.val)]

/-- A list, or `null` where it is missing. -/
def Json.ofList? {α : Type} (f : α → Json) : Option (List α) → Json
  | none => null
  | some items => array (items.map f)

/-- A call as a node. -/
def Call.toJson (c : Call) : Json :=
  NodeType.call.tagged
    [(ascii "Name", c.name.toJson), (ascii "Args", .ofList? Literal.toJson c.args),
      (ascii "Span", c.span.toJson)]

/-- A statement, or `null` for a gap. -/
def Json.ofStatement : Option Call → Json
  | none => null
  | some c => c.toJson

/-- A program as a node. -/
def Program.toJson (p : Program) : Json :=
  NodeType.program.tagged
    [(ascii "Statements", .ofList? Json.ofStatement p.statements), (ascii "Span", p.span.toJson)]

end MacroCalls
