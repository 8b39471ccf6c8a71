import MacroCalls.Fault
import MacroCalls.Program
import MacroCalls.Text.Painted
import MacroCalls.Text.Quoted

/-!
# Outlines

An outline shows a tree with one line per node, indented by depth: the program, the names of its
calls below it and their arguments below the names. Literals are quoted, and cut after `maxLength`
bytes. A printer writes outlines one after another; at a gap among the statements it stops, and
what it has written stays.
-/

namespace MacroCalls

/-- A printer with what it has written so far. -/
structure Printer where
  color : Bool
  depth : Nat := 0
  output : Text := []
  deriving DecidableEq, Repr

namespace Printer

/-- The number of spaces per depth. -/
def indentSize : Nat := 2

/-- The number of bytes of a literal that are shown. -/
def maxLength : Nat := 80

/-- A value with an ellipsis in place of what is too long to show. -/
def cut (val : Text) : Text :=
  if maxLength < val.length then val.take maxLength ++ ascii "..." else val

/-- Write a line at the current depth. -/
def line (p : Printer) (color : Color) (t : Text) : Printer :=
  { p with
    output := p.output ++ Text.spaces (p.depth * indentSize) ++ t.painted p.color color ++
      [Text.newline] }

/-- Turn one level deeper. -/
def indent (p : Printer) : Printer := { p with depth := p.depth + 1 }

/-- Come back one level. -/
def dedent (p : Printer) : Printer := { p with depth := p.depth - 1 }

/-- Write the name of a call. -/
def name (p : Printer) (n : Name) : Printer := p.line .cyan n.name

/-- Write a literal, cut and quoted. -/
def literal (p : Printer) (l : Literal) : Printer := p.line .green (cut l.val).quoted

/-- Write a call: its name and, one level deeper, its arguments. -/
def call (p : Printer) (c : Call) : Printer :=
  (c.argList.foldl literal (p.name c.name).indent).dedent

/-- Write a statement, or stop at a gap. -/
def statement (p : Printer) : Option Call → Except Printer Printer
  | some c => .ok (p.call c)
  | none => .error p

/-- Write a program. A printer that stops at a gap is handed back as an error. -/
def program (p : Printer) (t : Program) : Except Printer Printer :=
  (t.statementList.foldlM statement (p.line .magenta (ascii "fn main()")).indent).map dedent

/-- Write programs one after another. -/
def programs (p : Printer) (ts : List Program) : Except Printer Printer := ts.foldlM program p

end Printer

/-- The outline of a program by itself. -/
def Program.outline (color : Bool) (t : Program) : Except Fault Text :=
  match ({ color } : Printer).program t with
  | .ok p => .ok p.output
  | .error _ => .error .missingStatement

end MacroCalls
