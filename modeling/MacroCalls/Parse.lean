import MacroCalls.Outcome
import MacroCalls.Parser
import MacroCalls.Program

/-!
# Parsing

A program is read by recursive descent, with one function for each production of the grammar. The
first token that does not fit ends the parse with a syntax error.

Statements and arguments are read in loops, as long as the lookahead starts another one. A loop ends
since each time round takes a token (`Parser.left`).
-/

namespace MacroCalls

namespace Parser

/-- Read literals with a comma behind each, which may be left out behind the last. -/
def literals (args : Array Literal) (p : Parser) : Array Literal × Parser :=
  match hliteral : p.sees ⟨.literal, []⟩ with
  | (false, q) => (args, q)
  | (true, q) =>
    let args := args.push ⟨q.found.span, q.found.body⟩
    match hcomma : q.advance.sees (.mark 0x2C) with
    | (false, r) => (args, r)
    | (true, r) =>
      have : r.advance.left < p.left :=
        Nat.lt_of_le_of_lt (reaches_of_sees hcomma).advance.left_le
          (left_advance_of_sees hliteral (by decide))
      r.advance.literals args
termination_by p.left

theorem reaches_literals (args : Array Literal) (p : Parser) : p.Reaches (p.literals args).2 := by
  fun_induction literals args p with
  | case1 args p q hliteral => exact reaches_of_sees hliteral
  | case2 args p q hliteral args' r hcomma =>
    exact (reaches_of_sees hliteral).advance.trans (reaches_of_sees hcomma)
  | case3 args p q hliteral args' r hcomma hlt ih =>
    exact ((reaches_of_sees hliteral).advance.trans (reaches_of_sees hcomma)).advance.trans ih

/-- Read the arguments of a statement. -/
def arguments (p : Parser) : Except SyntaxError (List Literal × Parser) :=
  p.inside "ArgList" fun p =>
    let (args, q) := p.literals #[]
    .ok (args.toList, q)

theorem reaches_of_arguments {p q : Parser} {args : List Literal}
    (h : p.arguments = .ok (args, q)) : p.Reaches q := by
  cases h
  exact ((Reaches.refl.enter _).trans (reaches_literals #[] _)).enter _

/-- Read a statement. -/
def statement (p : Parser) : Except SyntaxError (Call × Parser) :=
  p.inside "Statement" fun p => do
    let (name, p) ← p.expect ⟨.macroName, []⟩
    let (_, p) ← p.expect (.mark 0x28)
    let (args, p) ← p.arguments
    let (_, p) ← p.expect (.mark 0x29)
    let (last, p) ← p.expect (.mark 0x3B)
    return (⟨⟨name.span, name.text⟩, some args, ⟨name.start, last.stop⟩⟩, p)

/-- A statement starts with a name and ends with a semicolon. -/
theorem exists_of_statement {p q : Parser} {c : Call} (h : p.statement = .ok (c, q)) :
    ∃ name last p₁ p₄ p₅, (p.enter (ascii "Statement")).expect ⟨.macroName, []⟩ = .ok (name, p₁) ∧
      p₁.Reaches p₄ ∧ p₄.expect (.mark 0x3B) = .ok (last, p₅) ∧ q = p₅.enter p.context := by
  obtain ⟨⟨_, p₅⟩, h, hq⟩ := exists_ok_of_bind h
  obtain ⟨⟨name, p₁⟩, hname, h⟩ := exists_ok_of_bind h
  obtain ⟨⟨_, p₂⟩, hopen, h⟩ := exists_ok_of_bind h
  obtain ⟨⟨args, p₃⟩, hargs, h⟩ := exists_ok_of_bind h
  obtain ⟨⟨_, p₄⟩, hclose, h⟩ := exists_ok_of_bind h
  obtain ⟨⟨last, p₅⟩, hlast, h⟩ := exists_ok_of_bind h
  cases h
  cases hq
  have hreaches := ((reaches_of_expect hopen).trans (reaches_of_arguments hargs)).trans
    (reaches_of_expect hclose)
  exact ⟨name, last, p₁, p₄, p₅, hname, hreaches, hlast, rfl⟩

theorem reaches_of_statement {p q : Parser} {c : Call} (h : p.statement = .ok (c, q)) :
    p.Reaches q := by
  obtain ⟨name, last, p₁, p₄, p₅, hname, hreaches, hlast, rfl⟩ := exists_of_statement h
  exact ((((Reaches.refl.enter _).trans (reaches_of_expect hname)).trans hreaches).trans
    (reaches_of_expect hlast)).enter _

theorem left_statement_lt {p q : Parser} {c : Call} (h : p.statement = .ok (c, q)) :
    q.left < p.left := by
  obtain ⟨name, last, p₁, p₄, p₅, hname, hreaches, hlast, rfl⟩ := exists_of_statement h
  have hlt : p₁.left < p.left := left_expect_lt (p := p.enter (ascii "Statement")) hname (by decide)
  exact Nat.lt_of_le_of_lt (hreaches.trans (reaches_of_expect hlast)).left_le hlt

/-- Read statements as long as there is a macro name. -/
def statements (calls : Array Call) (p : Parser) : Except SyntaxError (Array Call × Parser) :=
  match hname : p.sees ⟨.macroName, []⟩ with
  | (false, q) => .ok (calls, q)
  | (true, q) =>
    match hcall : q.statement with
    | .error e => .error e
    | .ok (c, r) =>
      have : r.left < p.left :=
        Nat.lt_of_lt_of_le (left_statement_lt hcall) (reaches_of_sees hname).left_le
      r.statements (calls.push c)
termination_by p.left

theorem reaches_of_statements {p q : Parser} {calls calls' : Array Call}
    (h : p.statements calls = .ok (calls', q)) : p.Reaches q := by
  fun_induction statements calls p with
  | case1 calls p r hname =>
    cases h
    exact reaches_of_sees hname
  | case2 calls p r hname e hcall => cases h
  | case3 calls p r hname c r' hcall hlt ih =>
    exact ((reaches_of_sees hname).trans (reaches_of_statement hcall)).trans (ih h)

/-- Read a program. -/
def program (p : Parser) : Except SyntaxError (Program × Parser) :=
  p.inside "Main" fun p => do
    let (first, p) ← p.expect (.keyword "fn")
    let (_, p) ← p.expect (.keyword "main")
    let (_, p) ← p.expect (.mark 0x28)
    let (_, p) ← p.expect (.mark 0x29)
    let (_, p) ← p.expect (.mark Text.openBrace)
    let (calls, p) ← p.statements #[]
    let (last, p) ← p.expect (.mark Text.closeBrace)
    let (_, p) ← p.expect ⟨.endOfInput, []⟩
    return (⟨some (calls.toList.map some), ⟨first.start, last.stop⟩⟩, p)

end Parser

/-- The tree of a program text, or the error at the first token that does not fit. -/
def parse (src : Text) : Except SyntaxError Program := do
  let (tree, _) ← (Parser.ofText src).program
  return tree

end MacroCalls
