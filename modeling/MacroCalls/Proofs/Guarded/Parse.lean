import MacroCalls.Proofs.Descent
import MacroCalls.Proofs.Guarded.Access

/-!
# Guarded parsing

The parser once more, with guarded accesses: the text of each token is cut out of the source, the
value of a literal out of its text, and the position of an error is looked up in the table of line
starts. Besides, a loop gives nothing where a round of it would not take anything.

The lookahead of a parser is a token of its text at every time, also behind the last one
(`InText`). So its cuts are in range, and guarded parsing gives what parsing gives
(`Guarded.parse_eq`).
-/

namespace MacroCalls

open Text

namespace Guarded

/-- The token with its text cut out of the source, behind what has been read. -/
def token (src : Text) (t : Token) : Option Token := do
  let rest ← slice src t.start src.length
  let text ← slice rest 0 (t.stop - t.start)
  some { t with text }

/-- What stands between the quotes of a literal. -/
def body (t : Token) : Option Text := slice t.text 1 (t.text.length - 1)

/-- The parser at the first token of a text. -/
def ofText (src : Text) : Option Parser := do
  let found ← token src (Parser.ofText src).found
  some { Parser.ofText src with found }

/-- The parser at the next token, with nothing noted. -/
def advance (p : Parser) : Option Parser := do
  let found ← token p.src p.advance.found
  some { p.advance with found }

/-- The syntax error at the lookahead. -/
def failure (p : Parser) : Option SyntaxError := do
  let place ← position (.ofText [] p.src) p.found.start
  some { p.failure with line := place.line, column := place.column }

/-- Take the lookahead if it belongs to a class of tokens, and fail otherwise. -/
def expect (p : Parser) (e : Terminal) : ExceptT SyntaxError Option (Token × Parser) :=
  match p.sees e with
  | (true, p) => do return (p.found, ← advance p)
  | (false, p) => do throw (← failure p)

/-- Read literals with a comma behind each, which may be left out behind the last. -/
def literals (args : Array Literal) (p : Parser) : Option (Array Literal × Parser) :=
  match p.sees ⟨.literal, []⟩ with
  | (false, q) => some (args, q)
  | (true, q) => do
    let val ← body q.found
    let r ← advance q
    let args := args.push ⟨q.found.span, val⟩
    match r.sees (.mark 0x2C) with
    | (false, r) => some (args, r)
    | (true, r) => do
      let r ← advance r
      if r.left < p.left then literals args r else none
termination_by p.left

/-- Read the arguments of a statement. -/
def arguments (p : Parser) : ExceptT SyntaxError Option (List Literal × Parser) :=
  p.inside "ArgList" fun p => do
    let (args, q) ← literals #[] p
    return (args.toList, q)

/-- Read a statement. -/
def statement (p : Parser) : ExceptT SyntaxError Option (Call × Parser) :=
  p.inside "Statement" fun p => do
    let (name, p) ← expect p ⟨.macroName, []⟩
    let (_, p) ← expect p (.mark 0x28)
    let (args, p) ← arguments p
    let (_, p) ← expect p (.mark 0x29)
    let (last, p) ← expect p (.mark 0x3B)
    return (⟨⟨name.span, name.text⟩, some args, ⟨name.start, last.stop⟩⟩, p)

/-- Read statements as long as there is a macro name. -/
def statements (calls : Array Call) (p : Parser) :
    ExceptT SyntaxError Option (Array Call × Parser) :=
  match p.sees ⟨.macroName, []⟩ with
  | (false, q) => pure (calls, q)
  | (true, q) => do
    let (c, r) ← statement q
    if r.left < p.left then statements (calls.push c) r else (none : Option _)
termination_by p.left

/-- Read a program. -/
def program (p : Parser) : ExceptT SyntaxError Option (Program × Parser) :=
  p.inside "Main" fun p => do
    let (first, p) ← expect p (.keyword "fn")
    let (_, p) ← expect p (.keyword "main")
    let (_, p) ← expect p (.mark 0x28)
    let (_, p) ← expect p (.mark 0x29)
    let (_, p) ← expect p (.mark Text.openBrace)
    let (calls, p) ← statements #[] p
    let (last, p) ← expect p (.mark Text.closeBrace)
    let (_, p) ← expect p ⟨.endOfInput, []⟩
    return (⟨some (calls.toList.map some), ⟨first.start, last.stop⟩⟩, p)

/-- The tree of a program text, or its syntax error. -/
def parse (src : Text) : Option (Except SyntaxError Program) := ExceptT.run do
  let (tree, _) ← program (← ofText src)
  return tree

/-! ### Tokens -/

/-- Every token of a text can be cut out of it. -/
theorem token_eq {src : Text} {t : Token} (h : t ∈ src.tokens) : token src t = some t := by
  obtain ⟨hslice, hstop⟩ := src.slice_tokens t h
  have hlen : t.stop = t.start + t.text.length := rfl
  have hrest : src.slice t.start src.length = src.drop t.start := by
    rw [Text.slice, List.take_length]
  rw [token, slice_eq (by omega) (by omega) (by omega), Option.bind_eq_bind, Option.bind_some]
  simp only [Int.toNat_natCast, hrest]
  rw [slice_eq (by omega) (by omega) (by rw [List.length_drop]; omega), Option.bind_some]
  have htext : Text.slice (src.drop t.start) 0 (t.stop - t.start) = t.text := by
    rw [← hslice, Text.slice, Text.slice, List.drop_zero, List.drop_take]
  have hcast : ((t.stop : Int) - t.start).toNat = t.stop - t.start := by omega
  rw [hcast, Int.toNat_zero, htext]

theorem body_eq {t : Token} (h : 2 ≤ t.text.length) : body t = some t.body := by
  rw [body, slice_eq (by omega) (by omega) (by omega)]
  have hcast : ((t.text.length : Int) - 1).toNat = t.text.length - 1 := by omega
  rw [hcast, Text.slice, ← List.dropLast_eq_take, Token.body, Int.toNat_one, List.drop_one,
    List.tail_dropLast]

/-- The two quotes of a literal are two bytes. -/
theorem two_le_length_of_literal {src : Text} :
    ∀ t ∈ src.tokens, t.kind = .literal → 2 ≤ t.text.length := by
  obtain ⟨us, z, heq, hz, hus⟩ := src.tiles_tokens.exists_final
  intro t ht hk
  rw [heq, List.mem_append, List.mem_singleton] at ht
  rcases ht with ht | rfl
  · rw [(Token.text_eq_inQuotes hk (hus t ht)).1]
    simp [inQuotes]
  · simp [Token.isFinal, hk] at hz

/-! ### Parsers in their text -/

/-- The lookahead is the next token of a scanner, and with the tokens of that scanner the text
ends. -/
def InText (p : Parser) : Prop :=
  ∃ (s : Scanner) (us : List Token), s.next = (p.found, p.scanner) ∧ p.src.tokens = us ++ s.tokens

theorem inText_ofText (src : Text) : InText (Parser.ofText src) := ⟨⟨src, 0⟩, [], rfl, rfl⟩

namespace InText

variable {p q : Parser}

theorem found_mem (h : InText p) : p.found ∈ p.src.tokens := by
  obtain ⟨s, us, hnext, htokens⟩ := h
  rw [htokens, Scanner.tokens_eq, hnext]
  split_ifs <;> simp

/-- Going on, the lookahead stays in the text: a final token is found again. -/
theorem advance (h : InText p) : InText p.advance := by
  obtain ⟨s, us, hnext, htokens⟩ := h
  have hscanner : s.next.2 = p.scanner := by rw [hnext]
  have htail := Scanner.tokens_eq s
  split_ifs at htail with hfinal
  · refine ⟨p.scanner, us, rfl, ?_⟩
    rw [← hscanner, Scanner.tokens_eq, Scanner.next_of_isFinal hfinal, if_pos hfinal, ← htail]
    exact htokens
  · refine ⟨p.scanner, us ++ [s.next.1], rfl, ?_⟩
    rw [List.append_assoc, List.singleton_append, ← hscanner, ← htail]
    exact htokens

theorem note (h : InText p) (e : Terminal) : InText (p.note e) := h

theorem enter (h : InText p) (c : Text) : InText (p.enter c) := h

theorem reaches (h : InText p) (hreaches : p.Reaches q) : InText q := by
  induction hreaches with
  | refl => exact h
  | note _ e ih => exact ih.note e
  | enter _ c ih => exact ih.enter c
  | advance _ ih => exact ih.advance

theorem expect {e : Terminal} {t : Token} (h : InText p) (he : p.expect e = .ok (t, q)) :
    InText q :=
  h.reaches (Parser.reaches_of_expect he)

end InText

/-! ### Guarded parsing -/

section Parse

variable {ε α β : Type} {p q : Parser} {e : Terminal}

/-- A chain of guarded steps gives what the chain of the steps does. -/
theorem bind_eq {x : ExceptT ε Option α} {y : Except ε α} {f : α → ExceptT ε Option β}
    {g : α → Except ε β} (hx : x = ExceptT.mk (some y))
    (hf : ∀ a, y = .ok a → f a = ExceptT.mk (some (g a))) :
    x >>= f = ExceptT.mk (some (y >>= g)) := by
  subst hx
  cases y with
  | error e => rfl
  | ok a => exact hf a rfl

theorem inside_eq {production : String} {f : Parser → ExceptT SyntaxError Option (α × Parser)}
    {g : Parser → Except SyntaxError (α × Parser)}
    (h : f (p.enter (ascii production)) =
      ExceptT.mk (some (g (p.enter (ascii production))))) :
    p.inside production f = ExceptT.mk (some (p.inside production g)) :=
  bind_eq h fun _ _ => rfl

theorem advance_eq (h : InText p) : advance p = some p.advance := by
  have htoken : token p.src p.advance.found = some p.advance.found := token_eq h.advance.found_mem
  rw [advance, htoken]
  rfl

theorem failure_eq (p : Parser) : failure p = some p.failure := by
  rw [failure, position_eq]
  rfl

theorem expect_eq (h : InText p) (e : Terminal) :
    expect p e = ExceptT.mk (some (p.expect e)) := by
  cases ha : e.admits p.found with
  | true =>
    rw [Parser.expect_of_admits ha, expect, Parser.sees, ha]
    dsimp only
    rw [advance_eq (h.note e)]
    rfl
  | false =>
    rw [Parser.expect_of_not_admits ha, expect, Parser.sees, ha]
    dsimp only
    rw [failure_eq]
    rfl

theorem body_found (h : InText p) (hliteral : (⟨.literal, []⟩ : Terminal).admits p.found = true) :
    body p.found = some p.found.body :=
  body_eq (two_le_length_of_literal _ h.found_mem (Terminal.admits_kind.mp hliteral))

theorem literals_eq (h : InText p) (args : Array Literal) :
    literals args p = some (p.literals args) := by
  fun_induction Parser.literals args p with
  | case1 args p q hliteral => rw [literals, hliteral]
  | case2 args p q hliteral args' r hcomma =>
    obtain ⟨hfound, rfl⟩ := Prod.mk.inj hliteral
    rw [literals, hliteral]
    simp only [body_found (h.note _) hfound, advance_eq (h.note _), Option.bind_eq_bind,
      Option.bind_some, hcomma]
    rfl
  | case3 args p q hliteral args' r hcomma hlt ih =>
    obtain ⟨hfound, rfl⟩ := Prod.mk.inj hliteral
    obtain ⟨-, rfl⟩ := Prod.mk.inj hcomma
    have hcut := (h.note ⟨.literal, []⟩).advance.note (.mark 0x2C)
    rw [literals, hliteral]
    simp only [body_found (h.note _) hfound, advance_eq (h.note _), Option.bind_eq_bind,
      Option.bind_some, hcomma, advance_eq hcut, if_pos hlt]
    exact ih hcut.advance

theorem arguments_eq (h : InText p) : arguments p = ExceptT.mk (some p.arguments) := by
  refine inside_eq ?_
  rw [literals_eq (h.enter _)]
  rfl

theorem statement_eq (h : InText p) : statement p = ExceptT.mk (some p.statement) := by
  refine inside_eq (bind_eq (expect_eq (h.enter _) _) ?_)
  rintro ⟨name, p₁⟩ hname
  have h₁ := (h.enter _).expect hname
  refine bind_eq (expect_eq h₁ _) ?_
  rintro ⟨_, p₂⟩ hopen
  have h₂ := h₁.expect hopen
  refine bind_eq (arguments_eq h₂) ?_
  rintro ⟨args, p₃⟩ hargs
  have h₃ := h₂.reaches (Parser.reaches_of_arguments hargs)
  refine bind_eq (expect_eq h₃ _) ?_
  rintro ⟨_, p₄⟩ hclose
  exact bind_eq (expect_eq (h₃.expect hclose) _) fun _ _ => rfl

theorem statements_eq (h : InText p) (calls : Array Call) :
    statements calls p = ExceptT.mk (some (p.statements calls)) := by
  fun_induction Parser.statements calls p with
  | case1 calls p q hname =>
    rw [statements, hname]
    rfl
  | case2 calls p q hname e hcall =>
    obtain ⟨-, rfl⟩ := Prod.mk.inj hname
    rw [statements, hname]
    dsimp only
    rw [statement_eq (h.note _), hcall]
    rfl
  | case3 calls p q hname c r hcall hlt ih =>
    obtain ⟨-, rfl⟩ := Prod.mk.inj hname
    rw [statements, hname]
    dsimp only
    rw [statement_eq (h.note _), hcall]
    exact (if_pos hlt).trans (ih ((h.note _).reaches (Parser.reaches_of_statement hcall)))

theorem program_eq (h : InText p) : program p = ExceptT.mk (some p.program) := by
  refine inside_eq (bind_eq (expect_eq (h.enter _) _) ?_)
  rintro ⟨first, p₁⟩ hfn
  have h₁ := (h.enter _).expect hfn
  refine bind_eq (expect_eq h₁ _) ?_
  rintro ⟨_, p₂⟩ hmain
  have h₂ := h₁.expect hmain
  refine bind_eq (expect_eq h₂ _) ?_
  rintro ⟨_, p₃⟩ hopen
  have h₃ := h₂.expect hopen
  refine bind_eq (expect_eq h₃ _) ?_
  rintro ⟨_, p₄⟩ hclose
  have h₄ := h₃.expect hclose
  refine bind_eq (expect_eq h₄ _) ?_
  rintro ⟨_, p₅⟩ hbrace
  have h₅ := h₄.expect hbrace
  refine bind_eq (statements_eq h₅ _) ?_
  rintro ⟨calls, p₆⟩ hcalls
  have h₆ := h₅.reaches (Parser.reaches_of_statements hcalls)
  refine bind_eq (expect_eq h₆ _) ?_
  rintro ⟨last, p₇⟩ hlast
  exact bind_eq (expect_eq (h₆.expect hlast) _) fun _ _ => rfl

end Parse

/-- **Guarded parsing** gives what parsing gives. -/
theorem parse_eq (src : Text) : parse src = some (MacroCalls.parse src) := by
  have htoken : token src (Parser.ofText src).found = some (Parser.ofText src).found :=
    token_eq (inText_ofText src).found_mem
  have hfirst : ofText src = some (Parser.ofText src) := by
    rw [ofText, htoken]
    rfl
  rw [parse, hfirst]
  exact bind_eq (program_eq (inText_ofText src)) fun _ _ => rfl

end Guarded

end MacroCalls
