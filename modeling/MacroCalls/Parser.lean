import MacroCalls.Grammar
import MacroCalls.SourceFile
import MacroCalls.SyntaxError

/-!
# The state of a parser

A parser has one token of lookahead. Each time it looks whether that token belongs to some class, it
notes the description of the class, and when it goes on to the next token it forgets its notes. So
where the parse fails, the notes say what was looked for at the token that was found. Besides, the
parser knows the production that it is reading; one that it enters is forgotten behind its end for
the one that it was reading before.
-/

namespace MacroCalls

/-- The class holds no final token. -/
def Terminal.IsProper (e : Terminal) : Prop := e.kind ≠ .invalid ∧ e.kind ≠ .endOfInput

instance (e : Terminal) : Decidable e.IsProper := inferInstanceAs (Decidable (_ ∧ _))

theorem Terminal.IsProper.isFinal_of_admits {e : Terminal} (he : e.IsProper) {t : Token}
    (h : e.admits t = true) : t.isFinal = false := by
  rw [admits, Bool.and_eq_true, decide_eq_true_eq] at h
  rw [Token.isFinal, h.1]
  simp [he.1, he.2]

/-- A parser with its lookahead. -/
structure Parser where
  /-- The text being parsed. -/
  src : Text
  /-- The scanner behind the lookahead. -/
  scanner : Scanner
  /-- The lookahead. -/
  found : Token
  /-- The descriptions of the classes that were looked for at the lookahead, each of them once. -/
  expected : List Text := []
  /-- The production being read. -/
  context : Text := []
  deriving Repr

namespace Parser

/-- The parser at the first token of a text. -/
def ofText (src : Text) : Parser :=
  let (t, s) := Scanner.next ⟨src, 0⟩
  { src, scanner := s, found := t }

/-- The parser at the next token, with nothing noted. -/
def advance (p : Parser) : Parser :=
  let (t, s) := p.scanner.next
  { p with scanner := s, found := t, expected := [] }

/-- Note that a class of tokens was looked for. -/
def note (p : Parser) (e : Terminal) : Parser :=
  { p with expected := p.expected.insert e.description }

/-- Look whether the lookahead belongs to a class of tokens, and note that. -/
def sees (p : Parser) (e : Terminal) : Bool × Parser := (e.admits p.found, p.note e)

/-- The syntax error at the lookahead: what was looked for there is told in byte order. -/
def failure (p : Parser) : SyntaxError :=
  let position := (SourceFile.ofText [] p.src).position p.found.start
  { kind := .ofToken p.found.kind
    offset := p.found.start
    line := position.line
    column := position.column
    span := p.found.span
    found := p.found.text
    expected := some (p.expected.mergeSort (· ≤ ·))
    context := p.context }

/-- Take the lookahead if it belongs to a class of tokens, and fail otherwise. -/
def expect (p : Parser) (e : Terminal) : Except SyntaxError (Token × Parser) :=
  match p.sees e with
  | (true, p) => .ok (p.found, p.advance)
  | (false, p) => .error p.failure

/-- The parser with another production as its context. -/
def enter (p : Parser) (production : Text) : Parser := { p with context := production }

/-- Read a production, which is the context until its end. -/
def inside {m : Type → Type} [Monad m] {α : Type} (p : Parser) (production : String)
    (body : Parser → m (α × Parser)) : m (α × Parser) := do
  let (a, q) ← body (p.enter (ascii production))
  return (a, q.enter p.context)

/-! ### What a parser comes to -/

/-- What a parser can come to: it notes something, changes its context or goes on. -/
inductive Reaches (p : Parser) : Parser → Prop
  | refl : Reaches p p
  | note {q : Parser} (h : Reaches p q) (e : Terminal) : Reaches p (q.note e)
  | enter {q : Parser} (h : Reaches p q) (c : Text) : Reaches p (q.enter c)
  | advance {q : Parser} (h : Reaches p q) : Reaches p q.advance

theorem Reaches.trans {p q r : Parser} (h : p.Reaches q) (h' : q.Reaches r) : p.Reaches r := by
  induction h' with
  | refl => exact h
  | note _ e ih => exact ih.note e
  | enter _ c ih => exact ih.enter c
  | advance _ ih => exact ih.advance

/-- How much a parser can still take: the bytes behind the lookahead, and the lookahead itself
unless it is final. -/
def left (p : Parser) : Nat :=
  p.scanner.rest.length + if p.found.isFinal then 0 else 1

theorem left_advance_le_length (p : Parser) : p.advance.left ≤ p.scanner.rest.length := by
  have hnext := p.scanner.length_rest_next_lt
  have hle := p.scanner.length_rest_next_le
  rw [left, advance]
  dsimp only
  split
  · omega
  · rename_i hfinal
    have := hnext (by simpa using hfinal)
    omega

theorem left_advance_lt {p : Parser} (h : p.found.isFinal = false) : p.advance.left < p.left := by
  have hleft : p.left = p.scanner.rest.length + 1 := by rw [left, h, if_neg Bool.false_ne_true]
  rw [hleft]
  exact Nat.lt_succ_of_le p.left_advance_le_length

section Reaches

variable {p q : Parser} {e : Terminal} {t : Token}

/-- **Nothing is taken twice.** -/
theorem Reaches.left_le (h : p.Reaches q) : q.left ≤ p.left := by
  induction h with
  | refl => exact Nat.le_refl _
  | note _ _ ih => exact ih
  | enter _ _ ih => exact ih
  | @advance q _ ih =>
    exact Nat.le_trans (Nat.le_trans q.left_advance_le_length (Nat.le_add_right ..)) ih

theorem reaches_of_sees {b : Bool} (h : p.sees e = (b, q)) : p.Reaches q := by
  cases h
  exact Reaches.refl.note e

/-- **A token that was looked for** and is not final leaves less to take. -/
theorem left_advance_of_sees (h : p.sees e = (true, q)) (he : e.IsProper) :
    q.advance.left < p.left := by
  obtain ⟨hfound, rfl⟩ := Prod.mk.inj h
  exact left_advance_lt (p := p.note e) (he.isFinal_of_admits hfound)

/-- What was expected was found, and the parser has gone on. -/
theorem expect_eq_ok (h : p.expect e = .ok (t, q)) :
    e.admits p.found = true ∧ t = p.found ∧ q = (p.note e).advance := by
  unfold expect at h
  split at h
  · rename_i r hr
    obtain ⟨hfound, rfl⟩ := Prod.mk.inj hr
    cases h
    exact ⟨hfound, rfl, rfl⟩
  · cases h

theorem reaches_of_expect (h : p.expect e = .ok (t, q)) : p.Reaches q := by
  obtain ⟨-, -, rfl⟩ := expect_eq_ok h
  exact (Reaches.refl.note e).advance

theorem left_expect_lt (h : p.expect e = .ok (t, q)) (he : e.IsProper) : q.left < p.left := by
  obtain ⟨hfound, -, rfl⟩ := expect_eq_ok h
  exact left_advance_lt (p := p.note e) (he.isFinal_of_admits hfound)

end Reaches

end Parser

end MacroCalls
