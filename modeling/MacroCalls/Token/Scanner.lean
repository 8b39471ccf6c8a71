import MacroCalls.Span
import MacroCalls.Text.Glyph
import MacroCalls.Token.Rule

/-!
# Tokens and the scanner

A scanner walks over a text and hands out its tokens one by one. Runs of blanks are skipped; then
the first of the other rules that matches gives the token. At the end of the text the scanner
gives an end-of-input token, and where no rule matches an invalid token that holds one glyph.
These two are final: asked again, the scanner gives them again.
-/

namespace MacroCalls

/-- What a token is. -/
inductive Token.Kind where
  | invalid
  | endOfInput
  | macroName
  | identifier
  | literal
  | punctuation
  deriving DecidableEq, Repr

/-- A token with its text and the offset at which that starts. -/
structure Token where
  kind : Token.Kind
  text : Text
  start : Nat
  deriving DecidableEq, Repr

namespace Token

/-- The offset just past the token. -/
def stop (t : Token) : Nat := t.start + t.text.length

/-- The bytes of the token. -/
def span (t : Token) : Span := ⟨t.start, t.stop⟩

/-- No token comes after a final one. -/
def isFinal (t : Token) : Bool := t.kind = .endOfInput || t.kind = .invalid

/-- What stands between the quotes of a literal. -/
def body (t : Token) : Text := t.text.tail.dropLast

end Token

/-- The rules that give tokens, in the order in which they are tried. -/
def LexicalRule.significant : List (LexicalRule × Token.Kind) :=
  [(macroName, .macroName), (identifier, .identifier), (literal, .literal),
    (punctuation, .punctuation)]

/-- The first significant lexeme at the start of a text. -/
def Token.lexeme? (t : Text) : Option (Token.Kind × Text) :=
  LexicalRule.significant.findSome? fun (rule, kind) => (rule.lexeme? t).map (kind, ·)

/-- What is left of a text, and how many of its bytes have been read. -/
structure Scanner where
  rest : Text
  offset : Nat := 0
  deriving DecidableEq, Repr

namespace Scanner

/-- The scanner behind the first `n` bytes left. -/
def advance (s : Scanner) (n : Nat) : Scanner := ⟨s.rest.drop n, s.offset + n⟩

/-- The scanner behind the blanks that come next. -/
def skipBlank (s : Scanner) : Scanner :=
  match LexicalRule.blank.lexeme? s.rest with
  | some w => s.advance w.length
  | none => s

/-- The token at the scanner, no blank coming next, and the scanner behind it. -/
def token (s : Scanner) : Token × Scanner :=
  match Token.lexeme? s.rest, s.rest with
  | some (kind, w), _ => (⟨kind, w, s.offset⟩, s.advance w.length)
  | none, [] => (⟨.endOfInput, [], s.offset⟩, s)
  | none, b :: rest => (⟨.invalid, (Glyph.first b rest).bytes, s.offset⟩, s)

/-- The next token and the scanner behind it. -/
def next (s : Scanner) : Token × Scanner := s.skipBlank.token

theorem length_rest_skipBlank_le (s : Scanner) : s.skipBlank.rest.length ≤ s.rest.length := by
  unfold skipBlank advance
  split <;> simp

theorem exists_rule_of_lexeme? {t w : Text} {kind : Token.Kind}
    (h : Token.lexeme? t = some (kind, w)) :
    ∃ rule, (rule, kind) ∈ LexicalRule.significant ∧ rule.lexeme? t = some w := by
  obtain ⟨⟨rule, kind'⟩, hmem, hrule⟩ := List.exists_of_findSome?_eq_some h
  obtain ⟨w', hw, heq⟩ := Option.map_eq_some_iff.mp hrule
  cases heq
  exact ⟨rule, hmem, hw⟩

/-- A token that is not final takes something off the text. -/
theorem length_rest_next_lt (s : Scanner) (h : s.next.1.isFinal = false) :
    s.next.2.rest.length < s.rest.length := by
  have hs := s.length_rest_skipBlank_le
  unfold next at h ⊢
  generalize s.skipBlank = s' at h hs ⊢
  unfold token at h ⊢
  split at h
  · rename_i kind w hw
    obtain ⟨rule, -, hw⟩ := exists_rule_of_lexeme? hw
    have hpos := List.length_pos_iff.mpr (LexicalRule.lexeme?_ne_nil hw)
    have hle := LexicalRule.length_lexeme?_le hw
    simp [advance]
    omega
  · simp [Token.isFinal] at h
  · simp [Token.isFinal] at h

theorem length_rest_next_le (s : Scanner) : s.next.2.rest.length ≤ s.rest.length := by
  refine Nat.le_trans ?_ s.length_rest_skipBlank_le
  unfold next token advance
  split <;> simp

theorem length_rest_lt_of_next {s s' : Scanner} {t : Token} (h : s.next = (t, s'))
    (hf : ¬ t.isFinal = true) : s'.rest.length < s.rest.length := by
  have := s.length_rest_next_lt (by rw [h]; exact Bool.eq_false_iff.mpr hf)
  rwa [h] at this

/-- The tokens up to the first final one, which is the last of the list. -/
def tokens (s : Scanner) : List Token :=
  match h : s.next with
  | (t, s') =>
    if hf : t.isFinal then [t]
    else
      have : s'.rest.length < s.rest.length := length_rest_lt_of_next h hf
      t :: s'.tokens
termination_by s.rest.length

theorem tokens_eq (s : Scanner) :
    s.tokens = if s.next.1.isFinal then [s.next.1] else s.next.1 :: s.next.2.tokens := by
  rw [tokens]
  simp only [dite_eq_ite]

/-- The tokens that `n` calls in a row give. -/
def calls : Nat → Scanner → List Token
  | 0, _ => []
  | n + 1, s => s.next.1 :: calls n s.next.2

end Scanner

end MacroCalls
