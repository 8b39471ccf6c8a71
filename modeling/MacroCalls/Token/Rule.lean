import MacroCalls.Text.Basic

/-!
# Lexical rules

Five rules say which lexemes exist: runs of blanks, macro names (lower-case letters and a closing
`!`), identifiers, string literals (any bytes but a quote between quotes) and punctuation. Each
rule takes as many bytes from the start of a text as it can.
-/

namespace MacroCalls

/-- The kinds of lexemes. -/
inductive LexicalRule where
  | blank
  | macroName
  | identifier
  | literal
  | punctuation
  deriving DecidableEq, Repr

namespace Text

/-- Letters `a` to `z`. -/
def isLower (b : UInt8) : Bool := 0x61 ≤ b && b ≤ 0x7A

/-- Letters and the underscore, which may start an identifier. -/
def isIdentStart (b : UInt8) : Bool := isLower b || 0x41 ≤ b && b ≤ 0x5A || b == 0x5F

/-- Letters, digits and the underscore, which may continue an identifier. -/
def isIdentRest (b : UInt8) : Bool := isIdentStart b || 0x30 ≤ b && b ≤ 0x39

/-- Parentheses, braces, the comma and the semicolon. -/
def isPunctuation (b : UInt8) : Bool :=
  b == 0x28 || b == 0x29 || b == openBrace || b == closeBrace || b == 0x2C || b == 0x3B

/-- The byte `!`, which ends a macro name. -/
abbrev bang : UInt8 := 0x21

end Text

open Text

/-- The leading bytes that satisfy `p` together with the byte `last`, if that comes right after. -/
def closedRun? (p : UInt8 → Bool) (last : UInt8) (t : Text) : Option Text :=
  if (t.dropWhile p).head? = some last then some (t.takeWhile p ++ [last]) else none

namespace LexicalRule

/-- The lexeme of a rule at the start of a text. -/
def lexeme? : LexicalRule → Text → Option Text
  | _, [] => none
  | blank, b :: rest => if isBlank b then some (b :: rest.takeWhile isBlank) else none
  | macroName, b :: rest => if isLower b then closedRun? isLower bang (b :: rest) else none
  | identifier, b :: rest => if isIdentStart b then some (b :: rest.takeWhile isIdentRest) else none
  | literal, b :: rest =>
    if b = quoteMark then (closedRun? (· != quoteMark) quoteMark rest).map (quoteMark :: ·)
    else none
  | punctuation, b :: _ => if isPunctuation b then some [b] else none

theorem closedRun?_isPrefix {p : UInt8 → Bool} {last : UInt8} {t w : Text}
    (h : closedRun? p last t = some w) : w <+: t := by
  unfold closedRun? at h
  split at h
  · rename_i hl
    cases h
    obtain ⟨r, hr⟩ := List.head?_eq_some_iff.mp hl
    refine ⟨r, ?_⟩
    rw [← List.append_cons, ← hr, List.takeWhile_append_dropWhile]
  · cases h

/-- **Lexemes are cut off the start** of the text. -/
theorem lexeme?_isPrefix {r : LexicalRule} {t w : Text} (h : r.lexeme? t = some w) : w <+: t := by
  cases t with
  | nil => simp [lexeme?] at h
  | cons b rest =>
    cases r <;> simp only [lexeme?] at h <;> split at h <;> try cases h
    · simpa using List.takeWhile_prefix isBlank
    · exact closedRun?_isPrefix h
    · simpa using List.takeWhile_prefix isIdentRest
    · rename_i hb
      obtain ⟨v, hv, rfl⟩ := Option.map_eq_some_iff.mp h
      simpa [hb] using closedRun?_isPrefix hv
    · simp

theorem lexeme?_ne_nil {r : LexicalRule} {t w : Text} (h : r.lexeme? t = some w) : w ≠ [] := by
  cases t with
  | nil => simp [lexeme?] at h
  | cons b rest =>
    cases r <;> simp only [lexeme?] at h <;> split at h <;> try cases h
    · simp
    · unfold closedRun? at h
      split at h <;> cases h
      simp
    · simp
    · obtain ⟨v, -, rfl⟩ := Option.map_eq_some_iff.mp h
      simp
    · simp

theorem length_lexeme?_le {r : LexicalRule} {t w : Text} (h : r.lexeme? t = some w) :
    w.length ≤ t.length := (lexeme?_isPrefix h).length_le

end LexicalRule

end MacroCalls
