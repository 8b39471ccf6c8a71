import MacroCalls.Program
import MacroCalls.Text.Glyph

/-!
# Format strings

The value of a literal, read as a format string, is a sequence of pieces: stretches of literal
text without braces, and placeholders, a pair of braces with nothing but blanks between them.
Pieces and errors are located in the program's source; the value starts one byte after the
literal's span does.
-/

namespace MacroCalls

/-- The kinds of pieces. -/
inductive Piece.Kind where
  | literal
  | placeholder
  deriving DecidableEq, Repr

/-- A piece of a format string. A placeholder has no value. -/
structure Piece where
  kind : Piece.Kind
  span : Span
  val : Text := []
  deriving DecidableEq, Repr

/-- What is wrong with a format string. -/
inductive FormatError.Reason where
  | unmatchedClose
  | unclosedOpen
  | invalidCharacter
  | other (message : Text)
  deriving DecidableEq, Repr

/-- An error in a format string, at the byte that is to blame. -/
structure FormatError where
  offset : Int
  reason : FormatError.Reason
  deriving DecidableEq, Repr

/-- What is wrong, in words. -/
def FormatError.Reason.message : FormatError.Reason → Text
  | unmatchedClose => ascii "unmatched '\x7d' in format string"
  | unclosedOpen => ascii "unclosed '\x7b' in format string"
  | invalidCharacter => ascii "invalid character in format argument"
  | other message => message

/-- The error as one line. -/
def FormatError.message (e : FormatError) : Text :=
  ascii "offset " ++ Text.integer e.offset ++ ascii ": " ++ e.reason.message

namespace FormatString

open Text

/-- Bytes other than braces. -/
def isPlain (b : UInt8) : Bool := b != openBrace && b != closeBrace

theorem length_lt_of_dropWhile {p : UInt8 → Bool} {t after : Text} {c : UInt8}
    (h : t.dropWhile p = c :: after) : after.length < t.length := by
  have hle := length_dropWhile_le p t
  rw [h, List.length_cons] at hle
  exact hle

/-- The pieces of the rest of a format string, of which `i` bytes have been read. Offsets count
from `base`, where the string starts. -/
def pieces (base : Int) (i : Nat) : Text → Except FormatError (List Piece)
  | [] => .ok []
  | b :: rest =>
    if b = closeBrace then .error ⟨wrap64 (base + i), .unmatchedClose⟩
    else if b = openBrace then
      let inner := rest.takeWhile isPlain
      match h : rest.dropWhile isPlain with
      | [] => .error ⟨wrap64 (base + i), .unclosedOpen⟩
      | c :: after =>
        if c = openBrace then .error ⟨wrap64 (base + i), .unclosedOpen⟩
        else
          match Glyph.offset? (!·.isBlank) (glyphs inner) with
          | some j => .error ⟨wrap64 (base + (i + 1 + j : Nat)), .invalidCharacter⟩
          | none =>
            have : after.length < rest.length := length_lt_of_dropWhile h
            let next := i + inner.length + 2
            (pieces base next after).map
              (⟨.placeholder, ⟨wrap64 (base + i), wrap64 (base + next)⟩, []⟩ :: ·)
    else
      let stretch := b :: rest.takeWhile isPlain
      have := length_dropWhile_le isPlain rest
      let next := i + stretch.length
      (pieces base next (rest.dropWhile isPlain)).map
        (⟨.literal, ⟨wrap64 (base + i), wrap64 (base + next)⟩, stretch⟩ :: ·)
termination_by t => t.length
decreasing_by all_goals simp only [List.length_cons]; omega

end FormatString

/-- The pieces of a literal, read as a format string. -/
def Literal.pieces (lit : Literal) : Except FormatError (List Piece) :=
  FormatString.pieces (lit.span.start + 1) 0 lit.val

/-- The spans of the placeholders among some pieces. -/
def Piece.placeholders (pieces : List Piece) : List Span :=
  (pieces.filter (·.kind = .placeholder)).map (·.span)

end MacroCalls
