import MacroCalls.Text.Printable
import MacroCalls.Text.Glyph

/-!
# Quoted texts

Messages and outlines show a text between double quotes on one line. Printable characters stand
for themselves, the quote and the backslash get a backslash, the seven usual controls have a
letter, every other control and every stray byte is written as `\xNN`, and all remaining
characters as `\uNNNN` or `\UNNNNNNNN`, in lower-case hexadecimal.
-/

namespace MacroCalls.Text

/-- The letter that names a control character after a backslash. -/
def controlLetter? (c : Char) : Option UInt8 :=
  match c.toNat with
  | 0x07 => some 0x61
  | 0x08 => some 0x62
  | 0x09 => some 0x74
  | 0x0A => some 0x6E
  | 0x0B => some 0x76
  | 0x0C => some 0x66
  | 0x0D => some 0x72
  | _ => none

/-- A scalar value as it stands between quotes. -/
def quotedScalar (c : Char) : Text :=
  if c.toNat = 0x22 ∨ c.toNat = 0x5C then [backslash, c.toUInt8]
  else if isPrintable c then Glyph.encode c
  else match controlLetter? c with
    | some letter => [backslash, letter]
    | none =>
      if c.toNat < 0x20 ∨ c.toNat = 0x7F then backslash :: 0x78 :: hex 2 c.toNat
      else if c.toNat < 0x10000 then backslash :: 0x75 :: hex 4 c.toNat
      else backslash :: 0x55 :: hex 8 c.toNat

/-- A glyph as it stands between quotes. -/
def quotedGlyph : Glyph → Text
  | .scalar c => quotedScalar c
  | .stray b => backslash :: 0x78 :: hex 2 b.toNat

/-- The text between double quotes, on one line. -/
def quoted (t : Text) : Text := quoteMark :: t.glyphs.flatMap quotedGlyph ++ [quoteMark]

end MacroCalls.Text
