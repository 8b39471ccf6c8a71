/-!
# Byte texts

Sources, names, values and messages are texts: lists of bytes, with no promise that the bytes are
valid UTF-8. This file has the few operations on texts that everything else uses: fixed ASCII
words, decimal numbers and the class of blank bytes.
-/

namespace MacroCalls

/-- A text is its bytes. -/
abbrev Text := List UInt8

/-- The bytes of an ASCII string. The fixed words of every message are written this way. -/
def ascii (s : String) : Text := s.toList.map Char.toUInt8

namespace Text

/-- The byte `"`. -/
abbrev quoteMark : UInt8 := 0x22

/-- The byte `\`. -/
abbrev backslash : UInt8 := 0x5C

/-- The line feed, which ends a line. -/
abbrev newline : UInt8 := 0x0A

/-- The carriage return, which may stand before a line feed. -/
abbrev carriageReturn : UInt8 := 0x0D

/-- The byte that opens a block or a placeholder. -/
abbrev openBrace : UInt8 := 0x7B

/-- The byte that closes a block or a placeholder. -/
abbrev closeBrace : UInt8 := 0x7D

/-- Blank bytes: space, tab, line feed, form feed and carriage return. -/
def isBlank (b : UInt8) : Bool :=
  b == 0x20 || b == 0x09 || b == newline || b == 0x0C || b == carriageReturn

theorem length_dropWhile_le (p : UInt8 → Bool) (t : Text) : (t.dropWhile p).length ≤ t.length :=
  (List.dropWhile_suffix p).length_le

theorem length_drop_lt_length_cons (b : UInt8) (t : Text) (n : Nat) :
    (t.drop n).length < (b :: t).length := by
  rw [List.length_drop, List.length_cons]
  omega

/-- `n` spaces. -/
def spaces (n : Nat) : Text := List.replicate n 0x20

/-- The decimal digits of `n`, without leading zeros. -/
def decimal (n : Nat) : Text := (Nat.toDigits 10 n).map Char.toUInt8

/-- The decimal text of an integer, with a minus sign when it is negative. -/
def integer (n : Int) : Text :=
  if n < 0 then 0x2D :: decimal n.natAbs else decimal n.natAbs

/-- The lower-case hexadecimal digit of `n < 16`. -/
def hexDigit (n : Nat) : UInt8 := (Nat.digitChar n).toUInt8

/-- The last `width` hexadecimal digits of `n`, with leading zeros. -/
def hex : (width n : Nat) → Text
  | 0, _ => []
  | width + 1, n => hex width (n / 16) ++ [hexDigit (n % 16)]

end Text

end MacroCalls
