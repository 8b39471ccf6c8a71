import MacroCalls.Text.Basic

/-!
# Painted texts

Color is put on a stretch of text by a terminal sequence before it and another behind it.
-/

namespace MacroCalls

/-- The colors in use. -/
inductive Color where
  | red
  | green
  | yellow
  | blue
  | magenta
  | cyan
  deriving DecidableEq, Repr

/-- The number that selects a foreground color. -/
def Color.code : Color → Nat
  | red => 31
  | green => 32
  | yellow => 33
  | blue => 34
  | magenta => 35
  | cyan => 36

/-- The escape byte, which opens a terminal sequence. -/
abbrev Text.escape : UInt8 := 0x1B

/-- The text in a color, or as it is where colors are off. -/
def Text.painted (on : Bool) (color : Color) (t : Text) : Text :=
  if on then
    escape :: ascii "[" ++ decimal color.code ++ ascii "m" ++ t ++ escape :: ascii "[0m"
  else t

end MacroCalls
