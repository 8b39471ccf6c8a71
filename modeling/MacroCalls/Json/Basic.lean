import MacroCalls.Text.Glyph

/-!
# JSON values and how they are written

A JSON value keeps the members of an object in their order, duplicates included, and a number as
it is spelled. Strings are byte texts. In written strings every scalar value is valid UTF-8: a
stray byte becomes the replacement character `U+FFFD`.

A value can be laid out in several ways, which differ in line breaks and blanks only
(`Json.Layout`).
-/

namespace MacroCalls

/-- A JSON value. -/
inductive Json where
  | null
  | bool (b : Bool)
  /-- A number, as it is spelled. -/
  | number (lexeme : Text)
  | string (s : Text)
  | array (items : List Json)
  | object (members : List (Text × Json))
  deriving Repr

namespace Json

open Text

/-- The letter that names a control character after a backslash. -/
def controlLetter? (c : Char) : Option UInt8 :=
  match c.toNat with
  | 0x08 => some 0x62
  | 0x09 => some 0x74
  | 0x0A => some 0x6E
  | 0x0C => some 0x66
  | 0x0D => some 0x72
  | _ => none

/-- Scalar values that are not written as themselves although they could be: the angle brackets
and the ampersand, and the line and paragraph separators. -/
def isGuarded (c : Char) : Bool :=
  c.toNat = 0x3C || c.toNat = 0x3E || c.toNat = 0x26 || c.toNat = 0x2028 || c.toNat = 0x2029

/-- A scalar value as it is written in a string. -/
def escaped (c : Char) : Text :=
  if c.toNat = 0x22 ∨ c.toNat = 0x5C then [backslash, c.toUInt8]
  else
    match controlLetter? c with
    | some letter => [backslash, letter]
    | none =>
      if c.toNat < 0x20 || isGuarded c then backslash :: 0x75 :: hex 4 c.toNat else Glyph.encode c

/-- A text as a JSON string. -/
def stringText (t : Text) : Text :=
  quoteMark :: t.glyphs.flatMap (fun x => escaped x.char) ++ [quoteMark]

/-- Where blanks stand in a written value. -/
structure Layout where
  /-- What stands before an item, or before the end of a list, at a depth. -/
  lineBreak : Nat → Text
  /-- What stands behind the colon of a member. -/
  afterColon : Text

/-- No blanks at all. -/
def Layout.compact : Layout := ⟨fun _ => [], []⟩

/-- One item per line, each indented by so many copies of `unit` as it is deep. -/
def Layout.indented (unit : Text) : Layout :=
  ⟨fun depth => newline :: (List.replicate depth unit).flatten, [0x20]⟩

/-- Written items of an array or object between its brackets. -/
def Layout.enclose (l : Layout) (depth : Nat) (first last : UInt8) (items : List Text) : Text :=
  match items with
  | [] => [first, last]
  | item :: rest =>
    first :: l.lineBreak (depth + 1) ++ item ++
      rest.flatMap (fun t => 0x2C :: l.lineBreak (depth + 1) ++ t) ++ l.lineBreak depth ++ [last]

mutual

/-- A value laid out at a depth. -/
def write (l : Layout) (depth : Nat) : Json → Text
  | null => ascii "null"
  | bool b => if b then ascii "true" else ascii "false"
  | number lexeme => lexeme
  | string s => stringText s
  | array items => l.enclose depth 0x5B 0x5D (writeItems l (depth + 1) items)
  | object members => l.enclose depth openBrace closeBrace (writeMembers l (depth + 1) members)

/-- The items of an array. -/
def writeItems (l : Layout) (depth : Nat) : List Json → List Text
  | [] => []
  | j :: rest => write l depth j :: writeItems l depth rest

/-- The members of an object, each with its key. -/
def writeMembers (l : Layout) (depth : Nat) : List (Text × Json) → List Text
  | [] => []
  | (key, j) :: rest =>
    (stringText key ++ 0x3A :: l.afterColon ++ write l depth j) :: writeMembers l depth rest

end

end Json

end MacroCalls
