import MacroCalls.Text.Basic

/-!
# Glyphs

Columns, carets, quoting and JSON strings look at a text glyph by glyph. A glyph is a Unicode
scalar value in its UTF-8 encoding, or a single stray byte that is part of no such encoding. A
byte is stray when no encoding of a scalar value starts there, so surrogates, overlong forms and
values above `U+10FFFF` fall apart into stray bytes.

Decoding loses nothing: `flatMap_bytes_glyphs` says that the glyphs of a text spell the text.
-/

namespace MacroCalls

/-- A scalar value, or a byte that belongs to no UTF-8 encoding. -/
inductive Glyph where
  | scalar (c : Char)
  | stray (b : UInt8)
  deriving DecidableEq, Repr

namespace Glyph

/-- The UTF-8 encoding of a scalar value. -/
def encode (c : Char) : Text :=
  let n := c.toNat
  if n < 0x80 then [n.toUInt8]
  else if n < 0x800 then [(0xC0 + n / 64).toUInt8, (0x80 + n % 64).toUInt8]
  else if n < 0x10000 then
    [(0xE0 + n / 4096).toUInt8, (0x80 + n / 64 % 64).toUInt8, (0x80 + n % 64).toUInt8]
  else
    [(0xF0 + n / 262144).toUInt8, (0x80 + n / 4096 % 64).toUInt8, (0x80 + n / 64 % 64).toUInt8,
      (0x80 + n % 64).toUInt8]

/-- The bytes a glyph stands for. -/
def bytes : Glyph → Text
  | scalar c => encode c
  | stray b => [b]

/-- The scalar value that stands for a byte which is not valid UTF-8. -/
abbrev replacement : Char := Char.ofNat 0xFFFD

/-- The scalar value of a glyph, with the replacement character for a stray byte. -/
def char : Glyph → Char
  | scalar c => c
  | stray _ => replacement

/-- The number of bytes of a glyph. -/
def width (x : Glyph) : Nat := x.bytes.length

/-- Blanks: space, tab, line feed, form feed and carriage return. -/
def isBlank (x : Glyph) : Bool := [' ', '\t', '\n', '\x0c', '\r'].contains x.char

/-- The number of bytes before the first glyph with a property. -/
def offset? (p : Glyph → Bool) : List Glyph → Option Nat
  | [] => none
  | x :: xs => if p x then some 0 else (offset? p xs).map (x.width + ·)

/-- The number that the first byte `b` and the bytes after it would encode, going by `b` alone. -/
def candidate (b : UInt8) (rest : Text) : Nat :=
  let low (i : Nat) : Nat := (rest.getD i 0).toNat % 64
  if b < 0x80 then b.toNat
  else if b < 0xE0 then b.toNat % 32 * 64 + low 0
  else if b < 0xF0 then b.toNat % 16 * 4096 + low 0 * 64 + low 1
  else b.toNat % 8 * 262144 + low 0 * 4096 + low 1 * 64 + low 2

/-- The glyph that starts the text `b :: rest`: the candidate, if its encoding stands there. -/
def first (b : UInt8) (rest : Text) : Glyph :=
  let c := Char.ofNat (candidate b rest)
  if encode c <+: b :: rest then scalar c else stray b

theorem encode_ne_nil (c : Char) : encode c ≠ [] := by
  unfold encode
  grind

theorem bytes_ne_nil (x : Glyph) : x.bytes ≠ [] := by
  cases x with
  | scalar c => exact encode_ne_nil c
  | stray b => simp [bytes]

theorem width_pos (x : Glyph) : 0 < x.width := List.length_pos_iff.mpr x.bytes_ne_nil

/-- The first glyph of a text stands at its start. -/
theorem bytes_first_append_drop (b : UInt8) (rest : Text) :
    (first b rest).bytes ++ rest.drop ((first b rest).width - 1) = b :: rest := by
  simp only [first]
  generalize Char.ofNat (candidate b rest) = c
  by_cases h : encode c <+: b :: rest
  · obtain ⟨tail, ht⟩ := h
    rw [if_pos ⟨tail, ht⟩]
    cases he : encode c with
    | nil => exact absurd he (encode_ne_nil c)
    | cons a r =>
      rw [he] at ht
      obtain ⟨rfl, rfl⟩ := List.cons.inj ht
      simp [bytes, width, he]
  · rw [if_neg h]
    simp [bytes, width]

end Glyph

namespace Text

/-- The glyphs of a text, in order. -/
def glyphs : Text → List Glyph
  | [] => []
  | b :: rest => Glyph.first b rest :: glyphs (rest.drop ((Glyph.first b rest).width - 1))
termination_by t => t.length
decreasing_by exact length_drop_lt_length_cons ..

/-- The number of glyphs of a text. -/
def glyphCount (t : Text) : Nat := t.glyphs.length

/-- **Decoding loses nothing.** -/
theorem flatMap_bytes_glyphs (t : Text) : t.glyphs.flatMap Glyph.bytes = t := by
  fun_induction glyphs t with
  | case1 => rfl
  | case2 b rest ih => rw [List.flatMap_cons, ih, Glyph.bytes_first_append_drop]

end Text

end MacroCalls
