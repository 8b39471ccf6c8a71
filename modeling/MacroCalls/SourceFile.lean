import MacroCalls.Span
import MacroCalls.Text.Glyph

/-!
# Source files

A source file is a named text with an index of its line starts. Lines end at line feeds; a
trailing line feed starts a final, empty line. The position of a byte offset is its line, found by
bisection of the index, and its column, the number of glyphs since the line start; both count from
one.
-/

namespace MacroCalls

namespace Text

/-- The offsets just past the line feeds of a text whose first byte has offset `o`. -/
def afterNewlines (o : Nat) : Text → List Nat
  | [] => []
  | b :: rest =>
    if b = newline then (o + 1) :: afterNewlines (o + 1) rest else afterNewlines (o + 1) rest

/-- The offsets at which the lines of a text start. -/
def lineStarts (t : Text) : List Nat := 0 :: afterNewlines 0 t

/-- A line without the carriage return that may end it. -/
def dropCarriageReturn (t : Text) : Text :=
  if t.getLast? = some carriageReturn then t.dropLast else t

end Text

/-- A named text with its line starts. -/
structure SourceFile where
  name : Text
  text : Text
  /-- The offsets at which the lines start, in increasing order. -/
  starts : Array Nat
  starts_eq : starts = text.lineStarts.toArray

/-- A line and a column, both counted from one. -/
structure Position where
  line : Nat
  column : Nat
  deriving DecidableEq, Repr

/-- The least index in `[lo, hi]` from which on an increasing array lies above `x`, by bisection. -/
def firstAbove (a : Array Nat) (x lo hi : Nat) (hhi : hi ≤ a.size) : Nat :=
  if h : lo < hi then
    if x < a[(lo + hi) / 2] then firstAbove a x lo ((lo + hi) / 2) (by omega)
    else firstAbove a x ((lo + hi) / 2 + 1) hi hhi
  else lo
termination_by hi - lo

theorem firstAbove_le (a : Array Nat) (x lo hi : Nat) (hhi : hi ≤ a.size) (h : lo ≤ hi) :
    firstAbove a x lo hi hhi ≤ hi := by
  fun_induction firstAbove a x lo hi hhi with
  | case1 lo hi _ _ _ ih => have := ih (by omega); omega
  | case2 lo hi _ _ _ ih => exact ih (by omega)
  | case3 lo hi _ _ => exact h

namespace SourceFile

/-- The file of a text: its lines are indexed once. -/
def ofText (name text : Text) : SourceFile := ⟨name, text, text.lineStarts.toArray, rfl⟩

theorem size_starts_pos (f : SourceFile) : 0 < f.starts.size := by
  rw [f.starts_eq]
  simp [Text.lineStarts]

/-- The number of lines, at least one. -/
def lineCount (f : SourceFile) : Nat := f.starts.size

/-- The number of lines that start at or before offset `o`. -/
def lineAt (f : SourceFile) (o : Nat) : Nat := firstAbove f.starts o 0 f.starts.size (Nat.le_refl _)

theorem lineAt_le (f : SourceFile) (o : Nat) : f.lineAt o ≤ f.starts.size :=
  firstAbove_le _ _ _ _ _ (Nat.zero_le _)

/-- The position of an offset, which is clamped into the file first. -/
def position (f : SourceFile) (offset : Int) : Position :=
  let o := f.text.clamp offset
  let n := f.lineAt o
  have : n - 1 < f.starts.size := by have := f.lineAt_le o; have := f.size_starts_pos; omega
  ⟨n, (f.text.slice f.starts[n - 1] o).glyphCount + 1⟩

/-- Where line `n` starts and ends, its line feed left out, if there is such a line. -/
def lineBounds? (f : SourceFile) (n : Nat) : Option (Nat × Nat) :=
  if h : 1 ≤ n ∧ n ≤ f.starts.size then
    some (f.starts[n - 1], if h' : n < f.starts.size then f.starts[n] - 1 else f.text.length)
  else none

/-- The text of line `n` without its line end, or nothing if there is no such line. -/
def line (f : SourceFile) (n : Nat) : Text :=
  match f.lineBounds? n with
  | some (lo, hi) => (f.text.slice lo hi).dropCarriageReturn
  | none => []

/-- The offset at which line `n` ends, its line feed left out, or the end of the file. -/
def lineEnd (f : SourceFile) (n : Nat) : Nat :=
  match f.lineBounds? n with
  | some (_, hi) => hi
  | none => f.text.length

end SourceFile

end MacroCalls
