import MacroCalls.Diagnostic
import MacroCalls.Fault
import MacroCalls.SourceFile
import MacroCalls.Text.Painted

/-!
# Excerpts

The excerpt of a diagnostic shows the lines of the source on which its labels start, each followed
by one marker row per label: carets under the part of the line that the label covers, and its
message. For this the labels are first put together line by line, as they come; then the lines are
sorted, and the labels of each line by their starts. Row by row, an excerpt is a list of `Row`s,
which is written with a gutter wide enough for the largest line number.
-/

namespace MacroCalls

/-- The carets under a line and the message behind them. -/
structure Marker where
  /-- The column of the first caret, counted from one. -/
  column : Nat
  /-- The number of carets. -/
  width : Nat
  /-- Whether the label is on the very place the diagnostic is about. -/
  primary : Bool
  message : Text
  deriving DecidableEq, Repr

/-- A row of an excerpt. -/
inductive Row where
  /-- Where the diagnostic is located. -/
  | location (name : Text) (position : Position)
  | divider
  /-- A line of the source. -/
  | source (number : Nat) (line : Text)
  | marker (m : Marker)
  deriving DecidableEq, Repr

namespace Excerpt

/-- The labels in the order of their starts; labels with one start keep their order. -/
def sorted (labels : List Label) : List Label :=
  labels.mergeSort fun a b => a.span.start ≤ b.span.start

/-- The line on which a span starts. -/
def lineOf (f : SourceFile) (s : Span) : Nat := (f.position s.start).line

/-- Labels put together by lines. -/
structure Grouping where
  /-- The lines, in the order in which they were met. -/
  met : List Nat := []
  /-- The labels of each line in the order in which they came. An entry takes the place of those of
  its line behind it. -/
  byLine : List (Nat × List Label) := []
  deriving DecidableEq, Repr

namespace Grouping

/-- The grouping with one more label, on line `n`. -/
def add (g : Grouping) (n : Nat) (l : Label) : Grouping where
  met := if (g.byLine.lookup n).isNone then g.met ++ [n] else g.met
  byLine := (n, (g.byLine.lookup n).getD [] ++ [l]) :: g.byLine

/-- The labels of line `n`. -/
def labels (g : Grouping) (n : Nat) : List Label := (g.byLine.lookup n).getD []

/-- The lines to show, in increasing order: those that were met, or without any a given one. -/
def lines (g : Grouping) (other : Nat) : List Nat :=
  (if g.met.isEmpty then [other] else g.met).mergeSort (· ≤ ·)

end Grouping

/-- The labels of a diagnostic by the lines on which they start. -/
def grouping (f : SourceFile) (labels : List Label) : Grouping :=
  labels.foldl (fun g l => g.add (lineOf f l.span) l) {}

/-- The numbers of the lines to show: those on which a label starts, or without any label the one
on which the diagnostic itself does. -/
def lines (f : SourceFile) (d : Diagnostic) : List Nat :=
  (grouping f d.labels).lines (lineOf f d.span)

/-- The number of carets for a span that starts on line `n`: one if the span ends where it starts
or before, else the glyphs of the file that it covers up to the end of the line. A span that ends
before the file starts has no place in the file to look at. -/
def caretCount (f : SourceFile) (n : Nat) (s : Span) : Except Fault Nat :=
  let stop := min s.stop (f.lineEnd n)
  if stop ≤ s.start then .ok 1
  else if stop < 0 then .error .labelBeforeFile
  else .ok (s.slice (f.text.take stop.toNat)).glyphCount

/-- The marker of a label that starts on line `n`. -/
def marker (f : SourceFile) (d : Diagnostic) (n : Nat) (l : Label) : Except Fault Marker :=
  (caretCount f n l.span).map fun width =>
    ⟨(f.position l.span.start).column, width, l.span = d.span, l.message⟩

/-- The rows of line `n`: the line and the markers of its labels. -/
def lineRows (f : SourceFile) (d : Diagnostic) (n : Nat) (labels : List Label) :
    Except Fault (List Row) :=
  ((sorted labels).mapM (marker f d n)).map fun markers =>
    .source n (f.line n) :: markers.map .marker

/-- The rows of an excerpt. -/
def rows (f : SourceFile) (d : Diagnostic) : Except Fault (List Row) :=
  let g := grouping f d.labels
  ((lines f d).mapM fun n => lineRows f d n (g.labels n)).map fun groups =>
    .location (if f.name.isEmpty then ascii "<input>" else f.name) (f.position d.span.start) ::
      .divider :: groups.flatten

/-- The number of digits of the largest line number shown. -/
def gutter (f : SourceFile) (d : Diagnostic) : Nat :=
  (Text.decimal ((lines f d).getLastD 0)).length

end Excerpt

/-- The text moved to the right end of `width` columns. -/
def Text.padLeft (width : Nat) (t : Text) : Text := spaces (width - t.length) ++ t

/-- A message after a space, or nothing if it is empty. -/
def Text.appended (t : Text) : Text := if t.isEmpty then [] else ascii " " ++ t

/-- A marker as it stands behind the gutter. -/
def Marker.text (color : Bool) (m : Marker) : Text :=
  Text.spaces (m.column - 1) ++
    Text.painted color (if m.primary then .yellow else .blue) (List.replicate m.width 0x5E) ++
    m.message.appended

/-- A row behind a gutter for line numbers of `width` digits. -/
def Row.text (color : Bool) (width : Nat) : Row → Text
  | location name position =>
    Text.spaces (width + 1) ++ ascii "--> " ++ name ++ ascii ":" ++ Text.decimal position.line ++
      ascii ":" ++ Text.decimal position.column ++ [Text.newline]
  | divider => Text.spaces (width + 1) ++ ascii " |" ++ [Text.newline]
  | source number line =>
    ascii " " ++ (Text.decimal number).padLeft width ++ ascii " | " ++ line ++ [Text.newline]
  | marker m => Text.spaces (width + 1) ++ ascii " | " ++ m.text color ++ [Text.newline]

/-- The excerpt of a diagnostic. -/
def Excerpt.text (color : Bool) (f : SourceFile) (d : Diagnostic) : Except Fault Text :=
  (rows f d).map fun rows => rows.flatMap (Row.text color (gutter f d))

end MacroCalls
