import MacroCalls.Proofs.Guarded.Report
import MacroCalls.Proofs.ReportRows
import Mathlib.Data.Finset.Card
import Mathlib.Data.Finset.Dedup
import Mathlib.Order.Bounds.Basic

/-!
# Report rows line up

The rows of an excerpt have a gutter, which ends with a bar. It is as wide as the largest line
number shown, and every other number fits, since numbers that are not larger have no more digits
(`Text.length_decimal_mono`). Where the lines of a report end is clear as long as no line feed
stands in the texts it shows; the lines of the source have none.

Main statement: `report_rows_line_up`.
-/

namespace MacroCalls

open Text

/-! ### Decimal numbers -/

theorem Text.length_decimal_mono {m n : Nat} (h : m ≤ n) :
    (decimal m).length ≤ (decimal n).length := by
  induction n using decimal_induction generalizing m with
  | digit n hn =>
    rw [decimal_of_lt hn, decimal_of_lt (by omega : m < 10)]
    exact Nat.le_refl 1
  | more n hn ih =>
    rw [decimal_of_le hn, List.length_append, List.length_singleton]
    by_cases hm : m < 10
    · rw [decimal_of_lt hm, List.length_singleton]
      omega
    · have := ih (m := m / 10) (by omega)
      rw [decimal_of_le (by omega), List.length_append, List.length_singleton]
      omega

/-! ### Gutters -/

/-- **A row behind a gutter** for numbers of `w` digits: the bar is at index `w + 2`, and before it
there are only spaces and a number, which ends at index `w`. A row without a number has an empty
one. -/
structure Text.Guttered (w : Nat) (number row : Text) : Prop where
  length_le : number.length ≤ w
  bar : row[w + 2]? = some 0x7C
  number_eq : row.slice (w + 1 - number.length) (w + 1) = number
  blank : ∀ i < w + 2, ¬ (w + 1 - number.length ≤ i ∧ i ≤ w) → row[i]? = some 0x20

theorem Text.guttered_append {w : Nat} {number : Text} (h : number.length ≤ w) (rest : Text) :
    Guttered w number
      (spaces (w + 1 - number.length) ++ number ++ 0x20 :: 0x7C :: rest) := by
  have hspaces : (spaces (w + 1 - number.length)).length = w + 1 - number.length :=
    List.length_replicate
  have hfront : (spaces (w + 1 - number.length) ++ number).length = w + 1 := by
    rw [List.length_append, hspaces]
    omega
  refine ⟨h, ?_, ?_, fun i hi hout => ?_⟩
  · rw [List.getElem?_append_right (by omega), hfront, (by omega : w + 2 - (w + 1) = 1)]
    rfl
  · rw [slice, List.take_left' hfront, List.drop_left' hspaces]
  · by_cases hlast : i = w + 1
    · rw [List.getElem?_append_right (by omega), hfront, hlast, Nat.sub_self]
      rfl
    · rw [List.getElem?_append_left (by omega), List.getElem?_append_left (by omega), spaces,
        List.getElem?_replicate, if_pos (by omega)]

namespace Row

variable (color : Bool) (w : Nat)

theorem guttered_divider : Guttered w [] (divider.body color w) := by
  have hbar : ascii " |" = [0x20, 0x7C] := by decide
  have hbody : divider.body color w = spaces (w + 1) ++ [] ++ [0x20, 0x7C] := by
    rw [body, text, List.dropLast_concat, hbar, List.append_nil]
  rw [hbody]
  exact guttered_append (Nat.zero_le w) []

theorem guttered_marker (m : Marker) : Guttered w [] ((marker m).body color w) := by
  have hbar : ascii " | " = [0x20, 0x7C, 0x20] := by decide
  have hbody : (marker m).body color w =
      spaces (w + 1) ++ [] ++ 0x20 :: 0x7C :: 0x20 :: m.text color := by
    rw [body, text, List.dropLast_concat, hbar]
    simp
  rw [hbody]
  exact guttered_append (Nat.zero_le w) _

theorem guttered_source {n : Nat} (h : (decimal n).length ≤ w) (line : Text) :
    Guttered w (decimal n) ((source n line).body color w) := by
  have hbar : ascii " | " = [0x20, 0x7C, 0x20] := by decide
  have hpad : ascii " " ++ (decimal n).padLeft w =
      spaces (w + 1 - (decimal n).length) ++ decimal n := by
    rw [padLeft, ← List.append_assoc, (by omega : w + 1 - (decimal n).length =
      1 + (w - (decimal n).length)), spaces, spaces, ← List.replicate_append_replicate]
    rfl
  have hbody : (source n line).body color w = spaces (w + 1 - (decimal n).length) ++ decimal n ++
      0x20 :: 0x7C :: 0x20 :: line := by
    rw [body, text, List.dropLast_concat, hbar, hpad]
    simp
  rw [hbody]
  exact guttered_append h _

end Row

namespace Excerpt

/-! ### Lines that are shown -/

/-- The numbers of the lines that an excerpt should show: those on which labels start, or the one
on which a diagnostic without labels does. -/
def shownLines (f : SourceFile) (d : Diagnostic) : Finset Nat :=
  if d.labels = [] then {lineOf f d.span} else (d.labels.map fun l => lineOf f l.span).toFinset

section Lines

variable {f : SourceFile} {d : Diagnostic}

theorem mem_shownLines_iff {n : Nat} : n ∈ shownLines f d ↔ n ∈ lines f d := by
  rw [mem_lines_iff, shownLines]
  by_cases h : d.labels = []
  · rw [if_pos h]
    simp [h]
  · rw [if_neg h]
    simp [h]

/-- The last line that is listed has the largest number. -/
theorem isGreatest_getLastD (f : SourceFile) (d : Diagnostic) :
    IsGreatest (shownLines f d : Set Nat) ((lines f d).getLastD 0) := by
  have hpairwise := pairwise_lt_lines f d
  obtain ⟨front, last, heq⟩ : ∃ front last, lines f d = front ++ [last] := by
    rcases List.eq_nil_or_concat (lines f d) with h | ⟨front, last, h⟩
    · exact absurd h (lines_ne_nil f d)
    · exact ⟨front, last, by rw [h, List.concat_eq_append]⟩
  rw [heq] at hpairwise ⊢
  rw [List.getLastD_concat]
  refine ⟨mem_shownLines_iff.mpr (by simp [heq]), fun n hn => ?_⟩
  have hn := mem_shownLines_iff.mp hn
  rw [heq, List.mem_append, List.mem_singleton] at hn
  rcases hn with hn | rfl
  · exact Nat.le_of_lt ((List.pairwise_append.mp hpairwise).2.2 n hn last List.mem_cons_self)
  · exact Nat.le_refl n

end Lines

/-! ### Blocks of rows -/

/-- A line of the source as it is shown, and the rows that mark the labels on it. -/
structure Block where
  number : Nat
  line : Text
  markers : List Text

/-- The rows of a block. -/
def Block.rows (b : Block) : List Text := b.line :: b.markers

/-- The rows of a group. -/
def Group.block (color : Bool) (w : Nat) (f : SourceFile) (g : Group) : Block where
  number := g.number
  line := (Row.source g.number (f.line g.number)).body color w
  markers := g.marked.map fun m => (Row.marker m.2).body color w

/-- **Rows that line up** behind a gutter for numbers of `w` digits. -/
structure LinedUp (f : SourceFile) (d : Diagnostic) (w : Nat) (divider : Text)
    (blocks : List Block) : Prop where
  /-- There is one block for each line to show, in order. -/
  numbers_lt : (blocks.map Block.number).Pairwise (· < ·)
  mem_numbers : ∀ n, n ∈ blocks.map Block.number ↔ n ∈ shownLines f d
  /-- In each block there is one marker for each label on its line. -/
  length_markers : ∀ b ∈ blocks,
    b.markers.length = d.labels.countP fun l => lineOf f l.span = b.number
  divider : Guttered w [] divider
  line : ∀ b ∈ blocks, Guttered w (decimal b.number) b.line
  marker : ∀ b ∈ blocks, ∀ m ∈ b.markers, Guttered w [] m

section Groups

variable {f : SourceFile} {d : Diagnostic} {groups : List Group} {color : Bool}

theorem map_body_flatMap_rows (color : Bool) (w : Nat) (groups : List Group) :
    (groups.flatMap (Group.rows f)).map (Row.body color w) =
      (groups.map (Group.block color w f)).flatMap Block.rows := by
  rw [List.map_flatMap, List.flatMap_map]
  refine List.flatMap_congr fun g _ => ?_
  simp [Group.rows, Group.block, Block.rows]

theorem length_flatMap_rows (groups : List Group) :
    (groups.flatMap (Group.rows f)).length =
      groups.length + (groups.flatMap Group.labels).length := by
  induction groups with
  | nil => rfl
  | cons g groups ih =>
    rw [List.flatMap_cons, List.flatMap_cons, List.length_append, List.length_append, ih]
    simp only [Group.rows, Group.labels, List.length_cons, List.length_map]
    omega

theorem Arranged.mem_numbers_iff (h : Arranged f d groups) {n : Nat} :
    n ∈ groups.map Group.number ↔ n ∈ shownLines f d := by
  rw [h.mem_numbers, mem_shownLines_iff, mem_lines_iff]

/-- Groups and lines to show are equally many. -/
theorem Arranged.length_eq (h : Arranged f d groups) : groups.length = (shownLines f d).card := by
  have hnodup : (groups.map Group.number).Nodup := h.numbers_lt.imp Nat.ne_of_lt
  have heq : (groups.map Group.number).toFinset = shownLines f d := by
    ext n
    rw [List.mem_toFinset, h.mem_numbers_iff]
  rw [← heq, List.toFinset_card_of_nodup hnodup, List.length_map]

/-- **The rows of groups line up**, since the largest number has the most digits. -/
theorem Arranged.linedUp (h : Arranged f d groups) (color : Bool) :
    LinedUp f d (gutter f d) (Row.divider.body color (gutter f d))
      (groups.map (Group.block color (gutter f d) f)) := by
  have hnumbers : (groups.map (Group.block color (gutter f d) f)).map Block.number =
      groups.map Group.number := by
    rw [List.map_map]
    rfl
  refine ⟨?_, fun n => ?_, ?_, Row.guttered_divider .., ?_, ?_⟩
  · rw [hnumbers]
    exact h.numbers_lt
  · rw [hnumbers]
    exact h.mem_numbers_iff
  · intro b hb
    obtain ⟨g, hg, rfl⟩ := List.mem_map.mp hb
    have hlength := (h.line_sorted g hg).perm.length_eq
    rw [← List.countP_eq_length_filter, Group.labels, List.length_map] at hlength
    show (g.marked.map _).length = d.labels.countP fun l => lineOf f l.span = g.number
    rw [List.length_map, hlength]
  · intro b hb
    obtain ⟨g, hg, rfl⟩ := List.mem_map.mp hb
    have hmem : g.number ∈ shownLines f d := h.mem_numbers_iff.mp (List.mem_map_of_mem hg)
    exact Row.guttered_source _ _ (length_decimal_mono ((isGreatest_getLastD f d).2 hmem)) _
  · intro b hb m hm
    obtain ⟨g, hg, rfl⟩ := List.mem_map.mp hb
    obtain ⟨lm, -, rfl⟩ := List.mem_map.mp hm
    exact Row.guttered_marker ..

end Groups

end Excerpt

/-- **Report rows line up**: with no line feed in the name of the file, the code, the message and
the messages of the labels, a report is a list of lines, three and one for each line shown and each
label. From the third line on all have their bar at one index, behind the digits of the largest line
number shown. -/
theorem report_rows_line_up (color : Bool) (f : SourceFile) (e : Failure) (d : Diagnostic)
    (t : Text) (hd : e.reported? = some d) (hname : newline ∉ f.name) (hcode : newline ∉ d.code)
    (hmessage : newline ∉ d.message) (hlabels : ∀ l ∈ d.labels, newline ∉ l.message)
    (h : Report.render color (some f) e = .ok t) :
    ∃ rows : List Text, t = ofLines rows ∧ (∀ r ∈ rows, newline ∉ r) ∧
      rows.length = 3 + (Excerpt.shownLines f d).card + d.labels.length ∧
      ∃ last, IsGreatest (Excerpt.shownLines f d : Set Nat) last ∧
        ∃ header place divider blocks,
          rows = header :: place :: divider :: blocks.flatMap Excerpt.Block.rows ∧
            Excerpt.LinedUp f d (decimal last).length divider blocks := by
  rw [Report.render, hd] at h
  obtain ⟨rows, hrows, rfl⟩ := Report.exists_rows h
  have hlacks := Excerpt.lacks_of_rows (by decide) hname f.newline_not_mem_line hlabels hrows
  obtain ⟨groups, harranged, rfl⟩ := Excerpt.exists_arranged hrows
  refine ⟨_, rfl, ?_, ?_, _, Excerpt.isGreatest_getLastD f d, ?_⟩
  · refine List.forall_mem_cons.mpr ⟨?_, fun r hr => ?_⟩
    · exact Report.not_mem_headline (by decide) (fun _ => by decide) hcode hmessage
    · obtain ⟨row, hrow, rfl⟩ := List.mem_map.mp hr
      exact Row.not_mem_body (by decide) (fun _ => by decide) (hlacks row hrow)
  · have hcount := harranged.labels_sorted.perm.length_eq
    rw [List.length_cons, List.length_map, List.length_cons, List.length_cons,
      Excerpt.length_flatMap_rows, harranged.length_eq, hcount]
    omega
  · rw [List.map_cons, List.map_cons, Excerpt.map_body_flatMap_rows]
    exact ⟨_, _, _, _, rfl, harranged.linedUp color⟩

/-- Three labels on lines nine and ten, deep inside a failure. -/
theorem report_rows_line_up_nine_ten :
    let f := SourceFile.ofText (ascii "t") (ascii "\n\n\n\n\n\n\n\nab\ncd")
    let d : Diagnostic := ⟨ascii "E", ascii "m", ⟨8, 9⟩,
      [⟨⟨11, 13⟩, []⟩, ⟨⟨8, 9⟩, ascii "p"⟩, ⟨⟨12, 13⟩, ascii "q"⟩]⟩
    let t := ascii "[E] Error: m\n   --> t:9:1\n    |\n  9 | ab\n    | ^ p\n" ++
      ascii " 10 | cd\n    | ^^\n    |  ^ q\n"
    Report.render false (some f) (.within (ascii "x") (.diagnostic d)) = .ok t ∧
      ∃ rows : List Text, t = ofLines rows ∧ (∀ r ∈ rows, newline ∉ r) ∧ rows.length = 3 + 2 + 3 ∧
        ∃ last, IsGreatest (Excerpt.shownLines f d : Set Nat) last ∧
          ∃ header place divider blocks,
            rows = header :: place :: divider :: blocks.flatMap Excerpt.Block.rows ∧
              Excerpt.LinedUp f d (decimal last).length divider blocks := by
  intro f d t
  have hmet : (Excerpt.grouping f d.labels).met = [10, 9] := by decide +kernel
  have hlines : Excerpt.lines f d = [9, 10] := by
    rw [Excerpt.lines, Excerpt.Grouping.lines, hmet]
    simp [List.mergeSort]
  have hlabels : (Excerpt.grouping f d.labels).labels 10 =
      [⟨⟨11, 13⟩, []⟩, ⟨⟨12, 13⟩, ascii "q"⟩] := by decide +kernel
  have hsorted : Excerpt.sorted [⟨⟨11, 13⟩, []⟩, ⟨⟨12, 13⟩, ascii "q"⟩] =
      [⟨⟨11, 13⟩, []⟩, ⟨⟨12, 13⟩, ascii "q"⟩] := by
    simp [Excerpt.sorted, List.mergeSort]
  have h : Report.render false (some f) (.within (ascii "x") (.diagnostic d)) = .ok t := by
    show Report.onDiagnostic false (some f) d = .ok t
    unfold Report.onDiagnostic Excerpt.text Excerpt.rows Excerpt.lineRows Excerpt.gutter
    simp only [hlines, List.mapM_cons, hlabels, hsorted]
    decide +kernel
  have hcard : (Excerpt.shownLines f d).card = 2 := by decide +kernel
  obtain ⟨rows, ht, hrows, hlength, hrest⟩ := report_rows_line_up false f _ d t rfl (by decide)
    (by decide) (by decide) (by decide) h
  rw [hcard] at hlength
  exact ⟨h, rows, ht, hrows, hlength, hrest⟩

end MacroCalls
