import MacroCalls.Proofs.Codes
import MacroCalls.Proofs.LabelOrder
import MacroCalls.Proofs.Lines
import MacroCalls.Proofs.Painting

/-!
# The rows of a report

A report is a header and the rows of its excerpt, each a line of text (`Report.exists_rows`). The
words and numbers of a row are printable, so a control character stands in a row only if it stands
in one of the texts that the row shows (`Row.not_mem_body`): the name of the file, a line of it, or
the message of a label. This is what both the line structure of a report and its colors need.
-/

namespace MacroCalls

open Text

namespace SourceFile

variable (f : SourceFile) (n : Nat)

/-- A line is shown without bytes of its own. -/
theorem mem_rawLine_of_mem_line {b : UInt8} (h : b ∈ f.line n) : b ∈ f.rawLine n := by
  rw [f.line_eq_dropCarriageReturn] at h
  rcases (f.rawLine n).dropCarriageReturn_cases with heq | ⟨heq, -⟩
  · rw [heq]
    exact List.mem_append_left _ h
  · rwa [heq]

theorem mem_text_of_mem_line {b : UInt8} (h : b ∈ f.line n) : b ∈ f.text :=
  List.mem_of_mem_take (List.mem_of_mem_drop (f.mem_rawLine_of_mem_line n h))

theorem newline_not_mem_line : newline ∉ f.line n := by
  by_cases hn : f.HasLine n
  · exact fun h => f.newline_not_mem_rawLine hn (f.mem_rawLine_of_mem_line n h)
  · have hbounds : f.lineBounds? n = none := dif_neg hn
    rw [line, hbounds]
    exact List.not_mem_nil

end SourceFile

/-! ### Rows as lines of text -/

/-- A row behind a gutter for line numbers of `width` digits, without its line feed. -/
def Row.body (color : Bool) (width : Nat) (r : Row) : Text := (r.text color width).dropLast

theorem Row.text_eq (color : Bool) (width : Nat) (r : Row) :
    r.text color width = r.body color width ++ [newline] := by
  cases r <;> simp [body, text]

/-- The header of a report without its line feed. -/
def Report.headline (color : Bool) (code message : Text) : Text :=
  painted color .red (ascii "[" ++ code ++ ascii "] Error:") ++ message.appended

/-- A byte stands in none of the texts that a row shows. -/
def Row.Lacks (b : UInt8) : Row → Prop
  | location name _ => b ∉ name
  | divider => True
  | source _ line => b ∉ line
  | marker m => b ∉ m.message

section Control

variable {b : UInt8} {color : Bool} {width : Nat}

theorem not_mem_appended {t : Text} (hb : b < 0x20) (h : b ∉ t) : b ∉ t.appended := by
  have hspace : b ∉ ascii " " := not_mem_ascii hb (by decide)
  unfold appended
  split
  · exact List.not_mem_nil
  · exact fun hmem => (List.mem_append.mp hmem).elim hspace h

theorem Report.not_mem_headline {code message : Text} (hb : b < 0x20)
    (hcolor : color = true → b ≠ escape) (hcode : b ∉ code) (hmessage : b ∉ message) :
    b ∉ headline color code message := by
  have hopen : b ∉ ascii "[" := not_mem_ascii hb (by decide)
  have hclose : b ∉ ascii "] Error:" := not_mem_ascii hb (by decide)
  intro hmem
  rcases List.mem_append.mp hmem with hmem | hmem
  · exact not_mem_painted hb hcolor (by simp [hopen, hcode, hclose]) hmem
  · exact not_mem_appended hb hmessage hmem

theorem Marker.not_mem_text {m : Marker} (hb : b < 0x20) (hcolor : color = true → b ≠ escape)
    (h : b ∉ m.message) : b ∉ m.text color := by
  have hcarets : b ∉ List.replicate m.width (0x5E : UInt8) :=
    not_mem_of_forall_le hb fun c hc => by
      rw [List.eq_of_mem_replicate hc]
      decide
  unfold text
  rw [List.mem_append, List.mem_append]
  rintro ((hmem | hmem) | hmem)
  · exact not_mem_spaces hb _ hmem
  · exact not_mem_painted hb hcolor hcarets hmem
  · exact not_mem_appended hb h hmem

/-- **No control character** stands in a row that is not in its texts. -/
theorem Row.not_mem_body {r : Row} (hb : b < 0x20) (hcolor : color = true → b ≠ escape)
    (h : r.Lacks b) : b ∉ r.body color width := by
  have hspaces := not_mem_spaces hb
  have hdecimal := not_mem_decimal hb
  have hbar : b ∉ ascii " | " := not_mem_ascii hb (by decide)
  cases r with
  | location name position =>
    have hname : b ∉ name := h
    have harrow : b ∉ ascii "--> " := not_mem_ascii hb (by decide)
    have hcolon : b ∉ ascii ":" := not_mem_ascii hb (by decide)
    simp [body, text, hspaces, hdecimal, hname, harrow, hcolon]
  | divider =>
    have hend : b ∉ ascii " |" := not_mem_ascii hb (by decide)
    simp [body, text, hspaces, hend]
  | source number line =>
    have hline : b ∉ line := h
    have hspace : b ∉ ascii " " := not_mem_ascii hb (by decide)
    simp [body, text, padLeft, hspaces, hdecimal, hbar, hline, hspace]
  | marker m =>
    have hmarker : b ∉ m.text color := Marker.not_mem_text hb hcolor h
    simp [body, text, hspaces, hbar, hmarker]

end Control

/-! ### The rows of an excerpt -/

section Rows

variable {b : UInt8} {f : SourceFile} {d : Diagnostic} {rows : List Row}

theorem Excerpt.message_of_marker {n : Nat} {l : Label} {m : Marker} (h : marker f d n l = .ok m) :
    m.message = l.message := by
  obtain ⟨width, -, rfl⟩ := exists_ok_of_map h
  rfl

/-- **The texts that an excerpt shows** are the name of the file, lines of it, and the messages of
the labels. -/
theorem Excerpt.lacks_of_rows (hb : b < 0x20) (hname : b ∉ f.name) (hline : ∀ n, b ∉ f.line n)
    (hlabels : ∀ l ∈ d.labels, b ∉ l.message) (h : Excerpt.rows f d = .ok rows) :
    ∀ r ∈ rows, r.Lacks b := by
  obtain ⟨groups, harranged, rfl⟩ := exists_arranged h
  have hplace : b ∉ if f.name.isEmpty then ascii "<input>" else f.name := by
    split
    · exact not_mem_ascii hb (by decide)
    · exact hname
  refine List.forall_mem_cons.mpr ⟨hplace, List.forall_mem_cons.mpr ⟨trivial, fun r hr => ?_⟩⟩
  obtain ⟨g, hg, hr⟩ := List.mem_flatMap.mp hr
  rcases List.mem_cons.mp hr with rfl | hr
  · exact hline g.number
  · obtain ⟨m, hm, rfl⟩ := List.mem_map.mp hr
    obtain ⟨lm, hlm, rfl⟩ := List.mem_map.mp hm
    have hl : lm.1 ∈ d.labels := harranged.labels_sorted.perm.mem_iff.mp
      (List.mem_flatMap.mpr ⟨g, hg, List.mem_map_of_mem hlm⟩)
    show b ∉ lm.2.message
    rw [message_of_marker (harranged.marked g hg lm hlm).2]
    exact hlabels lm.1 hl

theorem Report.onDiagnostic_some (color : Bool) (f : SourceFile) (d : Diagnostic) :
    onDiagnostic color (some f) d = (Excerpt.rows f d).map fun rows =>
      header color d.code d.message ++ rows.flatMap (Row.text color (Excerpt.gutter f d)) := by
  unfold onDiagnostic Excerpt.text
  dsimp only
  cases Excerpt.rows f d <;> rfl

/-- **A report with an excerpt** is a list of lines: the header, and one line for each row. -/
theorem Report.exists_rows {color : Bool} {t : Text} (h : onDiagnostic color (some f) d = .ok t) :
    ∃ rows, Excerpt.rows f d = .ok rows ∧
      t = ofLines (headline color d.code d.message ::
        rows.map (Row.body color (Excerpt.gutter f d))) := by
  rw [onDiagnostic_some] at h
  obtain ⟨rows, hrows, rfl⟩ := exists_ok_of_map h
  refine ⟨rows, hrows, ?_⟩
  have htext : Row.text color (Excerpt.gutter f d) =
      fun r => r.body color (Excerpt.gutter f d) ++ [newline] :=
    funext fun r => r.text_eq color _
  rw [ofLines_cons, ofLines, List.flatMap_map, htext]
  rfl

end Rows

end MacroCalls
