import MacroCalls.Proofs.Alignment
import MacroCalls.Proofs.Guarded.Report

/-!
# Markers in a report

A report on a source shows, for every label, the line on which the label starts, and among the rows
right behind it a marker for the label. Since reported labels are aligned, the carets of the marker
stand under what the label covers of its line (`carets_under_labels`). They go past the end of the
line as it is shown in just one case, by one column: when a carriage return ends the line and the
label reaches over it (`carets_on_line_iff`).
-/

namespace MacroCalls

open Text

theorem exists_mapM_eq_ok {α β : Type} {g : α → Except Fault β} {l : List α}
    (h : ∀ a ∈ l, ∃ b, g a = .ok b) :
    ∃ bs, l.mapM g = .ok bs ∧ ∀ a ∈ l, ∃ b ∈ bs, g a = .ok b := by
  induction l with
  | nil => exact ⟨[], rfl, nofun⟩
  | cons a l ih =>
    obtain ⟨b, hb⟩ := h a List.mem_cons_self
    obtain ⟨bs, hbs, hmem⟩ := ih fun c hc => h c (List.mem_cons_of_mem _ hc)
    refine ⟨b :: bs, by rw [List.mapM_cons, hb, hbs]; rfl, fun c hc => ?_⟩
    rcases List.mem_cons.mp hc with rfl | hc
    · exact ⟨b, List.mem_cons_self, hb⟩
    · obtain ⟨b', hb', hg⟩ := hmem c hc
      exact ⟨b', List.mem_cons_of_mem _ hb', hg⟩

/-- Among some rows, one of the markers right behind the line on which the label starts is for the
label: spaces up to its column, and carets under what it covers of the line. -/
def Label.MarkedIn (l : Label) (f : SourceFile) (color : Bool) (rows : List Row) : Prop :=
  let place := f.position l.span.start
  ∃ ms : List Marker, .source place.line (f.line place.line) :: ms.map .marker <:+: rows ∧
    ∃ m ∈ ms, ∃ paint width,
      m.text color = spaces (place.column - 1) ++
        painted color paint (List.replicate width 0x5E) ++ l.message.appended ∧
      f.Underlines place.line l.span place.column width

namespace Excerpt

variable {f : SourceFile} {d : Diagnostic}

theorem exists_marker {l : Label} (h : l.span.Aligned f.text) :
    ∃ m, marker f d (lineOf f l.span) l = .ok m ∧ m.column = (f.position l.span.start).column ∧
      m.message = l.message ∧ caretCount f (lineOf f l.span) l.span = .ok m.width ∧
      f.Underlines (lineOf f l.span) l.span m.column m.width := by
  obtain ⟨width, hwidth, hunder⟩ := h.underlines
  rw [marker, lineOf, hwidth]
  exact ⟨_, rfl, rfl, rfl, rfl, hunder⟩

theorem exists_lineRows_of_aligned (hd : ∀ l ∈ d.labels, l.span.Aligned f.text) (n : Nat) :
    ∃ ms : List Marker, lineRows f d n ((grouping f d.labels).labels n) =
        .ok (.source n (f.line n) :: ms.map .marker) ∧
      ∀ l ∈ d.labels, lineOf f l.span = n → ∃ m ∈ ms, marker f d n l = .ok m := by
  obtain ⟨ms, hms, hmarker⟩ := exists_mapM_eq_ok
    (g := marker f d n) (l := sorted ((grouping f d.labels).labels n)) fun l hl => by
      obtain ⟨hlabel, rfl⟩ := mem_sorted_labels_iff.mp hl
      obtain ⟨m, hm, -⟩ := exists_marker (d := d) (hd l hlabel)
      exact ⟨m, hm⟩
  refine ⟨ms, by rw [lineRows, hms]; rfl, fun l hl hn => ?_⟩
  exact hmarker l (mem_sorted_labels_iff.mpr ⟨hl, hn⟩)

/-- **Every aligned label is marked** in an excerpt. -/
theorem exists_rows_marked (color : Bool) (hd : ∀ l ∈ d.labels, l.span.Aligned f.text) :
    ∃ rows, Excerpt.rows f d = .ok rows ∧ ∀ l ∈ d.labels, l.MarkedIn f color rows := by
  obtain ⟨groups, hgroups, hgroup⟩ := exists_mapM_eq_ok (l := lines f d)
    (g := fun n => lineRows f d n ((grouping f d.labels).labels n)) fun n _ => by
      obtain ⟨ms, hms, -⟩ := exists_lineRows_of_aligned hd n
      exact ⟨_, hms⟩
  rw [rows, hgroups]
  refine ⟨_, rfl, fun l hl => ?_⟩
  obtain ⟨group, hmem, hrows⟩ := hgroup _ (mem_lines_of_label hl)
  obtain ⟨ms, hms, hmarker⟩ := exists_lineRows_of_aligned hd (lineOf f l.span)
  rw [hrows] at hms
  cases hms
  obtain ⟨m, hm, hmark⟩ := hmarker l hl rfl
  obtain ⟨m', hmark', hcolumn, hmessage, -, hunder⟩ := exists_marker (d := d) (hd l hl)
  rw [hmark] at hmark'
  cases hmark'
  refine ⟨ms, ?_, m, hm, if m.primary then .yellow else .blue, m.width, ?_, hcolumn ▸ hunder⟩
  · exact (List.infix_of_mem_flatten hmem).trans (List.suffix_append [_, _] _).isInfix
  · rw [Marker.text, hcolumn, hmessage]

end Excerpt

/-- **Carets stand under their labels**: in the report on whatever is wrong with a source, each
label has a marker behind the line on which it starts, with its carets under what it covers of the
line. -/
theorem carets_under_labels (src name : Text) (color : Bool) (e : Failure)
    (hsrc : src.Addressable) (he : src.Fails e) :
    let f := SourceFile.ofText name src
    ∃ d rows, e.reported? = some d ∧ Excerpt.rows f d = .ok rows ∧
      Report.render color (some f) e = .ok (Report.header color d.code d.message ++
        rows.flatMap (Row.text color (Excerpt.gutter f d))) ∧
      ∀ l ∈ d.labels, l.MarkedIn f color rows := by
  intro f
  obtain ⟨d, hd, haligned⟩ := he.exists_aligned hsrc
  obtain ⟨rows, hrows, hmarked⟩ := Excerpt.exists_rows_marked (f := f) color haligned
  refine ⟨d, rows, hd, hrows, ?_, hmarked⟩
  rw [Report.render, hd]
  dsimp only
  rw [Report.onDiagnostic, Excerpt.text, hrows]
  rfl

/-- An accented letter before the byte to blame, which is the first of another accented letter. -/
theorem carets_under_labels_accented :
    let src := ascii "fn main()\x7bprint!(\"" ++ [0xC3, 0xA9, 0x7B, 0xC3, 0xA9] ++
      ascii "\x7d\");\x7d"
    let d := FormatError.diagnostic ⟨21, .invalidCharacter⟩
    src.Addressable ∧ src.Fails (.diagnostic d) ∧
      ∃ rows, Excerpt.rows (.ofText (ascii "t") src) d = .ok rows ∧
        ∀ l ∈ d.labels, l.MarkedIn (.ofText (ascii "t") src) false rows := by
  intro src d
  have hsrc : src.Addressable := by decide
  have hparse : parse src = .ok ⟨some [some ⟨⟨⟨10, 16⟩, ascii "print!"⟩,
      some [⟨⟨17, 25⟩, [0xC3, 0xA9, 0x7B, 0xC3, 0xA9, 0x7D]⟩], ⟨10, 27⟩⟩], ⟨0, 28⟩⟩ := by
    decide +kernel
  have hfails : src.Fails (.diagnostic d) :=
    .diagnostic hparse (by decide +kernel : _ = Except.ok [d]) List.mem_cons_self
  obtain ⟨d', rows, hd, hrows, -, hmarked⟩ :=
    carets_under_labels src (ascii "t") false (.diagnostic d) hsrc hfails
  cases hd
  exact ⟨hsrc, hfails, rows, hrows, hmarked⟩

/-- **Carets leave the shown line** by one column where a carriage return ends the line and the
label reaches over it, and otherwise not at all. -/
theorem carets_on_line_iff (src name : Text) (e : Failure) (hsrc : src.Addressable)
    (he : src.Fails e) :
    let f := SourceFile.ofText name src
    ∃ d, e.reported? = some d ∧ ∀ l ∈ d.labels,
      let n := Excerpt.lineOf f l.span
      ∃ m, Excerpt.marker f d n l = .ok m ∧ m.column = (f.position l.span.start).column ∧
        (f.reach n l.span m.width ≤ (f.line n).glyphCount ↔
          ¬ ((f.rawLine n).getLast? = some carriageReturn ∧ f.lineEnd n ≤ l.span.stop)) ∧
        f.reach n l.span m.width ≤ (f.line n).glyphCount + 1 := by
  intro f
  obtain ⟨d, hd, haligned⟩ := he.exists_aligned hsrc
  refine ⟨d, hd, fun l hl => ?_⟩
  obtain ⟨m, hm, hcolumn, -, hwidth, -⟩ := Excerpt.exists_marker (f := f) (d := d) (haligned l hl)
  exact ⟨m, hm, hcolumn, (haligned l hl).reach_le_iff rfl hwidth⟩

/-- At the end of the input behind a carriage return, the caret is a column too far to the right. -/
theorem carets_on_line_iff_at_end :
    let src := ascii "fn main()\x7b\r"
    let f := SourceFile.ofText (ascii "t") src
    let e : SyntaxError := ⟨.unexpectedEnd, 11, 1, 12, ⟨11, 11⟩, [],
      some [ascii "\"\x7d\"", ascii "macro name"], ascii "Main"⟩
    src.Addressable ∧ src.Fails (.syntaxError e) ∧ (f.rawLine 1).getLast? = some carriageReturn ∧
      ∀ l ∈ e.diagnostic.labels, ∃ m, Excerpt.marker f e.diagnostic 1 l = .ok m ∧
        f.reach 1 l.span m.width = (f.line 1).glyphCount + 1 := by
  intro src f e
  have hsrc : src.Addressable := by decide
  have hfails : src.Fails (.syntaxError e) := .syntaxError (by
    rw [parse_eq_outcome]
    decide +kernel)
  have hreturn : (f.rawLine 1).getLast? = some carriageReturn := by decide +kernel
  have hend : (f.lineEnd 1 : Int) ≤ 11 := by decide +kernel
  have hline : Excerpt.lineOf f ⟨11, 11⟩ = 1 := by decide +kernel
  obtain ⟨d, hd, hmarkers⟩ := carets_on_line_iff src (ascii "t") (.syntaxError e) hsrc hfails
  cases hd
  refine ⟨hsrc, hfails, hreturn, fun l hl => ?_⟩
  obtain ⟨m, hm, -, hiff, hle⟩ := hmarkers l hl
  cases List.mem_singleton.mp hl
  dsimp only at hm hiff hle
  rw [hline] at hm hiff hle
  have hnot := (not_congr hiff).mpr (not_not_intro ⟨hreturn, hend⟩)
  exact ⟨m, hm, Nat.le_antisymm hle (Nat.lt_of_not_le hnot)⟩

/-- Carets under the first line of a literal that goes on behind a carriage return and a line feed:
three of them under two glyphs. -/
theorem carets_past_carriageReturn :
    let src := ascii "\"a\r\nb\""
    let f := SourceFile.ofText (ascii "t") src
    ∃ e d l m, src.Fails e ∧ e.reported? = some d ∧ l ∈ d.labels ∧
      Excerpt.marker f d (Excerpt.lineOf f l.span) l = .ok m ∧
      l.span.start < min l.span.stop (f.lineEnd (Excerpt.lineOf f l.span)) ∧
      m.column - 1 + m.width = 3 ∧ (f.line (Excerpt.lineOf f l.span)).glyphCount = 2 := by
  intro src f
  have hfails : parse src = .error ⟨.unexpectedToken, 0, 1, 1, ⟨0, 6⟩, src, some [ascii "\"fn\""],
      ascii "Main"⟩ := by
    decide +kernel
  refine ⟨_, _, _, ⟨1, 3, true, ascii "expected one of: \"fn\""⟩, .syntaxError hfails, rfl,
    List.mem_cons_self, ?_⟩
  decide +kernel

end MacroCalls
