import MacroCalls.Proofs.Outlines
import MacroCalls.Proofs.ReportRows

/-!
# Color only decorates

A report is put together from the same rows with and without color, and an outline from the same
lines: paint is put on only when the text is already there, so it has no say in what is padded, cut,
counted or sorted. Each part with color is the part without it, decorated (`Text.Decorates`), and
so is the whole. Escapes in the texts that are shown are ruled out by hypothesis, except in
literals, which are quoted.

Main statement: `color_only_decorates`.
-/

namespace MacroCalls

open Text

/-! ### Reports -/

/-- No escape stands in what a report shows: in the name and the text of its file, and in the code,
the message and the messages of the labels of its diagnostic, or in the text of a failure that is
reported without one. -/
structure Report.Unescaped (file : Option SourceFile) (e : Failure) : Prop where
  name : ∀ f ∈ file, escape ∉ f.name
  text : ∀ f ∈ file, escape ∉ f.text
  code : ∀ d ∈ e.reported?, escape ∉ d.code
  message : ∀ d ∈ e.reported?, escape ∉ d.message
  labels : ∀ d ∈ e.reported?, ∀ l ∈ d.labels, escape ∉ l.message
  plain : e.reported? = none → escape ∉ e.text

theorem Report.decorates_header {code message : Text} (hcode : escape ∉ code)
    (hmessage : escape ∉ message) :
    Decorates (header true code message) (header false code message) := by
  have htitle : escape ∉ ascii "[" ++ code ++ ascii "] Error:" := by
    have hopen : escape ∉ ascii "[" := by decide
    have hclose : escape ∉ ascii "] Error:" := by decide
    simp [hopen, hcode, hclose]
  exact ((Decorates.painted htitle .red).append
    (.rfl_of_not_mem (not_mem_appended (by decide) hmessage))).append (.rfl_of_not_mem (by decide))

theorem Marker.decorates_text {m : Marker} (h : escape ∉ m.message) :
    Decorates (m.text true) (m.text false) := by
  have hcarets : escape ∉ List.replicate m.width (0x5E : UInt8) := fun hmem =>
    absurd (List.eq_of_mem_replicate hmem) (by decide)
  exact ((Decorates.rfl_of_not_mem (not_mem_spaces (by decide) _)).append
    (.painted hcarets _)).append (.rfl_of_not_mem (not_mem_appended (by decide) h))

/-- **Rows are decorated**, and only markers have color at all. -/
theorem Row.decorates_text {r : Row} (h : r.Lacks escape) (width : Nat) :
    Decorates (r.text true width) (r.text false width) := by
  have hplain : ∀ r : Row, r.Lacks escape → escape ∉ r.text false width := by
    intro r hr
    rw [text_eq, List.mem_append]
    rintro (hmem | hmem)
    · exact not_mem_body (by decide) (by simp) hr hmem
    · exact absurd hmem (by decide)
  cases r with
  | marker m =>
    have hgutter : escape ∉ spaces (width + 1) ++ ascii " | " := by
      rw [List.mem_append]
      rintro (hmem | hmem)
      · exact not_mem_spaces (by decide) _ hmem
      · exact absurd hmem (by decide)
    exact ((Decorates.rfl_of_not_mem hgutter).append (Marker.decorates_text h)).append
      (.rfl_of_not_mem (by decide))
  | location name position => exact .rfl_of_not_mem (hplain _ h)
  | divider => exact .rfl_of_not_mem (hplain _ h)
  | source number line => exact .rfl_of_not_mem (hplain _ h)

/-- Two outcomes that are the same failure, or of which one decorates the other. -/
theorem map_unpainted_eq {α : Type} {r : Except Fault α} {g g' : α → Text}
    (h : ∀ a, r = .ok a → Decorates (g a) (g' a)) : (r.map g).map unpainted = r.map g' := by
  cases r with
  | error x => rfl
  | ok a => exact congrArg Except.ok (h a rfl).unpainted_eq

theorem Report.unpainted_onDiagnostic {f : SourceFile} {d : Diagnostic} (hname : escape ∉ f.name)
    (htext : escape ∉ f.text) (hcode : escape ∉ d.code) (hmessage : escape ∉ d.message)
    (hlabels : ∀ l ∈ d.labels, escape ∉ l.message) :
    (onDiagnostic true (some f) d).map unpainted = onDiagnostic false (some f) d := by
  have hline : ∀ n, escape ∉ f.line n := fun n hmem => htext (f.mem_text_of_mem_line n hmem)
  rw [onDiagnostic_some, onDiagnostic_some]
  refine map_unpainted_eq fun rows hrows => ?_
  have hlacks := Excerpt.lacks_of_rows (by decide) hname hline hlabels hrows
  exact (decorates_header hcode hmessage).append
    (.flatMap fun r hr => Row.decorates_text (hlacks r hr) _)

/-- **Reports are decorated**: without their terminal sequences, colored reports are the plain
ones, and they fault alike. -/
theorem Report.unpainted_render {file : Option SourceFile} {e : Failure}
    (h : Unescaped file e) : (render true file e).map unpainted = render false file e := by
  unfold render
  cases hd : e.reported? with
  | none =>
    exact congrArg Except.ok (decorates_header (by decide) (h.plain hd)).unpainted_eq
  | some d =>
    have hcode := h.code d hd
    have hmessage := h.message d hd
    cases file with
    | none => exact congrArg Except.ok (decorates_header hcode hmessage).unpainted_eq
    | some f =>
      exact unpainted_onDiagnostic (h.name f rfl) (h.text f rfl) hcode hmessage (h.labels d hd)

/-! ### Outlines -/

namespace Printer

variable {depth : Nat}

theorem decorates_line {t : Text} (h : escape ∉ t) (color : Color) :
    Decorates (row true depth color t ++ [newline]) (row false depth color t ++ [newline]) := by
  have hindent : escape ∉ spaces (depth * indentSize) := not_mem_spaces (by decide) _
  exact ((Decorates.rfl_of_not_mem hindent).append (.painted h color)).append
    (.rfl_of_not_mem (by decide))

theorem decorates_callRows {c : Call} (h : escape ∉ c.name.name) :
    Decorates (ofLines (callRows true depth c)) (ofLines (callRows false depth c)) := by
  rw [callRows, callRows, ofLines_cons, ofLines_cons, ofLines, ofLines, List.flatMap_map,
    List.flatMap_map]
  exact (decorates_line h .cyan).append
    (.flatMap fun a _ => decorates_line (not_mem_quoted (by decide) _) .green)

/-- **Outlines are decorated**, whatever the literals hold. -/
theorem decorates_programRows {cs : List Call} (h : ∀ c ∈ cs, escape ∉ c.name.name) :
    Decorates (ofLines (programRows true depth cs)) (ofLines (programRows false depth cs)) := by
  rw [programRows, programRows, ofLines_cons, ofLines_cons, ofLines, ofLines, List.flatMap_assoc,
    List.flatMap_assoc]
  exact (decorates_line (by decide) .magenta).append
    (.flatMap fun c hc => decorates_callRows (h c hc))

end Printer

theorem Program.outline_eq {t : Program} (h : none ∉ t.statementList) (color : Bool) :
    t.outline color = .ok (ofLines (Printer.programRows color 0 t.calls)) := by
  rw [outline, Printer.program_eq _ h]
  rfl

/-- **Color only decorates**: a report with color and a report without it fault alike, and if
they do not, the one with color without its terminal sequences is the other one. The same holds of
the outlines of a program without gaps. -/
theorem color_only_decorates :
    (∀ (file : Option SourceFile) (e : Failure), Report.Unescaped file e →
        (Report.render true file e).map unpainted = Report.render false file e) ∧
      ∀ t : Program, none ∉ t.statementList → (∀ c ∈ t.calls, escape ∉ c.name.name) →
        ∃ s, t.outline true = .ok s ∧ t.outline false = .ok s.unpainted := by
  refine ⟨fun file e h => Report.unpainted_render h, fun t ht hnames => ?_⟩
  refine ⟨_, t.outline_eq ht true, ?_⟩
  rw [t.outline_eq ht false, (Printer.decorates_programRows hnames).unpainted_eq]

/-- A diagnostic with one label, and a program with an escape in a literal. -/
theorem color_only_decorates_label_and_literal :
    let f := SourceFile.ofText (ascii "t") (ascii "a[1m\nb")
    let e : Failure := .within (ascii "x") (.diagnostic ⟨ascii "E", ascii "m", ⟨0, 1⟩,
      [⟨⟨0, 2⟩, ascii "p"⟩]⟩)
    let c : Call := ⟨⟨⟨0, 4⟩, ascii "log!"⟩, some [⟨⟨5, 9⟩, escape :: ascii "[1m"⟩], ⟨0, 11⟩⟩
    let p : Program := ⟨some [some c], ⟨0, 11⟩⟩
    Report.Unescaped (some f) e ∧
      (Report.render true (some f) e).map unpainted = Report.render false (some f) e ∧
      (none ∉ p.statementList ∧ ∀ c ∈ p.calls, escape ∉ c.name.name) ∧
      ∃ s, p.outline true = .ok s ∧ p.outline false = .ok s.unpainted := by
  intro f e c p
  have hunescaped : Report.Unescaped (some f) e := by
    refine ⟨?_, ?_, ?_, ?_, ?_, by rintro ⟨⟩⟩
    all_goals
      rintro _ ⟨⟩
      decide
  have hgap : none ∉ p.statementList := by decide
  have hnames : ∀ c ∈ p.calls, escape ∉ c.name.name := by decide
  exact ⟨hunescaped, color_only_decorates.1 _ _ hunescaped, ⟨hgap, hnames⟩,
    color_only_decorates.2 p hgap hnames⟩

end MacroCalls
