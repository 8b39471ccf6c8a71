import MacroCalls.Report.Write
import MacroCalls.Proofs.Grouping
import MacroCalls.Proofs.Guarded.Access

/-!
# Guarded reports

An excerpt looks at its file only through guarded accesses here: lines are cut by the line index,
carets are counted in what stands before the end of the line, and every indentation is a number of
copies. `Guarded.exists_excerpt` says that the guarded excerpt of a diagnostic is its excerpt, as
long as no label ends before the file starts without being empty, and `Guarded.exists_report` says
so of whole reports.
-/

namespace MacroCalls

open Text

/-- No label starts and ends before the file without being empty. -/
def Diagnostic.Showable (d : Diagnostic) : Prop :=
  ∀ l ∈ d.labels, l.span.start < l.span.stop → 0 ≤ l.span.stop

namespace Guarded

/-- Where line `n` starts and ends, its line feed left out. -/
def lineBounds (f : SourceFile) (n : Nat) : Option (Int × Int) := do
  let lo ← entry f.starts.toList (n - 1)
  if n < f.starts.size then
    let next ← entry f.starts.toList n
    some (lo, next - 1)
  else some (lo, f.text.length)

/-- The text of line `n`, or nothing if there is no such line. -/
def line (f : SourceFile) (n : Nat) : Option Text :=
  if n < 1 ∨ f.starts.size < n then some []
  else do
    let (lo, hi) ← lineBounds f n
    let text ← slice f.text lo hi
    some text.dropCarriageReturn

/-- The offset at which line `n` ends, or the end of the file. -/
def lineEnd (f : SourceFile) (n : Nat) : Option Int :=
  if n < 1 ∨ f.starts.size < n then some f.text.length
  else do
    let (_, hi) ← lineBounds f n
    some hi

/-- The part of a text that a span covers. -/
def covered (s : Span) (t : Text) : Option Text :=
  if t.clamp s.stop < t.clamp s.start then some [] else slice t (t.clamp s.start) (t.clamp s.stop)

/-- The number of carets for a span that starts on line `n`. -/
def caretCount (f : SourceFile) (n : Nat) (s : Span) : Option Nat := do
  let lineEnd ← lineEnd f n
  let stop := min s.stop lineEnd
  if s.start < stop then
    let front ← slice f.text 0 stop
    let text ← covered s front
    some text.glyphCount
  else some 1

/-- The marker of a label that starts on line `n`. -/
def marker (color : Bool) (f : SourceFile) (d : Diagnostic) (n : Nat) (l : Label) :
    Option Text := do
  let place ← position f l.span.start
  let width ← caretCount f n l.span
  let indent ← copies (place.column - 1) 0x20
  let carets ← copies width 0x5E
  some (indent ++ painted color (if l.span = d.span then .yellow else .blue) carets ++
    l.message.appended)

/-- The rows of line `n`, on which some labels start, behind a gutter for `width` digits. -/
def lineRows (color : Bool) (f : SourceFile) (d : Diagnostic) (width : Nat) (pad : Text)
    (labels : List Label) (n : Nat) : Option Text := do
  let text ← line f n
  let markers ← (Excerpt.sorted labels).mapM (marker color f d n)
  some (ascii " " ++ (decimal n).padLeft width ++ ascii " | " ++ text ++ [newline] ++
    markers.flatMap fun m => pad ++ ascii " | " ++ m ++ [newline])

/-- The labels by the lines on which they start. -/
def grouping (f : SourceFile) (labels : List Label) : Option Excerpt.Grouping :=
  labels.foldlM (fun g l => do
    let place ← position f l.span.start
    some (g.add place.line l)) {}

/-- The excerpt of a diagnostic. -/
def excerpt (color : Bool) (f : SourceFile) (d : Diagnostic) : Option Text := do
  let g ← grouping f d.labels
  let place ← position f d.span.start
  let lines := g.lines place.line
  let last ← entry lines (lines.length - 1)
  let width := (decimal last).length
  let pad ← copies (width + 1 : Nat) 0x20
  let groups ← lines.mapM fun n => lineRows color f d width pad (g.labels n) n
  let name := if f.name.isEmpty then ascii "<input>" else f.name
  some (pad ++ ascii "--> " ++ name ++ ascii ":" ++ decimal place.line ++ ascii ":" ++
    decimal place.column ++ [newline] ++ (pad ++ ascii " |" ++ [newline] ++ groups.flatten))

/-- The report on a failure. -/
def report (color : Bool) (f : SourceFile) (e : Failure) : Option Text :=
  match e.reported? with
  | some d => do
    let text ← excerpt color f d
    some (Report.header color d.code d.message ++ text)
  | none => some (Report.header color (ascii "Error") e.text)

/-! ### Lines -/

section Lines

variable (f : SourceFile) (n : Nat)

theorem exists_lineBounds (h : 1 ≤ n) (h' : n ≤ f.starts.size) :
    ∃ lo hi : Nat, lineBounds f n = some ((lo : Int), (hi : Int)) ∧
      f.lineBounds? n = some (lo, hi) := by
  simp only [lineBounds, entry_pred h, getElem?_starts f (n - 1) (by omega), Option.bind_eq_bind,
    Option.bind_some]
  rw [SourceFile.lineBounds?, dif_pos ⟨h, h'⟩]
  by_cases hlt : n < f.starts.size
  · have hmono := f.starts_strictMono (n - 1) n (by omega) hlt
    refine ⟨_, _, ?_, rfl⟩
    rw [dif_pos hlt, if_pos hlt, entry_natCast, getElem?_starts f n hlt, Option.bind_some]
    congr 2
    omega
  · refine ⟨_, _, ?_, rfl⟩
    rw [dif_neg hlt, if_neg hlt]

/-- A line ends where it starts or later, so it can be cut out. -/
theorem line_eq : line f n = some (f.line n) := by
  rw [line]
  split
  · rename_i hout
    rw [SourceFile.line, SourceFile.lineBounds?, dif_neg (by omega)]
  · rename_i hin
    obtain ⟨lo, hi, hguarded, hbounds⟩ := exists_lineBounds f n (by omega) (by omega)
    obtain ⟨hle, hlen⟩ := f.bounds_of_lineBounds? hbounds
    rw [hguarded, SourceFile.line, hbounds]
    simp only [Option.bind_eq_bind, Option.bind_some]
    rw [slice_eq (by omega) (by omega) (by omega)]
    rfl

theorem lineEnd_eq : lineEnd f n = some (f.lineEnd n : Int) := by
  rw [lineEnd]
  split
  · rename_i hout
    rw [SourceFile.lineEnd, SourceFile.lineBounds?, dif_neg (by omega)]
  · rename_i hin
    obtain ⟨lo, hi, hguarded, hbounds⟩ := exists_lineBounds f n (by omega) (by omega)
    rw [hguarded, SourceFile.lineEnd, hbounds]
    rfl

end Lines

/-! ### Markers -/

theorem covered_eq (s : Span) (t : Text) : covered s t = some (s.slice t) := by
  have hclamp := t.clamp_le s.stop
  rw [covered, Span.slice]
  split
  · rename_i hlt
    rw [Text.slice, List.drop_eq_nil_of_le]
    rw [List.length_take]
    omega
  · rw [slice_eq (by omega) (by omega) (by omega)]
    rfl

/-- What stands before the end of a span's line is there, unless the span ends before the file. -/
theorem exists_caretCount (f : SourceFile) (n : Nat) {s : Span}
    (h : s.start < s.stop → 0 ≤ s.stop) :
    ∃ k, Excerpt.caretCount f n s = .ok k ∧ caretCount f n s = some k := by
  have hend := f.lineEnd_le n
  rw [Excerpt.caretCount, caretCount, lineEnd_eq]
  simp only [Option.bind_eq_bind, Option.bind_some]
  by_cases hle : min s.stop (f.lineEnd n) ≤ s.start
  · rw [if_pos hle, if_neg (by omega)]
    exact ⟨1, rfl, rfl⟩
  · rw [if_neg hle, if_neg (by omega), if_pos (by omega), slice_eq (by omega) (by omega) (by omega)]
    simp only [Option.bind_some, covered_eq]
    exact ⟨_, rfl, rfl⟩

theorem exists_marker (color : Bool) (f : SourceFile) (d : Diagnostic) (n : Nat) {l : Label}
    (h : l.span.start < l.span.stop → 0 ≤ l.span.stop) :
    ∃ m, Excerpt.marker f d n l = .ok m ∧ marker color f d n l = some (m.text color) := by
  obtain ⟨k, hrun, hguarded⟩ := exists_caretCount f n h
  rw [Excerpt.marker, hrun, marker, position_eq, hguarded]
  refine ⟨_, rfl, ?_⟩
  have hcolumn : 0 < (f.position l.span.start).column := Nat.succ_pos _
  simp only [Option.bind_eq_bind, Option.bind_some, copies_natCast, copies_pred hcolumn,
    Marker.text, spaces, decide_eq_true_eq]

/-! ### Excerpts -/

theorem exists_mapM {α β γ : Type} {f : α → Option γ} {g : α → Except Fault β} {k : β → γ}
    {l : List α} (h : ∀ a ∈ l, ∃ b, g a = .ok b ∧ f a = some (k b)) :
    ∃ bs, l.mapM g = .ok bs ∧ l.mapM f = some (bs.map k) := by
  induction l with
  | nil => exact ⟨[], rfl, rfl⟩
  | cons a l ih =>
    obtain ⟨b, hg, hf⟩ := h a (by simp)
    obtain ⟨bs, hgs, hfs⟩ := ih fun c hc => h c (by simp [hc])
    refine ⟨b :: bs, ?_, ?_⟩
    · rw [List.mapM_cons, hg, hgs]
      rfl
    · rw [List.mapM_cons, hf, hfs]
      rfl

theorem exists_lineRows (color : Bool) (f : SourceFile) {d : Diagnostic} (hd : d.Showable)
    (width n : Nat) :
    ∃ rows, Excerpt.lineRows f d n ((Excerpt.grouping f d.labels).labels n) = .ok rows ∧
      lineRows color f d width (spaces (width + 1)) ((Excerpt.grouping f d.labels).labels n) n =
        some (rows.flatMap (Row.text color width)) := by
  obtain ⟨ms, hrun, hguarded⟩ :=
    exists_mapM (l := Excerpt.sorted ((Excerpt.grouping f d.labels).labels n)) fun l hl =>
      exists_marker color f d n (hd l (Excerpt.mem_sorted_labels_iff.mp hl).1)
  rw [Excerpt.lineRows, hrun]
  refine ⟨_, rfl, ?_⟩
  simp only [lineRows, line_eq, hguarded, Option.bind_eq_bind, Option.bind_some,
    List.flatMap_cons, Row.text, List.flatMap_map]

theorem grouping_eq (f : SourceFile) (labels : List Label) :
    grouping f labels = some (Excerpt.grouping f labels) := by
  simp only [grouping, position_eq, Option.bind_eq_bind, Option.bind_some]
  exact List.foldlM_pure ..

/-- **Guarded excerpts** are excerpts. -/
theorem exists_excerpt (color : Bool) (f : SourceFile) {d : Diagnostic} (hd : d.Showable) :
    ∃ t, Excerpt.text color f d = .ok t ∧ excerpt color f d = some t := by
  have hne := Excerpt.lines_ne_nil f d
  have hlast : entry (Excerpt.lines f d) ((Excerpt.lines f d).length - 1) =
      some ((Excerpt.lines f d).getLastD 0) := by
    rw [entry_pred (List.length_pos_iff.mpr hne), ← List.getLast?_eq_getElem?,
      List.getLast?_eq_some_getLast hne, List.getLastD_eq_getLast?,
      List.getLast?_eq_some_getLast hne, Option.getD_some]
  -- every group of rows is behind the gutter that the last line number needs
  obtain ⟨groups, hrun, hguarded⟩ := exists_mapM (l := Excerpt.lines f d) fun n _ =>
    exists_lineRows color f hd (Excerpt.gutter f d) n
  rw [Excerpt.text, Excerpt.rows, hrun]
  refine ⟨_, rfl, ?_⟩
  have hflat : (groups.map (List.flatMap (Row.text color (Excerpt.gutter f d)))).flatten =
      groups.flatten.flatMap (Row.text color (Excerpt.gutter f d)) := by
    rw [← List.flatMap_def, ← List.flatMap_id, List.flatMap_assoc]
    rfl
  have hlines : (Excerpt.grouping f d.labels).lines (f.position d.span.start).line =
      Excerpt.lines f d := rfl
  simp only [excerpt, grouping_eq, position_eq, hlines, hlast, copies_natCast, Option.bind_eq_bind,
    Option.bind_some]
  rw [List.flatMap_cons, List.flatMap_cons, ← hflat]
  simp only [Excerpt.gutter, spaces] at hguarded ⊢
  simp only [hguarded, Option.bind_some, Row.text, spaces]

/-- **Guarded reports** are reports. -/
theorem exists_report (color : Bool) (f : SourceFile) {e : Failure}
    (h : ∀ d, e.reported? = some d → d.Showable) :
    ∃ t, Report.render color (some f) e = .ok t ∧ report color f e = some t := by
  rw [Report.render, report]
  cases hd : e.reported? with
  | none => exact ⟨_, rfl, rfl⟩
  | some d =>
    obtain ⟨t, hrun, hguarded⟩ := exists_excerpt color f (h d hd)
    simp only [Report.onDiagnostic, hrun, hguarded]
    exact ⟨_, rfl, rfl⟩

end Guarded

end MacroCalls
