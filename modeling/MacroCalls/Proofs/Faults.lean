import MacroCalls.Proofs.Carets
import MacroCalls.Proofs.LabelOrder

/-!
# Which reports fault

The offsets of a label are arbitrary: a label may end before it starts, lie outside the file, or
have an end that has wrapped around. Only one kind of label cannot be shown, a label that is not
empty and ends before the file starts. Its carets would be counted in what stands before its end,
and there is no such part of the file. This is what the library's reports say of themselves and what
the guarded ones find out by looking (`Guarded.showable_of_excerpt`). With any other labels a report
has a marker for each of them.

Main statement: `report_faults_iff_label_before_file`.
-/

namespace MacroCalls

open Text

/-! ### The labels of a failure -/

/-- The places that the report on a failure labels: that of the first syntax error inside it, else
those of the labels of the first diagnostic, else the byte to blame in the first invalid format
string. -/
def Failure.labelSpans (e : Failure) : List Span :=
  match e.syntaxError?, e.diagnostic?, e.format? with
  | some s, _, _ => [s.span]
  | none, some d, _ => d.labels.map Label.span
  | none, none, some x => [⟨x.offset, wrap64 (x.offset + 1)⟩]
  | none, none, none => []

theorem Failure.labelSpans_eq (e : Failure) :
    e.labelSpans = (e.reported?.elim [] Diagnostic.labels).map Label.span := by
  rw [labelSpans, reported?]
  cases e.syntaxError? with
  | some s => rfl
  | none =>
    cases e.diagnostic? with
    | some d => rfl
    | none =>
      cases e.format? with
      | some x => rfl
      | none => rfl

/-- The span is not empty and ends before the file starts. -/
def Span.BeforeFile (s : Span) : Prop := s.start < s.stop ∧ s.stop < 0

theorem Diagnostic.showable_iff {d : Diagnostic} :
    d.Showable ↔ ¬ ∃ s ∈ d.labels.map Label.span, s.BeforeFile := by
  simp only [Showable, Span.BeforeFile, List.mem_map]
  grind

/-! ### Carets -/

section Carets

variable {f : SourceFile} {n k : Nat} {s : Span}

theorem Excerpt.not_beforeFile_of_caretCount (h : caretCount f n s = .ok k) :
    ¬ s.BeforeFile := by
  rintro ⟨hlt, hneg⟩
  rw [caretCount, if_neg (by omega), if_pos (by omega)] at h
  cases h

/-- A guarded count of carets has no text to count in either. -/
theorem Guarded.not_beforeFile_of_caretCount (h : caretCount f n s = some k) :
    ¬ s.BeforeFile := by
  rintro ⟨hlt, hneg⟩
  rw [caretCount, lineEnd_eq, Option.bind_eq_bind, Option.bind_some] at h
  dsimp only at h
  rw [if_pos (by omega), slice, if_neg (by omega)] at h
  cases h

/-- **A label that starts in the file or behind it** gets a caret. -/
theorem Excerpt.caretCount_pos (h : caretCount f n s = .ok k) (hstart : 0 ≤ s.start) : 0 < k := by
  by_cases hstop : 0 ≤ s.stop
  · obtain ⟨lo, hlo⟩ := Int.eq_ofNat_of_zero_le hstart
    obtain ⟨hi, hhi⟩ := Int.eq_ofNat_of_zero_le hstop
    obtain rfl : s = ⟨lo, hi⟩ := by rw [← hlo, ← hhi]
    rw [caretCount_natCast] at h
    cases h
    split
    · exact Nat.one_pos
    · have := f.lineEnd_le n
      refine glyphCount_pos (List.length_pos_iff.mp ?_)
      rw [length_slice]
      omega
  · rw [caretCount, if_pos (by omega)] at h
    cases h
    exact Nat.one_pos

end Carets

/-! ### What a report needs of its labels -/

theorem exists_of_mapM_eq_some {α β : Type} {g : α → Option β} {l : List α} {bs : List β}
    (h : l.mapM g = some bs) {a : α} (ha : a ∈ l) : ∃ b, g a = some b := by
  induction l generalizing bs with
  | nil => simp at ha
  | cons c l ih =>
    rw [List.mapM_cons] at h
    obtain ⟨b, hb, h⟩ := Option.bind_eq_some_iff.mp h
    obtain ⟨rest, hrest, -⟩ := Option.bind_eq_some_iff.mp h
    rcases List.mem_cons.mp ha with rfl | ha
    · exact ⟨b, hb⟩
    · exact ih hrest ha

section Labels

variable {color : Bool} {f : SourceFile} {d : Diagnostic}

/-- Arranged labels have markers, and so none of them lies before the file. -/
theorem Excerpt.Arranged.showable {groups : List Group} (h : Arranged f d groups) :
    d.Showable := by
  intro l hl hlt
  obtain ⟨g, hg, hl⟩ := List.mem_flatMap.mp (h.labels_sorted.perm.mem_iff.mpr hl)
  obtain ⟨m, hm, rfl⟩ := List.mem_map.mp hl
  obtain ⟨k, hk, -⟩ := exists_ok_of_map (h.marked g hg m hm).2
  have := not_beforeFile_of_caretCount hk
  unfold Span.BeforeFile at this
  omega

theorem Excerpt.Arranged.width_pos {groups : List Group} (h : Arranged f d groups) :
    ∀ g ∈ groups, ∀ m ∈ g.marked, 0 ≤ m.1.span.start → 0 < m.2.width := by
  intro g hg m hm hstart
  obtain ⟨k, hk, hm⟩ := exists_ok_of_map (h.marked g hg m hm).2
  rw [← hm]
  exact caretCount_pos hk hstart

/-- **A guarded excerpt** is there only if no label lies before the file. -/
theorem Guarded.showable_of_excerpt {t : Text} (h : excerpt color f d = some t) : d.Showable := by
  intro l hl hlt
  simp only [excerpt, grouping_eq, position_eq, Option.bind_eq_bind, Option.bind_some] at h
  obtain ⟨last, -, h⟩ := Option.bind_eq_some_iff.mp h
  obtain ⟨pad, -, h⟩ := Option.bind_eq_some_iff.mp h
  obtain ⟨groups, hgroups, -⟩ := Option.bind_eq_some_iff.mp h
  -- the line on which the label starts has been written, and below it the marker of the label
  obtain ⟨rows, hrows⟩ := exists_of_mapM_eq_some hgroups (Excerpt.mem_lines_of_label hl)
  obtain ⟨text, -, hrows⟩ := Option.bind_eq_some_iff.mp hrows
  obtain ⟨markers, hmarkers, -⟩ := Option.bind_eq_some_iff.mp hrows
  obtain ⟨m, hm⟩ :=
    exists_of_mapM_eq_some hmarkers (Excerpt.mem_sorted_labels_iff.mpr ⟨hl, rfl⟩)
  obtain ⟨place, -, hm⟩ := Option.bind_eq_some_iff.mp hm
  obtain ⟨width, hwidth, -⟩ := Option.bind_eq_some_iff.mp hm
  have := not_beforeFile_of_caretCount hwidth
  unfold Span.BeforeFile at this
  omega

end Labels

/-! ### Reports -/

/-- **Reports as they should be**: a failure that is no diagnostic is given by its text alone, any
other with an excerpt that has a marker for each label, with a caret at least if the label starts in
the file or behind it. -/
inductive Report.Shows (color : Bool) (f : SourceFile) (e : Failure) : Text → Prop
  | plain (h : e.reported? = none) : Shows color f e (header color (ascii "Error") e.text)
  | excerpt {d : Diagnostic} {groups : List Excerpt.Group} (h : e.reported? = some d)
      (harranged : Excerpt.Arranged f d groups)
      (hcarets : ∀ g ∈ groups, ∀ m ∈ g.marked, 0 ≤ m.1.span.start → 0 < m.2.width) :
      Shows color f e (header color d.code d.message ++
        (Row.location (if f.name.isEmpty then ascii "<input>" else f.name)
          (f.position d.span.start) :: .divider :: groups.flatMap (Excerpt.Group.rows f)).flatMap
          (Row.text color (Excerpt.gutter f d)))

section Reports

variable {color : Bool} {f : SourceFile} {e : Failure} {t : Text}

theorem Report.shows_of_render (h : render color (some f) e = .ok t) : Shows color f e t := by
  rw [render] at h
  cases hd : e.reported? with
  | none =>
    simp only [hd] at h
    cases h
    exact .plain hd
  | some d =>
    simp only [hd, onDiagnostic] at h
    obtain ⟨excerpt, hexcerpt, rfl⟩ := exists_ok_of_map h
    obtain ⟨rows, hrows, rfl⟩ := exists_ok_of_map hexcerpt
    obtain ⟨groups, harranged, rfl⟩ := Excerpt.exists_arranged hrows
    exact .excerpt hd harranged harranged.width_pos

theorem Report.Shows.not_beforeFile (h : Shows color f e t) :
    ¬ ∃ s ∈ e.labelSpans, s.BeforeFile := by
  rw [e.labelSpans_eq]
  cases h with
  | plain hd => simp [hd]
  | excerpt hd harranged _ =>
    rw [hd]
    exact Diagnostic.showable_iff.mp harranged.showable

theorem Guarded.not_beforeFile_of_report (h : report color f e = some t) :
    ¬ ∃ s ∈ e.labelSpans, s.BeforeFile := by
  rw [e.labelSpans_eq]
  rw [report] at h
  cases hd : e.reported? with
  | none => simp
  | some d =>
    simp only [hd] at h
    obtain ⟨text, htext, -⟩ := Option.bind_eq_some_iff.mp h
    exact Diagnostic.showable_iff.mp (showable_of_excerpt htext)

/-- Without a label before the file, the report is there, and the guarded report is the same. -/
theorem Guarded.exists_report_of_not_beforeFile (color : Bool) (f : SourceFile)
    (h : ¬ ∃ s ∈ e.labelSpans, s.BeforeFile) :
    ∃ t, Report.render color (some f) e = .ok t ∧ report color f e = some t := by
  refine exists_report color f fun d hd => Diagnostic.showable_iff.mpr ?_
  rwa [e.labelSpans_eq, hd] at h

/-- Writing one report faults where rendering it does, whatever the writer accepts. -/
theorem Report.stop_writeAll_eq_fault_iff {file : Option SourceFile} {accepts : Option Nat}
    {x : Fault} :
    (writeAll color file accepts [some e]).stop = some (.fault x) ↔
      render color file e = .error x := by
  unfold writeAll
  cases render color file e with
  | error y => simp
  | ok t =>
    rcases accepts with _ | _ | k
    · simp [writeAll]
    · simp
    · simp [writeAll]

theorem Report.writeAll_of_render {file : Option SourceFile} {accepts : Option Nat}
    (h : render color file e = .ok t) (haccepts : accepts ≠ some 0) :
    writeAll color file accepts [some e] = ⟨t, none⟩ := by
  unfold writeAll
  rcases accepts with _ | _ | k
  · simp [h, writeAll]
  · exact absurd rfl haccepts
  · simp [h, writeAll]

theorem Report.exists_render_none (color : Bool) (e : Failure) :
    ∃ t, render color none e = .ok t := by
  unfold render
  cases e.reported? with
  | none => exact ⟨_, rfl⟩
  | some d => exact ⟨_, rfl⟩

end Reports

/-- **A report faults just if a label lies before the file**: the label is not empty and ends before
the file starts. Guarded reports find nothing else out of range. Every other report shows all
labels, and without a file no report faults. -/
theorem report_faults_iff_label_before_file (color : Bool) (f : SourceFile) (accepts : Option Nat)
    (e : Failure) :
    ((∃ x, (Report.writeAll color (some f) accepts [some e]).stop = some (.fault x)) ↔
        ∃ s ∈ e.labelSpans, s.BeforeFile) ∧
      (Guarded.report color f e = none ↔ ∃ s ∈ e.labelSpans, s.BeforeFile) ∧
      ((¬ ∃ s ∈ e.labelSpans, s.BeforeFile) → ∃ t, Report.Shows color f e t ∧
        Guarded.report color f e = some t ∧
        (accepts ≠ some 0 →
          Report.writeAll color (some f) accepts [some e] = ⟨t, none⟩)) ∧
      ∀ x, (Report.writeAll color none accepts [some e]).stop ≠ some (.fault x) := by
  have hshown := Guarded.exists_report_of_not_beforeFile (e := e) color f
  refine ⟨⟨?_, ?_⟩, ⟨?_, ?_⟩, ?_, ?_⟩
  · rintro ⟨x, hx⟩
    by_contra hbefore
    obtain ⟨t, hrun, -⟩ := hshown hbefore
    rw [Report.stop_writeAll_eq_fault_iff, hrun] at hx
    cases hx
  · intro hbefore
    cases hrun : Report.render color (some f) e with
    | error x => exact ⟨x, Report.stop_writeAll_eq_fault_iff.mpr hrun⟩
    | ok t => exact absurd hbefore (Report.shows_of_render hrun).not_beforeFile
  · intro hnone
    by_contra hbefore
    obtain ⟨t, -, hguarded⟩ := hshown hbefore
    rw [hnone] at hguarded
    cases hguarded
  · intro hbefore
    refine Option.eq_none_iff_forall_ne_some.mpr fun t hguarded => ?_
    exact Guarded.not_beforeFile_of_report hguarded hbefore
  · intro hbefore
    obtain ⟨t, hrun, hguarded⟩ := hshown hbefore
    exact ⟨t, Report.shows_of_render hrun, hguarded, Report.writeAll_of_render hrun⟩
  · intro x hx
    obtain ⟨t, hrun⟩ := Report.exists_render_none color e
    rw [Report.stop_writeAll_eq_fault_iff, hrun] at hx
    cases hx

/-- An invalid format string two bytes before the file, deep inside other failures, and one at the
last offset there is, where the end of its label wraps around. -/
example :
    let f := SourceFile.ofText (ascii "t") (ascii "a")
    let before : Failure := .within (ascii "x") (.joined [.canceled, .format ⟨-2, .unmatchedClose⟩])
    let last : Failure := .format ⟨0x7FFFFFFFFFFFFFFF, .unmatchedClose⟩
    (Report.writeAll false (some f) none [some before]).stop = some (.fault .labelBeforeFile) ∧
      before.labelSpans = [⟨-2, -1⟩] ∧
      (Report.writeAll false (some f) none [some last]).stop = none ∧
      last.labelSpans = [⟨0x7FFFFFFFFFFFFFFF, -0x8000000000000000⟩] := by
  decide +kernel

end MacroCalls
