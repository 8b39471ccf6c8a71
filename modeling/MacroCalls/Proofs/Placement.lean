import MacroCalls.Proofs.Pieces
import MacroCalls.Proofs.Rules

/-!
# Where diagnostics stand

The diagnostics of a parsed program come in the order of the source, each within the call that it is
about. Its labels come one behind the other and the first is on the place that the diagnostic names.
What else they are on depends on the rule that the call breaks (`Diagnostic.StandsIn`): on the
arguments that are not used, or on all placeholders and all arguments that were given for them.

Main statement: `diagnostics_stand_in_order`. It joins the spans of a parsed tree (`Program.Fits`)
with those of the placeholders in a format string (`PlaceholderSpans`).
-/

namespace MacroCalls

open Text

/-- **A diagnostic stands in a call** of a source. -/
structure Diagnostic.StandsIn (d : Diagnostic) (c : Call) (src : Text) : Prop where
  within : d.span.Within c.span
  labels_within : ∀ l ∈ d.labels, l.span.Within c.span
  /-- The labels come one behind the other, -/
  order : (d.labels.map Label.span).Pairwise Span.Before
  /-- and only the first of them is where the diagnostic is. -/
  first : ∃ l ls, d.labels = l :: ls ∧ l.span = d.span ∧ ∀ m ∈ ls, m.span ≠ d.span
  /-- Arguments without a placeholder are the last ones, as many as there are too many. -/
  unused : d.code = Rule.noneUnused.code →
    ∃ format given unused, c.argList = format :: given ∧ unused <:+ given ∧
      unused.length = given.length - format.val.count openBrace ∧
      d.labels.tail.map Label.span = unused.map Literal.span
  /-- Too few arguments are told with all placeholders and all arguments given. -/
  tooFew : d.code = Rule.enoughGiven.code →
    ∃ format given spans, c.argList = format :: given ∧
      PlaceholderSpans src (format.span.start + 1) format.val spans ∧
      d.labels.map Label.span = spans ++ given.map Literal.span
  /-- A format string is invalid at one byte between its quotes. -/
  invalid : d.code = Rule.formatValid.code →
    ∃ format given, c.argList = format :: given ∧ d.span.stop = d.span.start + 1 ∧
      format.span.start + 1 ≤ d.span.start ∧ d.span.stop ≤ format.span.stop - 1

/-- The first label of a problem is where the problem is. -/
theorem Problem.exists_first_label (q : Problem) :
    ∃ l ls, q.diagnostic.labels = l :: ls ∧ l.span = q.diagnostic.span := by
  rcases q with _ | _ | _ | _ | _ <;> exact ⟨_, _, rfl, rfl⟩

namespace Problem

theorem spans_extraArguments (format : Literal) (unused : List Literal) :
    (extraArguments format unused).diagnostic.labels.map Label.span =
      format.span :: unused.map Literal.span := by
  simp [diagnostic, Function.comp_def]

theorem spans_notEnoughArguments (first : Span) (more : List Span) (given : List Literal) :
    (notEnoughArguments first more given).diagnostic.labels.map Label.span =
      first :: more ++ given.map Literal.span := by
  simp [diagnostic, Function.comp_def]

end Problem

/-! ### Problems in their source -/

/-- **What can be wrong with a call** of a source, and where. -/
inductive Call.HasProblem (c : Call) (src : Text) : Problem → Prop
  | unknownMacro : c.HasProblem src (.unknownMacro c.name)
  | missingFormat : c.HasProblem src (.missingFormat c.name)
  /-- The byte to blame stands between the quotes of the format string. -/
  | invalidFormat {format : Literal} {given : List Literal} {e : FormatError}
      (hargs : c.argList = format :: given) (hlo : format.span.start + 1 ≤ e.offset)
      (hhi : e.offset + 1 ≤ format.span.stop - 1) (hwrap : wrap64 (e.offset + 1) = e.offset + 1) :
      c.HasProblem src (.invalidFormat e)
  | extraArguments {format : Literal} {given : List Literal} (hargs : c.argList = format :: given) :
      c.HasProblem src (.extraArguments format (given.drop (format.val.count openBrace)))
  | notEnoughArguments {format : Literal} {given : List Literal} {first : Span} {more : List Span}
      (hargs : c.argList = format :: given)
      (hspans : PlaceholderSpans src (format.span.start + 1) format.val (first :: more)) :
      c.HasProblem src (.notEnoughArguments first more given)

/-- Placeholders of a format string come before the arguments behind it. -/
theorem PlaceholderSpans.before {src : Text} {format : Literal} {spans : List Span} {s t : Span}
    (h : PlaceholderSpans src (format.span.start + 1) format.val spans) (hf : format.Fits src)
    (hs : s ∈ spans) (ht : format.span.Before t) : s.Before t := by
  have hstop := hf.stop_eq
  have hbounds := h.bounds s hs
  unfold Span.Before at ht ⊢
  omega

namespace Call

variable {c : Call} {src : Text} {q : Problem}

theorem Fits.format_fits (h : c.Fits src) {format : Literal} {given : List Literal}
    (hargs : c.argList = format :: given) : format.Fits src :=
  h.args format (by rw [hargs]; exact List.mem_cons_self)

/-- The byte to blame for an invalid format string is one between its quotes. -/
theorem Fits.invalidFormat (h : c.Fits src) (hsrc : src.Addressable) {format : Literal}
    {given : List Literal} {e : FormatError} (hargs : c.argList = format :: given)
    (he : format.pieces = .error e) : c.HasProblem src (.invalidFormat e) := by
  have hformat := h.format_fits hargs
  have hinside := hformat.inside_pieces hsrc
  rw [he] at hinside
  obtain ⟨hlo, hhi⟩ := hinside
  obtain ⟨hstart, -, hstop⟩ := hformat.inside
  unfold Addressable at hsrc
  exact .invalidFormat hargs hlo (by omega) (wrap64_eq (by omega) (by omega))

/-- **The problem that is found** in a call of a source. -/
theorem Fits.hasProblem (h : c.Fits src) (hsrc : src.Addressable) (hq : c.problem? = some q) :
    c.HasProblem src q := by
  rcases problem?_cases hq with rfl | rfl | ⟨format, given, hargs, hq⟩
  · exact .unknownMacro
  · exact .missingFormat
  · rcases Literal.formatProblem?_cases hq with
      ⟨e, he, rfl⟩ | ⟨ps, hps, ⟨-, rfl⟩ | ⟨first, more, hspans, -, rfl⟩⟩
    · exact h.invalidFormat hsrc hargs he
    · rw [(Literal.isFormat_of_pieces hps).2]
      exact .extraArguments hargs
    · have hplace := (h.format_fits hargs).placeholderSpans hsrc hps
      rw [hspans] at hplace
      exact .notEnoughArguments hargs hplace

theorem Fits.span_partOf (h : c.Fits src) (hsrc : src.Addressable) (hq : c.problem? = some q) :
    q.diagnostic.span.PartOf c.span := by
  obtain ⟨l, ls, hlabels, hspan⟩ := q.exists_first_label
  rw [← hspan]
  exact h.labels_partOf hsrc hq l (by rw [hlabels]; exact List.mem_cons_self)

/-! ### Order of the labels -/

theorem argSpans_order (hleaf : c.leafSpans.Pairwise Span.Before) {format : Literal}
    {given : List Literal} (hargs : c.argList = format :: given) :
    (format.span :: given.map Literal.span).Pairwise Span.Before := by
  unfold leafSpans at hleaf
  rw [hargs] at hleaf
  exact (List.pairwise_cons.mp hleaf).2

/-- **The labels of a problem** come one behind the other. -/
theorem HasProblem.labels_order (hp : c.HasProblem src q) (h : c.Fits src)
    (hleaf : c.leafSpans.Pairwise Span.Before) :
    (q.diagnostic.labels.map Label.span).Pairwise Span.Before := by
  cases hp with
  | unknownMacro => exact List.pairwise_singleton _ _
  | missingFormat => exact List.pairwise_singleton _ _
  | invalidFormat => exact List.pairwise_singleton _ _
  | extraArguments hargs =>
    rw [Problem.spans_extraArguments]
    exact (argSpans_order hleaf hargs).sublist (((List.drop_sublist _ _).map _).cons_cons _)
  | notEnoughArguments hargs hspans =>
    obtain ⟨hbehind, hgiven⟩ := List.pairwise_cons.mp (argSpans_order hleaf hargs)
    rw [Problem.spans_notEnoughArguments, List.pairwise_append]
    exact ⟨hspans.order, hgiven,
      fun s hs t ht => hspans.before (h.format_fits hargs) hs (hbehind t ht)⟩

/-! ### What the labels are on -/

/-- The arguments without a placeholder are the last ones. -/
theorem HasProblem.exists_unused (hp : c.HasProblem src q) (hrule : q.rule = .noneUnused) :
    ∃ format given unused, c.argList = format :: given ∧ unused <:+ given ∧
      unused.length = given.length - format.val.count openBrace ∧
      q.diagnostic.labels.tail.map Label.span = unused.map Literal.span := by
  cases hp with
  | @extraArguments format given hargs =>
    refine ⟨format, given, _, hargs, List.drop_suffix _ _, List.length_drop, ?_⟩
    rw [List.map_tail, Problem.spans_extraArguments, List.tail_cons]
  | _ => cases hrule

/-- Too few arguments are told with all placeholders and all arguments given. -/
theorem HasProblem.exists_placeholders (hp : c.HasProblem src q)
    (hrule : q.rule = .enoughGiven) :
    ∃ format given spans, c.argList = format :: given ∧
      PlaceholderSpans src (format.span.start + 1) format.val spans ∧
      q.diagnostic.labels.map Label.span = spans ++ given.map Literal.span := by
  cases hp with
  | notEnoughArguments hargs hspans =>
    exact ⟨_, _, _, hargs, hspans, Problem.spans_notEnoughArguments ..⟩
  | _ => cases hrule

/-- An invalid format string is told with one byte between its quotes. -/
theorem HasProblem.exists_blamed (hp : c.HasProblem src q) (hrule : q.rule = .formatValid) :
    ∃ format given, c.argList = format :: given ∧
      q.diagnostic.span.stop = q.diagnostic.span.start + 1 ∧
      format.span.start + 1 ≤ q.diagnostic.span.start ∧
      q.diagnostic.span.stop ≤ format.span.stop - 1 := by
  cases hp with
  | @invalidFormat format given e hargs hlo hhi hwrap =>
    have hspan : (Problem.invalidFormat e).diagnostic.span = ⟨e.offset, e.offset + 1⟩ := by
      rw [← hwrap]
      rfl
    rw [hspan]
    exact ⟨format, given, hargs, rfl, hlo, hhi⟩
  | _ => cases hrule

/-- **The diagnostic of a call stands in it.** -/
theorem Fits.standsIn (h : c.Fits src) (hleaf : c.leafSpans.Pairwise Span.Before)
    (hsrc : src.Addressable) (hq : c.problem? = some q) : q.diagnostic.StandsIn c src := by
  have hproblem := h.hasProblem hsrc hq
  have horder := hproblem.labels_order h hleaf
  have hrule : ∀ r : Rule, q.diagnostic.code = r.code → q.rule = r := by
    intro r hr
    rw [Problem.code_diagnostic] at hr
    exact Rule.code_inj.mp hr
  refine ⟨(h.span_partOf hsrc hq).2, fun l hl => (h.labels_partOf hsrc hq l hl).2, horder, ?_,
    fun hcode => hproblem.exists_unused (hrule _ hcode),
    fun hcode => hproblem.exists_placeholders (hrule _ hcode),
    fun hcode => hproblem.exists_blamed (hrule _ hcode)⟩
  obtain ⟨l, ls, hlabels, hspan⟩ := q.exists_first_label
  refine ⟨l, ls, hlabels, hspan, fun m hm heq => ?_⟩
  -- a later label starts behind the first one
  rw [hlabels, List.map_cons] at horder
  have hbefore := (List.pairwise_cons.mp horder).1 m.span (List.mem_map_of_mem hm)
  rw [heq, ← hspan] at hbefore
  exact absurd hbefore.1 (Int.lt_irrefl _)

end Call

namespace Program.Fits

variable {p : Program} {src : Text}

theorem leafSpans_order (h : p.Fits src) {c : Call} (hc : c ∈ p.calls) :
    c.leafSpans.Pairwise Span.Before :=
  (List.pairwise_flatMap.mp h.leafOrder).1 c hc

theorem check_eq (h : p.Fits src) :
    p.check = .ok ((p.calls.filterMap Call.problem?).map Problem.diagnostic) := by
  have hgap : none ∉ p.statementList := by
    rw [statementList, h.hasStatements]
    simp
  rw [Program.check_eq, calls?_of_no_gap hgap]

/-- Diagnostics come in the order of the source, since each stands in its call. -/
theorem pairwise_start_lt (h : p.Fits src) (hsrc : src.Addressable) :
    ((p.calls.filterMap Call.problem?).map Problem.diagnostic).Pairwise
      fun d e => d.span.start < e.span.start := by
  rw [List.pairwise_map, List.pairwise_filterMap]
  refine h.callOrder.imp_of_mem fun {c c'} hc hc' hbefore q hq q' hq' => ?_
  obtain ⟨hlt, -, hstop⟩ := (h.calls c hc).span_partOf hsrc hq
  obtain ⟨-, hstart, -⟩ := (h.calls c' hc').span_partOf hsrc hq'
  have := hbefore.2.1
  omega

theorem forall₂_standsIn (h : p.Fits src) (hsrc : src.Addressable) :
    List.Forall₂ (fun c d => Diagnostic.Describes d c ∧ Diagnostic.StandsIn d c src)
      (p.calls.filter fun c => ¬ c.WellFormed)
      ((p.calls.filterMap Call.problem?).map Problem.diagnostic) := by
  have hmem : ∀ c ∈ p.calls.filter fun c => ¬ c.WellFormed, c ∈ p.calls :=
    fun c hc => (List.mem_filter.mp hc).1
  refine ((List.forall₂_and_left _ _).mpr ⟨hmem, forall₂_problems p.calls⟩).imp ?_
  rintro c d ⟨hc, q, hq, rfl⟩
  exact ⟨Call.describes_of_problem? hq, (h.calls c hc).standsIn (h.leafSpans_order hc) hsrc hq⟩

end Program.Fits

/-- **Diagnostics of a parsed program are in order and in place**: they start one behind the other,
and there is one for each call that is not well formed, which stands in that call. -/
theorem diagnostics_stand_in_order (src : Text) (p : Program) (hsrc : src.Addressable)
    (h : parse src = .ok p) :
    ∃ ds, p.check = .ok ds ∧ ds.Pairwise (fun d e => d.span.start < e.span.start) ∧
      List.Forall₂ (fun c d => Diagnostic.Describes d c ∧ Diagnostic.StandsIn d c src)
        (p.calls.filter fun c => ¬ c.WellFormed) ds := by
  have hfits : p.Fits src := (parse_eq_ok_iff_derives.mp h).fits rfl
  exact ⟨_, hfits.check_eq, hfits.pairwise_start_lt hsrc, hfits.forall₂_standsIn hsrc⟩

/-- Three calls: with two placeholders and one argument, with a brace that opens nowhere, and with
an argument that has no placeholder. -/
theorem diagnostics_of_three_in_order :
    let src := ascii
      "fn main()\x7bprint!(\"\x7b \x7d\x7b\x7d\",\"x\");print!(\"\x7d\");print!(\"\",\"y\");\x7d"
    src.Addressable ∧ ∃ p ds, parse src = .ok p ∧ p.check = .ok ds ∧
      ds.map Diagnostic.code =
        [Rule.enoughGiven.code, Rule.formatValid.code, Rule.noneUnused.code] ∧
      ds.Pairwise (fun d e => d.span.start < e.span.start) ∧
      List.Forall₂ (fun c d => Diagnostic.Describes d c ∧ Diagnostic.StandsIn d c src)
        p.calls ds := by
  intro src
  have hsrc : src.Addressable := by decide
  let p : Program := ⟨some
    [some ⟨⟨⟨10, 16⟩, ascii "print!"⟩,
        some [⟨⟨17, 24⟩, ascii "\x7b \x7d\x7b\x7d"⟩, ⟨⟨25, 28⟩, ascii "x"⟩], ⟨10, 30⟩⟩,
      some ⟨⟨⟨30, 36⟩, ascii "print!"⟩, some [⟨⟨37, 40⟩, ascii "\x7d"⟩], ⟨30, 42⟩⟩,
      some ⟨⟨⟨42, 48⟩, ascii "print!"⟩, some [⟨⟨49, 51⟩, []⟩, ⟨⟨52, 55⟩, ascii "y"⟩], ⟨42, 57⟩⟩],
    ⟨0, 58⟩⟩
  have hparse : parse src = .ok p := by decide +kernel
  have hflawed : (p.calls.filter fun c => ¬ c.WellFormed) = p.calls := by decide +kernel
  have hcodes : p.check.map (List.map Diagnostic.code) =
      .ok [Rule.enoughGiven.code, Rule.formatValid.code, Rule.noneUnused.code] := by decide +kernel
  obtain ⟨ds, hds, horder, hstands⟩ := diagnostics_stand_in_order src p hsrc hparse
  rw [hds] at hcodes
  rw [hflawed] at hstands
  exact ⟨hsrc, p, ds, hparse, hds, Except.ok.inj hcodes, horder, hstands⟩

end MacroCalls
