import MacroCalls.Proofs.Guarded.Check
import MacroCalls.Proofs.Guarded.Parse
import MacroCalls.Proofs.Guarded.Report
import MacroCalls.Proofs.Labels
import MacroCalls.Report.Diagnosis

/-!
# The guarded diagnosis

Parsing, check and reports put together, each with its accesses guarded. What the stages need of
each other is that no label ends before the file starts: the offending token of a syntax error
stands in the file, and the labels of a call's problem are parts of the call.

Main statement: the diagnosis of a source always exists and is the guarded one
(`diagnosis_exists_guarded`). Offsets have 64 bits, so the source must have fewer than `2 ^ 63`
bytes.
-/

namespace MacroCalls

namespace Guarded

/-- The reports on some failures of a source. -/
def reports (color : Bool) (f : SourceFile) (stage : Diagnosis.Stage) (failures : List Failure) :
    Option Diagnosis := do
  let texts ← failures.mapM (report color f)
  some ⟨stage, failures.length, texts.flatten⟩

/-- The diagnosis of a source of at most `limit` bytes. -/
def diagnosis (color : Bool) (limit : Int) (f : SourceFile) : Option Diagnosis := do
  if 0 < limit ∧ limit < f.text.length then
    reports color f .parse [.oversize f.text.length limit]
  else
    match ← parse f.text with
    | .error e => reports color f .parse [.syntaxError e]
    | .ok p =>
      let ds ← check p
      reports color f .check (ds.map .diagnostic)

/-- A failure whose diagnostic, if it is reported as one, can be shown. -/
def Reportable (e : Failure) : Prop := ∀ d, e.reported? = some d → d.Showable

theorem exists_writeAll (color : Bool) (f : SourceFile) {failures : List Failure}
    (h : ∀ e ∈ failures, Reportable e) :
    ∃ texts, failures.mapM (report color f) = some texts ∧
      Report.writeAll color (some f) none (failures.map some) = ⟨texts.flatten, none⟩ := by
  induction failures with
  | nil => exact ⟨[], rfl, rfl⟩
  | cons e failures ih =>
    obtain ⟨t, hrun, hguarded⟩ := exists_report color f (h e (by simp))
    obtain ⟨texts, hmap, hwrite⟩ := ih fun e he => h e (by simp [he])
    refine ⟨t :: texts, ?_, ?_⟩
    · rw [List.mapM_cons, hguarded, hmap]
      rfl
    · simp only [List.map_cons, Report.writeAll, hrun, Option.map_none, hwrite, List.flatten_cons]

theorem exists_reports (color : Bool) (f : SourceFile) (stage : Diagnosis.Stage)
    {failures : List Failure} (h : ∀ e ∈ failures, Reportable e) :
    ∃ r, Diagnosis.ofFailures color f stage failures = .ok r ∧
      reports color f stage failures = some r := by
  obtain ⟨texts, hmap, hwrite⟩ := exists_writeAll color f h
  rw [Diagnosis.ofFailures, hwrite, reports, hmap]
  exact ⟨_, rfl, rfl⟩

/-! ### What can be reported -/

theorem reportable_oversize (size : Nat) (limit : Int) : Reportable (.oversize size limit) := by
  intro d hd
  cases hd

/-- The offending token stands in the file. -/
theorem reportable_syntaxError {src : Text} {e : SyntaxError}
    (h : MacroCalls.parse src = .error e) : Reportable (.syntaxError e) := by
  obtain ⟨us, t, vs, q, -, -, -, rfl⟩ := parse_eq_error_iff.mp h
  intro d hd
  cases hd
  intro l hl _
  cases List.mem_singleton.mp hl
  exact Int.natCast_nonneg t.stop

/-- The labels of a call's problem are parts of the call, which stands in the file. -/
theorem reportable_check {src : Text} {p : Program} (h : p.Fits src) (hsrc : src.Addressable) :
    ∀ d ∈ (p.calls.filterMap Call.problem?).map Problem.diagnostic, Reportable (.diagnostic d) := by
  intro d hd
  obtain ⟨q, hq, rfl⟩ := List.mem_map.mp hd
  obtain ⟨c, hc, hq⟩ := List.mem_filterMap.mp hq
  have hfits := h.calls c hc
  intro d hd
  cases hd
  intro l hl hlt
  obtain ⟨-, hstart, -⟩ := hfits.labels_partOf hsrc hq l hl
  have hpos := hfits.inside.1
  omega

theorem calls?_eq {p : Program} {src : Text} (h : p.Fits src) : p.calls? = some p.calls := by
  rw [Program.calls?, Program.statementList, h.hasStatements, Option.getD_some, List.mapM_map]
  have hall : p.calls.mapM (fun c => some c) = some (p.calls.map id) :=
    mapM_of_forall fun _ _ => rfl
  rwa [List.map_id] at hall

end Guarded

open Guarded in
/-- **Every source has a diagnosis**, and no access that leads to it is out of range; nor is any in
the message of a syntax error. -/
theorem diagnosis_exists_guarded (color : Bool) (limit : Int) (name src : Text)
    (hsrc : src.Addressable) :
    (∃ r, Diagnosis.ofSource color limit (.ofText name src) = .ok r ∧
      Guarded.diagnosis color limit (.ofText name src) = some r) ∧
    ∀ e, MacroCalls.parse src = .error e → Guarded.message e = some e.message := by
  refine ⟨?_, fun e _ => message_eq e⟩
  have htext : (SourceFile.ofText name src).text = src := rfl
  rw [Diagnosis.ofSource, diagnosis, parseWithin, htext]
  by_cases hsize : 0 < limit ∧ limit < src.length
  · rw [if_pos hsize, if_pos hsize]
    exact exists_reports color _ .parse (by simpa using reportable_oversize src.length limit)
  · rw [if_neg hsize, if_neg hsize, parse_eq]
    cases hp : MacroCalls.parse src with
    | error e => exact exists_reports color _ .parse (by simpa using reportable_syntaxError hp)
    | ok p =>
      have hfits : p.Fits src := (parse_eq_ok_iff_derives.mp hp).fits rfl
      have hcalls := calls?_eq hfits
      simp only [Program.check_eq, hcalls, check_eq hcalls, Option.bind_eq_bind, Option.bind_some,
        Except.bind]
      refine exists_reports color _ .check fun e he => ?_
      obtain ⟨d, hd, rfl⟩ := List.mem_map.mp he
      exact reportable_check hfits hsrc d hd

/-- A placeholder without an argument, under a size limit that the source does not reach. -/
theorem diagnosis_of_missing_argument :
    Text.Addressable (ascii "fn main()\x7bprint!(\"\x7b\x7d\");\x7d") ∧
      ∃ r, Diagnosis.ofSource true 99
          (.ofText [] (ascii "fn main()\x7bprint!(\"\x7b\x7d\");\x7d")) = .ok r ∧
        Guarded.diagnosis true 99
          (.ofText [] (ascii "fn main()\x7bprint!(\"\x7b\x7d\");\x7d")) = some r ∧
        r.stage = .check ∧ r.count = 1 := by
  have hlen : Text.Addressable (ascii "fn main()\x7bprint!(\"\x7b\x7d\");\x7d") := by decide
  obtain ⟨r, hrun, hguarded⟩ := (diagnosis_exists_guarded true 99 [] _ hlen).1
  refine ⟨hlen, r, hrun, hguarded, ?_⟩
  have heval : (Diagnosis.ofSource true 99
      (.ofText [] (ascii "fn main()\x7bprint!(\"\x7b\x7d\");\x7d"))).map
      (fun r => (r.stage, r.count)) = .ok (.check, 1) := by decide +kernel
  rw [hrun] at heval
  exact Prod.mk.inj (Except.ok.inj heval)

end MacroCalls
