import Mathlib.Data.List.Forall2
import MacroCalls.Check
import MacroCalls.Proofs.FormatLanguage
import MacroCalls.Proofs.Labels

/-!
# Which calls get a diagnostic, and which one

A call is well formed if it is `println!` without arguments, or prints a format string with an
argument for each opening brace in it. There are five rules that a call can break, with a code for
each; no call breaks two of them (`Call.Breaks.eq`), and a call that breaks none is well formed. The
problem that is found belongs to the rule that the call breaks (`Call.breaks_of_problem?`).

Main statement: `check_exact`.
-/

namespace MacroCalls

open Text FormatString

/-- The call is one of the two that print. -/
def Call.Prints (c : Call) : Prop :=
  c.name.name = ascii "print!" ∨ c.name.name = ascii "println!"

instance (c : Call) : Decidable c.Prints := inferInstanceAs (Decidable (_ ∨ _))

/-- **A well-formed call**: nothing to print and a line end, or a format string and an argument for
each opening brace in it. -/
def Call.WellFormed (c : Call) : Prop :=
  match c.argList with
  | [] => c.name.name = ascii "println!"
  | format :: given =>
    c.Prints ∧ IsFormat format.val ∧ given.length = format.val.count openBrace

instance (c : Call) : Decidable c.WellFormed :=
  match h : c.argList with
  | [] => decidable_of_iff (c.name.name = ascii "println!") (by simp only [Call.WellFormed, h])
  | format :: given =>
    decidable_of_iff (c.Prints ∧ IsFormat format.val ∧ given.length = format.val.count openBrace)
      (by simp only [Call.WellFormed, h])

/-! ### Rules -/

/-- The rules for calls. -/
inductive Rule where
  | knownName
  | formatGiven
  | formatValid
  | noneUnused
  | enoughGiven
  deriving DecidableEq

/-- The code for calls that break the rule. -/
def Rule.code : Rule → Text
  | knownName => ascii "UnknownMacro"
  | formatGiven => ascii "MissingFmtStr"
  | formatValid => ascii "InvalidFmtStr"
  | noneUnused => ascii "ExtraFmtArguments"
  | enoughGiven => ascii "NotEnoughFmtArguments"

theorem Rule.code_inj {r r' : Rule} : r.code = r'.code ↔ r = r' := by
  cases r <;> cases r' <;> decide

/-- The call breaks a rule. -/
def Call.Breaks (c : Call) : Rule → Prop
  | .knownName => ¬ c.Prints
  | .formatGiven => c.name.name = ascii "print!" ∧ c.argList = []
  | .formatValid =>
    c.Prints ∧ ∃ format given, c.argList = format :: given ∧ ¬ IsFormat format.val
  | .noneUnused =>
    c.Prints ∧ ∃ format given, c.argList = format :: given ∧ IsFormat format.val ∧
      format.val.count openBrace < given.length
  | .enoughGiven =>
    c.Prints ∧ ∃ format given, c.argList = format :: given ∧ IsFormat format.val ∧
      given.length < format.val.count openBrace

/-- No call breaks two rules. -/
theorem Call.Breaks.eq {c : Call} {r r' : Rule} (h : c.Breaks r) (h' : c.Breaks r') : r = r' := by
  have hprints : c.name.name = ascii "print!" → c.Prints := .inl
  cases r <;> cases r' <;> simp only [Call.Breaks] at h h' <;> grind

theorem Call.WellFormed.not_breaks {c : Call} (h : c.WellFormed) (r : Rule) : ¬ c.Breaks r := by
  intro hr
  unfold Call.WellFormed at h
  split at h
  · rename_i hargs
    have hprints : c.Prints := .inr h
    have hname : c.name.name ≠ ascii "print!" := by rw [h]; decide
    cases r <;> simp only [Call.Breaks] at hr <;> grind
  · rename_i format given hargs
    cases r <;> simp only [Call.Breaks] at hr <;> grind

/-! ### Problems -/

/-- The rule that a call with the problem breaks. -/
def Problem.rule : Problem → Rule
  | unknownMacro _ => .knownName
  | missingFormat _ => .formatGiven
  | invalidFormat _ => .formatValid
  | extraArguments _ _ => .noneUnused
  | notEnoughArguments _ _ _ => .enoughGiven

theorem Problem.code_diagnostic (q : Problem) : q.diagnostic.code = q.rule.code := by
  cases q <;> rfl

namespace Literal

variable {format : Literal} {given : List Literal}

theorem isFormat_of_pieces {ps : List Piece} (h : format.pieces = .ok ps) :
    IsFormat format.val ∧ (Piece.placeholders ps).length = format.val.count openBrace := by
  have hreads := reads_pieces (format.span.start + 1) 0 format.val
  rwa [← Literal.pieces, h] at hreads

theorem not_isFormat_of_pieces {e : FormatError} (h : format.pieces = .error e) :
    ¬ IsFormat format.val := by
  have hreads := reads_pieces (format.span.start + 1) 0 format.val
  rwa [← Literal.pieces, h] at hreads

/-- A format string without a problem. -/
theorem isFormat_of_formatProblem?_eq_none (h : format.formatProblem? given = none) :
    IsFormat format.val ∧ given.length = format.val.count openBrace := by
  rw [formatProblem?] at h
  cases hp : format.pieces with
  | error e => rw [hp] at h; cases h
  | ok ps =>
    obtain ⟨hformat, hcount⟩ := isFormat_of_pieces hp
    simp only [hp] at h
    refine ⟨hformat, ?_⟩
    split at h
    · cases h
    · rename_i hle
      cases hspans : Piece.placeholders ps with
      | nil =>
        rw [hspans, List.length_nil] at hle hcount
        omega
      | cons first more =>
        rw [hspans] at h hle hcount
        rw [List.length_cons] at hle hcount
        dsimp only at h
        split at h
        · cases h
        · omega

end Literal

namespace Call

variable {c : Call} {q : Problem}

theorem breaks_of_formatProblem? {format : Literal} {given : List Literal} (hc : c.Prints)
    (hargs : c.argList = format :: given) (h : format.formatProblem? given = some q) :
    c.Breaks q.rule := by
  rcases Literal.formatProblem?_cases h with
    ⟨e, he, rfl⟩ | ⟨ps, hps, ⟨hlt, rfl⟩ | ⟨first, more, hspans, hle, rfl⟩⟩
  · exact ⟨hc, format, given, hargs, Literal.not_isFormat_of_pieces he⟩
  · obtain ⟨hformat, hcount⟩ := Literal.isFormat_of_pieces hps
    exact ⟨hc, format, given, hargs, hformat, hcount ▸ hlt⟩
  · obtain ⟨hformat, hcount⟩ := Literal.isFormat_of_pieces hps
    rw [hspans, List.length_cons] at hcount
    exact ⟨hc, format, given, hargs, hformat, by omega⟩

/-- **The problem that is found** is that the call breaks a rule. -/
theorem breaks_of_problem? (h : c.problem? = some q) : c.Breaks q.rule := by
  unfold problem? at h
  split at h
  · rename_i hname
    split at h
    · cases h
    · rename_i hargs
      exact breaks_of_formatProblem? (.inr hname) hargs h
  · rename_i hline
    split at h
    · rename_i hname
      split at h
      · rename_i hargs
        cases h
        exact ⟨hname, hargs⟩
      · rename_i hargs
        exact breaks_of_formatProblem? (.inl hname) hargs h
    · rename_i hname
      cases h
      exact fun hprints => hprints.elim hname hline

/-- **A call without a problem** is well formed. -/
theorem wellFormed_of_problem?_eq_none (h : c.problem? = none) : c.WellFormed := by
  unfold problem? at h
  unfold WellFormed
  cases hargs : c.argList with
  | nil =>
    simp only [hargs] at h
    split at h
    · assumption
    · split at h <;> cases h
  | cons format given =>
    simp only [hargs] at h
    split at h
    · rename_i hname
      exact ⟨.inr hname, Literal.isFormat_of_formatProblem?_eq_none h⟩
    · split at h
      · rename_i hname
        exact ⟨.inl hname, Literal.isFormat_of_formatProblem?_eq_none h⟩
      · cases h

theorem problem?_eq_none_iff : c.problem? = none ↔ c.WellFormed := by
  refine ⟨wellFormed_of_problem?_eq_none, fun hc => ?_⟩
  cases h : c.problem? with
  | none => rfl
  | some q => exact absurd (breaks_of_problem? h) (hc.not_breaks _)

end Call

/-! ### Diagnostics -/

/-- The message about too few arguments. -/
def tooFew (wanted given : Nat) : Text :=
  decimal wanted ++ ascii " positional " ++ plural wanted "argument" "arguments" ++
    ascii " in format string, but there " ++ plural given "is" "are" ++ ascii " " ++
    decimal given ++ ascii " " ++ plural given "argument" "arguments"

/-- The diagnostic is the right one for a call: it has the code of a rule just if the call breaks
that rule, and tells of too few arguments with the numbers of braces and arguments. -/
structure Diagnostic.Describes (d : Diagnostic) (c : Call) : Prop where
  code_iff : ∀ r : Rule, d.code = r.code ↔ c.Breaks r
  message_eq : ∀ format given, c.argList = format :: given → c.Breaks .enoughGiven →
    d.message = tooFew (format.val.count openBrace) given.length

theorem Call.describes_of_problem? {c : Call} {q : Problem} (h : c.problem? = some q) :
    q.diagnostic.Describes c := by
  have hbreaks := breaks_of_problem? h
  constructor
  · intro r
    rw [Problem.code_diagnostic, Rule.code_inj]
    exact ⟨fun hr => hr ▸ hbreaks, hbreaks.eq⟩
  · intro format given hargs hfew
    have hrule : q.rule = .enoughGiven := hbreaks.eq hfew
    rcases problem?_cases h with rfl | rfl | ⟨format', given', hargs', hq⟩
    · cases hrule
    · cases hrule
    · rw [hargs] at hargs'
      cases hargs'
      rcases Literal.formatProblem?_cases hq with
        ⟨e, -, rfl⟩ | ⟨ps, hps, ⟨-, rfl⟩ | ⟨first, more, hspans, -, rfl⟩⟩
      · cases hrule
      · cases hrule
      · obtain ⟨-, hcount⟩ := Literal.isFormat_of_pieces hps
        rw [hspans, List.length_cons] at hcount
        rw [← hcount]
        rfl

/-- The diagnostics of some calls are, in order, those of the calls that are not well formed. -/
theorem forall₂_problems (cs : List Call) :
    List.Forall₂ (fun c d => ∃ q, c.problem? = some q ∧ q.diagnostic = d)
      (cs.filter fun c => ¬ c.WellFormed)
      ((cs.filterMap Call.problem?).map Problem.diagnostic) := by
  induction cs with
  | nil => exact .nil
  | cons c cs ih =>
    cases h : c.problem? with
    | none =>
      rw [List.filterMap_cons_none h, List.filter_cons_of_neg]
      · exact ih
      · simpa using Call.problem?_eq_none_iff.mp h
    | some q =>
      have hnot : ¬ c.WellFormed := fun hc => by
        rw [Call.problem?_eq_none_iff.mpr hc] at h
        cases h
      rw [List.filterMap_cons_some h, List.filter_cons_of_pos (by simpa using hnot), List.map_cons]
      exact .cons ⟨q, h, rfl⟩ ih

theorem forall₂_describes (cs : List Call) :
    List.Forall₂ (fun c d => Diagnostic.Describes d c) (cs.filter fun c => ¬ c.WellFormed)
      ((cs.filterMap Call.problem?).map Problem.diagnostic) := by
  refine (forall₂_problems cs).imp ?_
  rintro c d ⟨q, hq, rfl⟩
  exact Call.describes_of_problem? hq

theorem Program.calls?_of_no_gap {p : Program} (h : none ∉ p.statementList) :
    p.calls? = some p.calls := by
  rw [calls?, calls]
  generalize p.statementList = l at h
  induction l with
  | nil => rfl
  | cons s l ih =>
    cases s with
    | none => exact absurd List.mem_cons_self h
    | some c =>
      rw [List.mapM_cons, ih fun hl => h (List.mem_cons_of_mem _ hl)]
      rfl

/-- **Checking is exact**: the diagnostics of a program without gaps are, in order, one for each
call that is not well formed, and each has the code of the rule that its call breaks. -/
theorem check_exact (p : Program) (h : none ∉ p.statementList) :
    ∃ ds, p.check = .ok ds ∧
      List.Forall₂ (fun c d => Diagnostic.Describes d c) (p.calls.filter fun c => ¬ c.WellFormed)
        ds := by
  refine ⟨_, ?_, forall₂_describes p.calls⟩
  rw [Program.check_eq, Program.calls?_of_no_gap h]

/-- Of four calls the second is unknown and the fourth lacks an argument. -/
theorem check_exact_of_four :
    let call := fun (name : String) (vals : List String) =>
      ({ name := ⟨⟨0, 0⟩, ascii name⟩, args := some (vals.map fun v => ⟨⟨0, 0⟩, ascii v⟩) } : Call)
    let unknown := call "dbg!" ["\x7b"]
    let short := call "print!" ["a\x7b \x7d\x7b\x7d", "b"]
    let p : Program :=
      { statements := some
          [call "println!" [], unknown, call "print!" ["\x7b\t\x7d", "\x7d"], short] }
    none ∉ p.statementList ∧ unknown.Breaks .knownName ∧ short.Breaks .enoughGiven ∧
      ∃ ds, p.check = .ok ds ∧
        List.Forall₂ (fun c d => Diagnostic.Describes d c) [unknown, short] ds := by
  intro call unknown short p
  have hgap : none ∉ p.statementList := by decide
  have hflawed : (p.calls.filter fun c => ¬ c.WellFormed) = [unknown, short] := by decide +kernel
  refine ⟨hgap, (by decide : ¬ unknown.Prints), ?_, hflawed ▸ check_exact p hgap⟩
  exact ⟨by decide, _, _, rfl, by decide +kernel, by decide⟩

end MacroCalls
