import MacroCalls.Diagnostic
import MacroCalls.Walk

/-!
# The check of a program

The check walks over a program and looks at each call as a whole, without going inside. At a gap,
where there is no call to look at, it stops. `Program.check_eq` gives its diagnostics without the
walk.
-/

namespace MacroCalls

/-- The visitor of the check goes inside everything but calls. -/
def Visitor.checking : Visitor := fun _ v =>
  match v with
  | .enter (.call _) => false
  | _ => true

/-- What the check finds at a visit: at a call its problem, if it has one. -/
def Visit.finding : Visit → Except Fault (Option Diagnostic)
  | .enter (.call (some c)) => .ok (c.problem?.map Problem.diagnostic)
  | .enter (.call none) => .error .missingStatement
  | _ => .ok none

/-- The diagnostics of a program, in the order of its statements. -/
def Program.check (p : Program) : Except Fault (List Diagnostic) :=
  match Visitor.checking.walk (.program p) with
  | .error (fault, _) => .error fault
  | .ok visits => (visits.toList.mapM Visit.finding).map (List.filterMap id)

/-! ### Without the walk -/

/-- The calls of a program without gaps. -/
def Program.calls? (p : Program) : Option (List Call) := p.statementList.mapM id

theorem Visitor.checking_walkStatement (seen : Array Visit) (s : Option Call) :
    checking.walkStatement seen s = .ok (seen.push (.enter (.call s))) := by
  cases s <;> rfl

theorem Visitor.checking_foldlM (statements : List (Option Call)) (seen : Array Visit) :
    statements.foldlM checking.walkStatement seen =
      .ok (seen ++ (statements.map fun s => Visit.enter (.call s)).toArray) := by
  induction statements generalizing seen with
  | nil => exact congrArg Except.ok (by simp)
  | cons s statements ih =>
    rw [List.foldlM_cons, checking_walkStatement]
    exact (ih _).trans (congrArg Except.ok (by simp))

/-- **The walk of the check** enters each statement and goes on to the next. -/
theorem Visitor.checking_walk (p : Program) :
    checking.walk (.program p) =
      .ok (Visit.enter (.program p) ::
        (p.statementList.map fun s => Visit.enter (.call s)) ++ [Visit.leave]).toArray := by
  have hinside : checking #[] (.enter (.program p)) = true := rfl
  rw [walk, walkProgram, visit, if_pos hinside, checking_foldlM]
  exact congrArg Except.ok (by simp)

theorem Visit.mapM_finding (statements : List (Option Call)) :
    (statements.map fun s => Visit.enter (.call s)).mapM finding =
      match statements.mapM id with
      | none => .error .missingStatement
      | some calls => .ok (calls.map fun c => c.problem?.map Problem.diagnostic) := by
  induction statements with
  | nil => rfl
  | cons s statements ih =>
    rw [List.map_cons, List.mapM_cons, List.mapM_cons, ih]
    cases s with
    | none => rfl
    | some c => cases statements.mapM id <;> rfl

/-- **The check gives** a diagnostic for each call that has a problem, unless there is a gap. -/
theorem Program.check_eq (p : Program) :
    p.check =
      match p.calls? with
      | none => .error .missingStatement
      | some calls => .ok ((calls.filterMap Call.problem?).map Problem.diagnostic) := by
  rw [check, Visitor.checking_walk, calls?]
  dsimp only
  rw [List.mapM_append, List.mapM_cons, Visit.mapM_finding]
  cases p.statementList.mapM id with
  | none => rfl
  | some calls =>
    refine congrArg Except.ok ?_
    simp [List.map_filterMap]

end MacroCalls
