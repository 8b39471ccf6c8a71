import MacroCalls.Batch.Basic
import MacroCalls.Check
import MacroCalls.Report.Write

/-!
# Diagnoses

The diagnosis of a source is the report on all that is wrong with it: the failure to parse it, or
else everything the check of its tree finds.
-/

namespace MacroCalls

/-- How far a source came. -/
inductive Diagnosis.Stage where
  | parse
  | check
  deriving DecidableEq, Repr

/-- The reports on a source. -/
structure Diagnosis where
  stage : Diagnosis.Stage
  /-- The number of reports. -/
  count : Nat
  output : Text
  deriving DecidableEq, Repr

namespace Diagnosis

/-- The reports on some failures of a source. -/
def ofFailures (color : Bool) (file : SourceFile) (stage : Stage) (failures : List Failure) :
    Except Fault Diagnosis :=
  let written := Report.writeAll color (some file) none (failures.map some)
  match written.stop with
  | some (.fault f) => .error f
  | _ => .ok ⟨stage, failures.length, written.output⟩

/-- The diagnosis of a source of at most `limit` bytes. -/
def ofSource (color : Bool) (limit : Int) (file : SourceFile) : Except Fault Diagnosis :=
  match (parseWithin limit file.text).2 with
  | .error e => ofFailures color file .parse [e]
  | .ok p => p.check.bind fun ds => ofFailures color file .check (ds.map .diagnostic)

end Diagnosis

end MacroCalls
