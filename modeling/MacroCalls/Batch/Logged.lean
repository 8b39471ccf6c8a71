import MacroCalls.Batch.Pool

/-!
# Pools that write a log

While it parses its source, a worker writes the records of that source one by one. The caller
cancels a batch by the number of records written: before the first one, while one of them is being
written, or never. So writing a record can be what cancels the batch, and the loop and the other
workers can find it cancelled from then on. When the pool is finished and no failure has been kept,
the caller's cancellation still comes before the trees.
-/

namespace MacroCalls

open Batch (CancelPoint)

/-- A pool with its log. -/
structure LoggedPool where
  pool : Pool
  /-- The records of the source with a number that have not been written yet. -/
  unwritten : Nat → List LogRecord
  log : List LogRecord

namespace LoggedPool

/-- What is logged about the source with a number, if there is such a source. -/
def recordsOf (limit : Int) (srcs : List Text) (i : Nat) : List LogRecord :=
  match srcs[i]? with
  | some src => (parseWithin limit src).1
  | none => []

/-- The pool when only the record of the batch itself has been written. -/
def start (limit : Int) (slots : Nat) (cancel : CancelPoint) (srcs : List Text) : LoggedPool :=
  { pool := { canceled := cancel.reached [.batch srcs.length slots] }
    unwritten := recordsOf limit srcs
    log := [.batch srcs.length slots] }

/-- One step of the loop or of a worker, with at most `slots` workers at once. -/
inductive Step (limit : Int) (slots : Nat) (cancel : CancelPoint) (srcs : List Text) :
    LoggedPool → LoggedPool → Prop where
  | write (p : LoggedPool) (front back : List (Nat × Worker)) (i : Nat) (r : LogRecord)
      (rs : List LogRecord) (mine : p.pool.workers = front ++ (i, .parsing) :: back)
      (due : p.unwritten i = r :: rs) :
      Step limit slots cancel srcs p
        { pool := { p.pool with canceled := p.pool.canceled || cancel.reached (p.log ++ [r]) }
          unwritten := fun j => if j = i then rs else p.unwritten j
          log := p.log ++ [r] }
  /-- Nobody is through with parsing before the records of the source have been written. -/
  | work (p : LoggedPool) (q : Pool) (h : Pool.Step limit slots srcs p.pool q)
      (written : ∀ i, (i, .parsing) ∈ p.pool.workers → (i, .parsing) ∉ q.workers →
        p.unwritten i = []) :
      Step limit slots cancel srcs p { p with pool := q }

/-- The pools that a batch can come to. -/
inductive Reachable (limit : Int) (slots : Nat) (cancel : CancelPoint) (srcs : List Text) :
    LoggedPool → Prop where
  | start : Reachable limit slots cancel srcs (start limit slots cancel srcs)
  | step {p q : LoggedPool} (reached : Reachable limit slots cancel srcs p)
      (h : Step limit slots cancel srcs p q) : Reachable limit slots cancel srcs q

/-- The result of a finished batch: the failure kept, the caller's cancellation, or the trees. -/
def result (cancel : CancelPoint) (srcs : List Text) (p : LoggedPool) :
    Except Failure (List (Option Program)) :=
  match p.pool.result srcs with
  | .error e => .error e
  | .ok trees => if cancel.reached p.log then .error .canceled else .ok trees

end LoggedPool

end MacroCalls
