import MacroCalls.Batch.Basic

/-!
# Pools of workers

A batch may also be parsed by several workers at once. A loop hands the sources out in order, as
long as the batch has not been cancelled and a slot is free; each worker looks once more whether
the batch has been cancelled, parses its source, and then stores the tree or reports the failure.
The first failure reported is kept and cancels the batch. Workers and loop take their steps in any
order: `Pool.Step` is one step of any of them.
-/

namespace MacroCalls

/-- Where the work on a source stands. -/
inductive Worker where
  /-- About to look whether the batch has been cancelled. -/
  | starting
  | parsing
  | storing (tree : Program)
  | reporting (e : Failure)
  /-- Its failure has been kept, the batch is about to be cancelled. -/
  | canceling

/-- A batch on which workers are at work. -/
structure Pool where
  /-- The number of sources handed out. -/
  handedOut : Nat := 0
  /-- The loop has found the batch alive and waits for a free slot. -/
  waiting : Bool := false
  /-- The loop has found the batch cancelled and hands out no more. -/
  stopped : Bool := false
  /-- The workers with the number of their source. -/
  workers : List (Nat × Worker) := []
  /-- The trees stored, by the number of their source. -/
  trees : Nat → Option Program := fun _ => none
  /-- The first failure reported. -/
  failure : Option Failure := none
  canceled : Bool := false

namespace Pool

/-- What a worker reports or stores for a source. -/
def outcome (limit : Int) (i : Nat) (src : Text) : Worker :=
  match (parseWithin limit src).2 with
  | .ok tree => .storing tree
  | .error e => .reporting (Batch.failureOf i e)

/-- One step of the loop or of a worker, with at most `slots` workers at once. -/
inductive Step (limit : Int) (slots : Nat) (srcs : List Text) : Pool → Pool → Prop where
  | await (p : Pool) (more : p.handedOut < srcs.length) (idle : p.waiting = false)
      (running : p.stopped = false) (alive : p.canceled = false) :
      Step limit slots srcs p { p with waiting := true }
  | stop (p : Pool) (more : p.handedOut < srcs.length) (idle : p.waiting = false)
      (running : p.stopped = false) (canceled : p.canceled = true) :
      Step limit slots srcs p { p with stopped := true }
  | handOut (p : Pool) (ready : p.waiting = true) (free : p.workers.length < slots) :
      Step limit slots srcs p
        { p with
          handedOut := p.handedOut + 1
          waiting := false
          workers := p.workers ++ [(p.handedOut, .starting)] }
  | begin (p : Pool) (front back : List (Nat × Worker)) (i : Nat)
      (mine : p.workers = front ++ (i, .starting) :: back) :
      Step limit slots srcs p
        { p with
          workers :=
            front ++ (i, if p.canceled then .reporting .canceled else .parsing) :: back }
  | parse (p : Pool) (front back : List (Nat × Worker)) (i : Nat) (src : Text)
      (mine : p.workers = front ++ (i, .parsing) :: back) (source : srcs[i]? = some src) :
      Step limit slots srcs p
        { p with workers := front ++ (i, outcome limit i src) :: back }
  | store (p : Pool) (front back : List (Nat × Worker)) (i : Nat) (tree : Program)
      (mine : p.workers = front ++ (i, .storing tree) :: back) :
      Step limit slots srcs p
        { p with
          workers := front ++ back
          trees := fun j => if j = i then some tree else p.trees j }
  | keep (p : Pool) (front back : List (Nat × Worker)) (i : Nat) (e : Failure)
      (mine : p.workers = front ++ (i, .reporting e) :: back) (first : p.failure = none) :
      Step limit slots srcs p
        { p with workers := front ++ (i, .canceling) :: back, failure := some e }
  | drop (p : Pool) (front back : List (Nat × Worker)) (i : Nat) (e kept : Failure)
      (mine : p.workers = front ++ (i, .reporting e) :: back) (later : p.failure = some kept) :
      Step limit slots srcs p { p with workers := front ++ back }
  | cancel (p : Pool) (front back : List (Nat × Worker)) (i : Nat)
      (mine : p.workers = front ++ (i, .canceling) :: back) :
      Step limit slots srcs p { p with workers := front ++ back, canceled := true }

/-- The pools that a batch can come to. -/
inductive Reachable (limit : Int) (slots : Nat) (srcs : List Text) : Pool → Prop where
  | start : Reachable limit slots srcs {}
  | step {p q : Pool} (reached : Reachable limit slots srcs p) (h : Step limit slots srcs p q) :
      Reachable limit slots srcs q

/-- The loop has come to its end and no worker is left. -/
def Finished (srcs : List Text) (p : Pool) : Prop :=
  (p.handedOut = srcs.length ∨ p.stopped = true) ∧ p.workers = []

/-- The result of a finished batch: the failure kept, or the trees by the numbers of their
sources, with a gap for a source that was not parsed. -/
def result (srcs : List Text) (p : Pool) : Except Failure (List (Option Program)) :=
  match p.failure with
  | some e => .error e
  | none => .ok ((List.range srcs.length).map p.trees)

end Pool

end MacroCalls
