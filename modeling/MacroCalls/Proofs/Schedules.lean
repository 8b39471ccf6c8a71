import Mathlib.Data.List.Forall2
import MacroCalls.Batch.Pool

/-!
# Batches do not depend on the schedule

Loop and workers of a pool take their steps in any order. Whatever the order, a pool keeps to
`Pool.Valid`: what is stored or kept is what the sources themselves give, a batch is only cancelled
after a failure has been kept, and every source handed out is still being worked on, has its tree
stored, or has become irrelevant through a failure. One step preserves this (`Pool.Valid.step`), so
it holds of every reachable pool (`Pool.Reachable.valid`), and at the end it leaves only the trees
of all sources or the failure of one of them (`Pool.Valid.settled`). A worker that finds the batch
cancelled reports that too, but always after the failure that is kept.

Each step also uses up work (`Pool.work_lt_of_step`), so no schedule goes on for ever
(`not_exists_endless_of_work`), and a pool that is not finished can take a step
(`Pool.Valid.exists_step`). One after another is a schedule
like any other (`Pool.exists_sequential`).

Main statement: `batch_independent_of_schedule`.
-/

namespace MacroCalls

/-! ### What the sources give -/

/-- What parsing the source with a number gives, if there is such a source. -/
def Batch.answer? (limit : Int) (srcs : List Text) (i : Nat) : Option (Except Failure Program) :=
  srcs[i]?.map fun src => (parseWithin limit src).2

open Batch (answer? failureOf)

theorem Batch.answer?_eq_some_iff {limit : Int} {srcs : List Text} {i : Nat}
    {r : Except Failure Program} :
    answer? limit srcs i = some r ↔ ∃ src, srcs[i]? = some src ∧ (parseWithin limit src).2 = r :=
  Option.map_eq_some_iff

/-- Parsing under a limit, without its log. -/
theorem parseWithin_snd (limit : Int) (src : Text) :
    (parseWithin limit src).2 =
      if 0 < limit ∧ limit < src.length then .error (.oversize src.length limit)
      else (parse src).mapError .syntaxError := by
  unfold parseWithin
  split
  · rfl
  · cases parse src <;> rfl

theorem parse_of_parseWithin {limit : Int} {src : Text} {tree : Program}
    (h : (parseWithin limit src).2 = .ok tree) : parse src = .ok tree := by
  rw [parseWithin_snd] at h
  split at h
  · cases h
  · cases hp : parse src with
    | ok p =>
      rw [hp] at h
      cases h
      rfl
    | error e =>
      rw [hp] at h
      cases h

/-- A source does not fail for having been cancelled. -/
theorem isCanceled_failureOf {limit : Int} {src : Text} {e : Failure} (i : Nat)
    (h : (parseWithin limit src).2 = .error e) : (failureOf i e).isCanceled = false := by
  rw [parseWithin_snd] at h
  split at h
  · cases h
    rfl
  · cases hp : parse src with
    | ok p =>
      rw [hp] at h
      cases h
    | error e' =>
      rw [hp] at h
      cases h
      rfl

/-- A batch that is not cancelled goes from source to source, without its log. -/
theorem Batch.parseFrom_none_cons (limit : Int) (i : Nat) (log : List LogRecord) (src : Text)
    (rest : List Text) :
    (parseFrom limit none i log (src :: rest)).2 =
      match (parseWithin limit src).2 with
      | .error e => .error (failureOf i e)
      | .ok p =>
        (parseFrom limit none (i + 1) (log ++ (parseWithin limit src).1) rest).2.map (p :: ·) := by
  have halive : CancelPoint.reached none log = false := rfl
  rw [parseFrom, halive]
  rcases parseWithin limit src with ⟨records, e | p⟩
  · rfl
  · rfl

/-- **The results that the sources allow**: the trees of all of them, or the failure of one. -/
inductive Batch.Settled (limit : Int) (srcs : List Text) :
    Except Failure (List (Option Program)) → Prop
  | trees {trees : List Program}
      (h : List.Forall₂ (fun src tree => (parseWithin limit src).2 = .ok tree) srcs trees) :
      Settled limit srcs (.ok (trees.map some))
  | failure {i : Nat} {e : Failure} (h : answer? limit srcs i = some (.error e)) :
      Settled limit srcs (.error (failureOf i e))

/-- What is found under the number of each entry of a list, as a list of its own. -/
theorem exists_forall₂_of_getElem? {α β : Type} {R : α → β → Prop} {l : List α}
    {f : Nat → Option β} (h : ∀ i a, l[i]? = some a → ∃ b, f i = some b ∧ R a b) :
    ∃ bs, (List.range l.length).map f = bs.map some ∧ List.Forall₂ R l bs := by
  induction l generalizing f with
  | nil => exact ⟨[], rfl, .nil⟩
  | cons a l ih =>
    obtain ⟨b, hb, hab⟩ := h 0 a rfl
    obtain ⟨bs, hmap, hbs⟩ := ih (f := fun i => f (i + 1)) fun i a' hi => h (i + 1) a' (by simpa)
    refine ⟨b :: bs, ?_, .cons hab hbs⟩
    rw [List.length_cons, List.range_succ_eq_map, List.map_cons, List.map_map, hb, List.map_cons,
      ← hmap]
    rfl

/-! ### The invariant -/

section

variable {limit : Int} {slots : Nat} {srcs : List Text}

/-- What a worker holds is what its source gives. What it reports may be anything once a failure
has been kept, since it is dropped then. -/
def Worker.Sound (limit : Int) (srcs : List Text) (kept : Option Failure) (i : Nat) : Worker → Prop
  | starting => i < srcs.length
  | parsing => i < srcs.length
  | storing tree => answer? limit srcs i = some (.ok tree)
  | reporting e => kept = none → ∃ e', answer? limit srcs i = some (.error e') ∧ e = failureOf i e'
  | canceling => kept ≠ none

theorem Worker.Sound.keep {i : Nat} {w : Worker} (h : w.Sound limit srcs none i) (e : Failure) :
    w.Sound limit srcs (some e) i := by
  cases w with
  | reporting e' => exact fun hnone => absurd hnone (Option.some_ne_none e)
  | canceling => exact Option.some_ne_none e
  | _ => exact h

namespace Pool

theorem sound_outcome {i : Nat} {src : Text} (h : srcs[i]? = some src) (kept : Option Failure) :
    (outcome limit i src).Sound limit srcs kept i := by
  unfold outcome
  cases hr : (parseWithin limit src).2 with
  | ok tree => exact Batch.answer?_eq_some_iff.mpr ⟨src, h, hr⟩
  | error e => exact fun _ => ⟨e, Batch.answer?_eq_some_iff.mpr ⟨src, h, hr⟩, rfl⟩

/-- **What holds of a pool** throughout. -/
structure Valid (limit : Int) (srcs : List Text) (p : Pool) : Prop where
  handedOut_le : p.handedOut ≤ srcs.length
  more_of_waiting : p.waiting = true → p.handedOut < srcs.length
  sound : ∀ w ∈ p.workers, w.2.Sound limit srcs p.failure w.1
  stored : ∀ i tree, p.trees i = some tree → answer? limit srcs i = some (.ok tree)
  kept : ∀ e, p.failure = some e →
    ∃ i e', answer? limit srcs i = some (.error e') ∧ e = failureOf i e'
  /-- A batch is cancelled only for a failure that has been kept. -/
  kept_of_canceled : p.canceled = true → p.failure ≠ none
  canceled_of_stopped : p.stopped = true → p.canceled = true
  covered : ∀ i < p.handedOut,
    i ∈ p.workers.map Prod.fst ∨ p.trees i ≠ none ∨ p.failure ≠ none

theorem Valid.start : Valid limit srcs {} := by
  constructor <;> simp

section Mine

variable {p : Pool} {front back : List (Nat × Worker)} {i : Nat} {w : Worker}
  (h : Valid limit srcs p) (mine : p.workers = front ++ (i, w) :: back)
include h mine

theorem Valid.sound_mine : w.Sound limit srcs p.failure i :=
  h.sound (i, w) (by simp [mine])

/-- The other workers are not affected by what becomes of one. -/
theorem Valid.sound_others : ∀ v ∈ front ++ back, v.2.Sound limit srcs p.failure v.1 := by
  intro v hv
  refine h.sound v ?_
  rw [mine]
  rcases List.mem_append.mp hv with hv | hv
  · exact List.mem_append_left _ hv
  · exact List.mem_append_right _ (List.mem_cons_of_mem _ hv)

/-- One worker goes on to its next stage. -/
theorem Valid.advance {w' : Worker} (hw : w'.Sound limit srcs p.failure i) :
    Valid limit srcs { p with workers := front ++ (i, w') :: back } := by
  refine ⟨h.handedOut_le, h.more_of_waiting, fun v hv => ?_, h.stored, h.kept, h.kept_of_canceled,
    h.canceled_of_stopped, fun j hj => ?_⟩
  · rcases List.mem_append.mp hv with hv | hv
    · exact h.sound_others mine v (List.mem_append_left _ hv)
    · rcases List.mem_cons.mp hv with rfl | hv
      · exact hw
      · exact h.sound_others mine v (List.mem_append_right _ hv)
  · have hcovered := h.covered j hj
    rw [mine] at hcovered
    simpa using hcovered

/-- One worker leaves; its source needs its tree stored, unless a failure has been kept. -/
theorem Valid.leave (hdone : p.trees i ≠ none ∨ p.failure ≠ none) :
    Valid limit srcs { p with workers := front ++ back } := by
  refine ⟨h.handedOut_le, h.more_of_waiting, h.sound_others mine, h.stored, h.kept,
    h.kept_of_canceled, h.canceled_of_stopped, fun j hj => ?_⟩
  rcases h.covered j hj with hw | hdone'
  · rw [mine] at hw
    by_cases hji : j = i
    · rw [hji]
      exact .inr hdone
    · refine .inl ?_
      simpa [hji] using hw
  · exact .inr hdone'

end Mine

/-- The tree of a source is put in its place. -/
theorem Valid.put {p : Pool} (h : Valid limit srcs p) {i : Nat} {tree : Program}
    (htree : answer? limit srcs i = some (.ok tree)) :
    Valid limit srcs { p with trees := fun j => if j = i then some tree else p.trees j } := by
  refine ⟨h.handedOut_le, h.more_of_waiting, h.sound, fun j t ht => ?_, h.kept,
    h.kept_of_canceled, h.canceled_of_stopped, fun j hj => ?_⟩
  · by_cases hji : j = i
    · have htt : tree = t := by simpa [hji] using ht
      rw [hji, ← htt]
      exact htree
    · exact h.stored j t (by simpa [hji] using ht)
  · by_cases hji : j = i
    · exact .inr (.inl (by simp [hji]))
    · simpa [hji] using h.covered j hj

/-- The first failure is kept. From then on nothing that is reported matters. -/
theorem Valid.keep {p : Pool} (h : Valid limit srcs p) (first : p.failure = none) {e : Failure}
    (he : ∃ i e', answer? limit srcs i = some (.error e') ∧ e = failureOf i e') :
    Valid limit srcs { p with failure := some e } := by
  refine ⟨h.handedOut_le, h.more_of_waiting, fun w hw => ?_, h.stored, fun e' he' => ?_,
    fun _ => Option.some_ne_none e, h.canceled_of_stopped,
    fun j hj => .inr (.inr (Option.some_ne_none e))⟩
  · have hsound := h.sound w hw
    rw [first] at hsound
    exact hsound.keep e
  · cases he'
    exact he

/-- **One step** of the loop or of a worker keeps a pool valid. -/
theorem Valid.step {p q : Pool} (h : Valid limit srcs p) (hs : Step limit slots srcs p q) :
    Valid limit srcs q := by
  cases hs with
  | await more idle running alive =>
    exact ⟨h.handedOut_le, fun _ => more, h.sound, h.stored, h.kept, h.kept_of_canceled,
      h.canceled_of_stopped, h.covered⟩
  | stop more idle running canceled =>
    exact ⟨h.handedOut_le, h.more_of_waiting, h.sound, h.stored, h.kept, h.kept_of_canceled,
      fun _ => canceled, h.covered⟩
  | handOut ready free =>
    have hmore := h.more_of_waiting ready
    refine ⟨hmore, by simp, fun w hw => ?_, h.stored, h.kept, h.kept_of_canceled,
      h.canceled_of_stopped, fun i hi => ?_⟩
    · rcases List.mem_append.mp hw with hw | hw
      · exact h.sound w hw
      · rw [List.mem_singleton.mp hw]
        exact hmore
    · rcases Nat.lt_succ_iff_lt_or_eq.mp hi with hi | rfl
      · rcases h.covered i hi with hw | hdone
        · exact .inl (by simpa using .inl (by simpa using hw))
        · exact .inr hdone
      · exact .inl (by simp)
  | begin front back i mine =>
    refine h.advance mine ?_
    by_cases hcanceled : p.canceled = true
    · rw [if_pos hcanceled]
      exact fun hnone => absurd hnone (h.kept_of_canceled hcanceled)
    · have hi : i < srcs.length := h.sound_mine mine
      rw [if_neg hcanceled]
      exact hi
  | parse front back i src mine source => exact h.advance mine (sound_outcome source _)
  | store front back i tree mine =>
    exact (h.put (h.sound_mine mine)).leave mine (.inl (by simp))
  | keep front back i e mine first =>
    have hkept := h.keep first ⟨i, h.sound_mine mine first⟩
    exact hkept.advance mine (Option.some_ne_none e)
  | drop front back i e kept mine later =>
    exact h.leave mine (.inr (by simp [later]))
  | cancel front back i mine =>
    have hkept : p.failure ≠ none := h.sound_mine mine
    have hleft := h.leave mine (.inr hkept)
    exact ⟨hleft.handedOut_le, hleft.more_of_waiting, hleft.sound, hleft.stored, hleft.kept,
      fun _ => hkept, fun _ => rfl, hleft.covered⟩

/-- **Every schedule** keeps a pool valid. -/
theorem Reachable.valid {p : Pool} (h : Reachable limit slots srcs p) : Valid limit srcs p := by
  induction h with
  | start => exact .start
  | step _ hs ih => exact ih.step hs

/-! ### Results -/

/-- **A finished pool** holds the trees of all sources or the failure of one. -/
theorem Valid.settled {p : Pool} (h : Valid limit srcs p) (hfin : p.Finished srcs) :
    Batch.Settled limit srcs (p.result srcs) := by
  obtain ⟨hend, hworkers⟩ := hfin
  unfold result
  cases hf : p.failure with
  | some e =>
    obtain ⟨i, e', hi, rfl⟩ := h.kept e hf
    exact .failure hi
  | none =>
    have hall : p.handedOut = srcs.length :=
      hend.resolve_right fun hs => h.kept_of_canceled (h.canceled_of_stopped hs) hf
    -- nothing failed and nobody is at work, so every source has its tree stored
    have htree : ∀ i src, srcs[i]? = some src →
        ∃ tree, p.trees i = some tree ∧ (parseWithin limit src).2 = .ok tree := by
      intro i src hi
      have hlt : i < p.handedOut := hall ▸ (List.getElem?_eq_some_iff.mp hi).1
      have hstored : p.trees i ≠ none := by
        rcases h.covered i hlt with hw | ht | hf'
        · simp [hworkers] at hw
        · exact ht
        · exact absurd hf hf'
      obtain ⟨tree, htree⟩ := Option.ne_none_iff_exists'.mp hstored
      obtain ⟨src', hi', hok⟩ := Batch.answer?_eq_some_iff.mp (h.stored i tree htree)
      rw [hi] at hi'
      cases hi'
      exact ⟨tree, htree, hok⟩
    obtain ⟨trees, hmap, htrees⟩ := exists_forall₂_of_getElem? htree
    rw [hmap]
    exact .trees htrees

end Pool

/-! ### Every schedule ends -/

/-- **Steps that use up work** in all states that keep an invariant do not go on for ever: there are
at most as many as there is work at the start. -/
theorem not_exists_endless_of_work {State : Type} {step : State → State → Prop}
    {keeps : State → Prop} {work : State → Nat} {start : State} (hstart : keeps start)
    (hkeeps : ∀ p q, keeps p → step p q → keeps q)
    (hwork : ∀ p q, keeps p → step p q → work q < work p) :
    ¬ ∃ run : Nat → State, run 0 = start ∧ ∀ k, step (run k) (run (k + 1)) := by
  rintro ⟨run, rfl, hrun⟩
  have hle : ∀ k, keeps (run k) ∧ work (run k) + k ≤ work (run 0) := by
    intro k
    induction k with
    | zero => exact ⟨hstart, Nat.le_refl _⟩
    | succ k ih =>
      have hlt := hwork _ _ ih.1 (hrun k)
      exact ⟨hkeeps _ _ ih.1 (hrun k), by omega⟩
  have := (hle (work (run 0) + 1)).2
  omega

/-- The most steps that a worker can still take. -/
def Worker.steps : Worker → Nat
  | starting => 4
  | parsing => 3
  | storing _ => 1
  | reporting _ => 2
  | canceling => 1

theorem Worker.steps_pos (w : Worker) : 0 < w.steps := by
  cases w <;> simp [steps]

namespace Pool

/-- The most steps that workers can still take. -/
def stepsLeft : List (Nat × Worker) → Nat
  | [] => 0
  | w :: workers => w.2.steps + stepsLeft workers

theorem stepsLeft_append_cons (front back : List (Nat × Worker)) (i : Nat) (w : Worker) :
    stepsLeft (front ++ (i, w) :: back) = stepsLeft (front ++ back) + w.steps := by
  induction front with
  | nil => exact Nat.add_comm _ _
  | cons v front ih =>
    simp only [List.cons_append, stepsLeft, ih]
    omega

/-- A bound on the steps that a pool can still take: six for each source to be handed out, one each
for a loop that does not wait and has not stopped, and those of the workers. -/
def work (srcs : List Text) (p : Pool) : Nat :=
  6 * (srcs.length - p.handedOut) + (if p.waiting then 0 else 1) + (if p.stopped then 0 else 1) +
    stepsLeft p.workers

section Mine

variable {p : Pool} {front back : List (Nat × Worker)} {i : Nat} {w : Worker}
  (mine : p.workers = front ++ (i, w) :: back)
include mine

theorem work_advance_lt {w' : Worker} (hw : w'.steps < w.steps) :
    work srcs { p with workers := front ++ (i, w') :: back } < p.work srcs := by
  simp only [work, mine, stepsLeft_append_cons]
  omega

theorem work_leave_lt : work srcs { p with workers := front ++ back } < p.work srcs := by
  have hpos := w.steps_pos
  simp only [work, mine, stepsLeft_append_cons]
  omega

end Mine

/-- **Each step uses up work.** -/
theorem work_lt_of_step {p q : Pool} (hwait : p.waiting = true → p.handedOut < srcs.length)
    (hs : Step limit slots srcs p q) : q.work srcs < p.work srcs := by
  cases hs with
  | await more idle running alive => simp [work, idle]
  | stop more idle running canceled => simp [work, running]
  | handOut ready free =>
    have hmore := hwait ready
    simp only [work, ready, stepsLeft_append_cons, List.append_nil, Worker.steps, if_true,
      Bool.false_eq_true, if_false]
    omega
  | begin front back i mine =>
    refine work_advance_lt mine ?_
    split <;> simp [Worker.steps]
  | parse front back i src mine source =>
    refine work_advance_lt mine ?_
    unfold outcome
    split <;> simp [Worker.steps]
  | store front back i tree mine => exact work_leave_lt mine
  | keep front back i e mine first => exact work_advance_lt mine (by simp [Worker.steps])
  | drop front back i e kept mine later => exact work_leave_lt mine
  | cancel front back i mine => exact work_leave_lt mine

theorem not_exists_endless :
    ¬ ∃ run : Nat → Pool, run 0 = {} ∧ ∀ k, Step limit slots srcs (run k) (run (k + 1)) :=
  not_exists_endless_of_work (.start : Valid limit srcs {}) (fun _ _ hp hs => hp.step hs)
    fun _ _ hp hs => work_lt_of_step hp.more_of_waiting hs

/-- A worker can always take its next step. -/
theorem exists_step_of_worker {p : Pool} {i : Nat} {w : Worker} {back : List (Nat × Worker)}
    (hsource : w = .parsing → i < srcs.length) (mine : p.workers = (i, w) :: back) :
    ∃ q, Step limit slots srcs p q := by
  cases w with
  | starting => exact ⟨_, .begin p [] back i mine⟩
  | parsing => exact ⟨_, .parse p [] back i _ mine (List.getElem?_eq_getElem (hsource rfl))⟩
  | storing tree => exact ⟨_, .store p [] back i tree mine⟩
  | reporting e =>
    cases hf : p.failure with
    | none => exact ⟨_, .keep p [] back i e mine hf⟩
    | some kept => exact ⟨_, .drop p [] back i e kept mine hf⟩
  | canceling => exact ⟨_, .cancel p [] back i mine⟩

/-- Where nobody is at work, the loop can take a step until it has come to its end. -/
theorem exists_step_of_no_worker {p : Pool} (hle : p.handedOut ≤ srcs.length) (hslots : 0 < slots)
    (hw : p.workers = []) (hfin : ¬ p.Finished srcs) : ∃ q, Step limit slots srcs p q := by
  have hopen : ¬ (p.handedOut = srcs.length ∨ p.stopped = true) := fun hend => hfin ⟨hend, hw⟩
  have hmore : p.handedOut < srcs.length := by omega
  have hrunning : p.stopped = false := by
    simpa using fun hs => hopen (.inr hs)
  cases hwait : p.waiting with
  | true => exact ⟨_, .handOut p hwait (by simpa [hw] using hslots)⟩
  | false =>
    cases hc : p.canceled with
    | true => exact ⟨_, .stop p hmore hwait hrunning hc⟩
    | false => exact ⟨_, .await p hmore hwait hrunning hc⟩

/-- **A pool that is not finished** can take a step. -/
theorem Valid.exists_step {p : Pool} (h : Valid limit srcs p) (hslots : 0 < slots)
    (hfin : ¬ p.Finished srcs) : ∃ q, Step limit slots srcs p q := by
  rcases hw : p.workers with _ | ⟨⟨i, w⟩, back⟩
  · exact exists_step_of_no_worker h.handedOut_le hslots hw hfin
  · have hsound := h.sound (i, w) (by simp [hw])
    refine exists_step_of_worker (fun hp => ?_) hw
    subst hp
    exact hsound

/-! ### One after another -/

/-- A pool in which nobody is at work and nothing has failed. -/
def quiet (n : Nat) (trees : Nat → Option Program) : Pool := { handedOut := n, trees := trees }

section Sequential

variable {n : Nat} {src : Text} {trees : Nat → Option Program}
  (hslots : 0 < slots) (hreach : Reachable limit slots srcs (quiet n trees))
  (hsrc : srcs[n]? = some src)
include hslots hreach hsrc

/-- The next source is handed out and parsed by the only worker. -/
theorem reachable_outcome :
    Reachable limit slots srcs
      { quiet (n + 1) trees with workers := [(n, outcome limit n src)] } := by
  have hmore : n < srcs.length := (List.getElem?_eq_some_iff.mp hsrc).1
  have hawait := hreach.step (.await _ hmore rfl rfl rfl)
  have hout := hawait.step (.handOut _ rfl hslots)
  have hbegun := hout.step (.begin _ [] [] n rfl)
  exact hbegun.step (.parse _ [] [] n src rfl hsrc)

theorem reachable_quiet_succ {tree : Program} (hok : (parseWithin limit src).2 = .ok tree) :
    Reachable limit slots srcs
      (quiet (n + 1) fun j => if j = n then some tree else trees j) := by
  have hparsed := reachable_outcome hslots hreach hsrc
  have houtcome : outcome limit n src = .storing tree := by simp [outcome, hok]
  rw [houtcome] at hparsed
  exact hparsed.step (.store _ [] [] n tree rfl)

theorem exists_finished_of_error {e : Failure} (herr : (parseWithin limit src).2 = .error e) :
    ∃ p, Reachable limit slots srcs p ∧ p.Finished srcs ∧
      p.result srcs = .error (failureOf n e) := by
  have hparsed := reachable_outcome hslots hreach hsrc
  have houtcome : outcome limit n src = .reporting (failureOf n e) := by simp [outcome, herr]
  rw [houtcome] at hparsed
  have hkept := hparsed.step (.keep _ [] [] n _ rfl rfl)
  have hcanceled := hkept.step (.cancel _ [] [] n rfl)
  have hmore : n < srcs.length := (List.getElem?_eq_some_iff.mp hsrc).1
  by_cases hlast : n + 1 = srcs.length
  · exact ⟨_, hcanceled, ⟨.inl hlast, rfl⟩, rfl⟩
  · -- the loop looks once more and finds the batch cancelled
    have hstopped := hcanceled.step (.stop _ (by simp only [quiet]; omega) rfl rfl rfl)
    exact ⟨_, hstopped, ⟨.inr rfl, rfl⟩, rfl⟩

end Sequential

/-- The tree of the next source is stored behind the others. -/
theorem map_range_put {n : Nat} {trees : Nat → Option Program} {stored : List Program}
    (h : (List.range n).map trees = stored.map some) (tree : Program) :
    (List.range (n + 1)).map (fun j => if j = n then some tree else trees j) =
      (stored ++ [tree]).map some := by
  have hbelow : ∀ j ∈ List.range n, (if j = n then some tree else trees j) = trees j := by
    intro j hj
    have := List.mem_range.mp hj
    rw [if_neg (by omega)]
  rw [List.range_succ, List.map_append, List.map_congr_left hbelow, h]
  simp

/-- The rest of a batch, one source after another, from a pool in which nobody is at work. -/
theorem exists_sequential_from (hslots : 0 < slots) (log : List LogRecord) (rest : List Text) :
    ∀ (n : Nat) (stored : List Program) (trees : Nat → Option Program),
      srcs.drop n = rest → n ≤ srcs.length → (List.range n).map trees = stored.map some →
      Reachable limit slots srcs (quiet n trees) →
      ∃ p, Reachable limit slots srcs p ∧ p.Finished srcs ∧
        p.result srcs =
          (Batch.parseFrom limit none n log rest).2.map fun ts => (stored ++ ts).map some := by
  induction rest generalizing log with
  | nil =>
    intro n stored trees hdrop hn hstored hreach
    have hall : n = srcs.length := by
      have := List.drop_eq_nil_iff.mp hdrop
      omega
    refine ⟨_, hreach, ⟨.inl hall, rfl⟩, ?_⟩
    simp [Batch.parseFrom, Batch.CancelPoint.reached, result, quiet, Except.map, ← hall, hstored]
  | cons src rest ih =>
    intro n stored trees hdrop hn hstored hreach
    have hsrc : srcs[n]? = some src := by
      have := congrArg (·[0]?) hdrop
      simpa using this
    have hrest : srcs.drop (n + 1) = rest := by
      rw [← List.drop_drop, hdrop]
      rfl
    have hmore : n < srcs.length := (List.getElem?_eq_some_iff.mp hsrc).1
    rw [Batch.parseFrom_none_cons]
    cases hr : (parseWithin limit src).2 with
    | error e => exact exists_finished_of_error hslots hreach hsrc hr
    | ok tree =>
      have hnext := reachable_quiet_succ hslots hreach hsrc hr
      obtain ⟨p, hp, hfin, hresult⟩ :=
        ih _ (n + 1) (stored ++ [tree]) _ hrest hmore (map_range_put hstored tree) hnext
      refine ⟨p, hp, hfin, hresult.trans ?_⟩
      dsimp only
      generalize (Batch.parseFrom limit none (n + 1) _ rest).2 = answer
      rcases answer with e | ts
      · rfl
      · simp [Except.map]

/-- **One after another is a schedule**, with any number of slots. -/
theorem exists_sequential (hslots : 0 < slots) (concurrency : Int) :
    ∃ p, Reachable limit slots srcs p ∧ p.Finished srcs ∧
      p.result srcs = (Batch.parseAll limit concurrency none srcs).2.map (List.map some) :=
  exists_sequential_from hslots _ srcs 0 [] _ rfl (Nat.zero_le _) rfl .start

end Pool

/-! ### All schedules -/

namespace Batch.Settled

variable {r : Except Failure (List (Option Program))}

theorem exists_trees (h : Settled limit srcs r)
    (hall : ∀ src ∈ srcs, ∃ tree, (parseWithin limit src).2 = .ok tree) :
    ∃ trees, r = .ok (trees.map some) ∧
      List.Forall₂ (fun src tree => parse src = .ok tree) srcs trees := by
  cases h with
  | trees htrees => exact ⟨_, rfl, htrees.imp fun _ _ => parse_of_parseWithin⟩
  | failure hi =>
    obtain ⟨src, hsrc, herr⟩ := answer?_eq_some_iff.mp hi
    obtain ⟨tree, hok⟩ := hall src (List.mem_of_getElem? hsrc)
    rw [herr] at hok
    cases hok

theorem exists_failure (h : Settled limit srcs r)
    (hsome : ∃ src ∈ srcs, ∃ e, (parseWithin limit src).2 = .error e) :
    ∃ i src e, srcs[i]? = some src ∧ (parseWithin limit src).2 = .error e ∧
      r = .error (failureOf i e) := by
  cases h with
  | trees htrees =>
    obtain ⟨src, hmem, e, herr⟩ := hsome
    obtain ⟨i, hi, rfl⟩ := List.getElem_of_mem hmem
    have hok := htrees.get hi (htrees.length_eq ▸ hi)
    rw [List.get_eq_getElem, herr] at hok
    cases hok
  | failure hi =>
    obtain ⟨src, hsrc, herr⟩ := answer?_eq_some_iff.mp hi
    exact ⟨_, src, _, hsrc, herr, rfl⟩

end Batch.Settled

end

/-- **Batches do not depend on the schedule.** Whatever the sources, the size limit and the number
of slots: every schedule ends, parsing one source after another is one of them, and whichever is
taken,
* the result is the list of the trees of all sources in their order if every source parses;
* otherwise it is the failure of some source, told with its number, and not the cancellation;
* if only one source fails, it is the failure of that source. -/
theorem batch_independent_of_schedule (limit : Int) (slots : Nat) (hslots : 0 < slots)
    (srcs : List Text) :
    (¬ ∃ run : Nat → Pool, run 0 = {} ∧
      ∀ k, Pool.Step limit slots srcs (run k) (run (k + 1))) ∧
    (∀ p, Pool.Reachable limit slots srcs p → ¬ p.Finished srcs →
      ∃ q, Pool.Step limit slots srcs p q) ∧
    (∃ p, Pool.Reachable limit slots srcs p ∧ p.Finished srcs ∧
      p.result srcs = (Batch.parseAll limit slots none srcs).2.map (List.map some)) ∧
    ∀ p, Pool.Reachable limit slots srcs p → p.Finished srcs →
      ((∀ src ∈ srcs, ∃ tree, (parseWithin limit src).2 = .ok tree) →
        ∃ trees, p.result srcs = .ok (trees.map some) ∧
          List.Forall₂ (fun src tree => parse src = .ok tree) srcs trees) ∧
      ((∃ src ∈ srcs, ∃ e, (parseWithin limit src).2 = .error e) →
        ∃ i src e f, srcs[i]? = some src ∧ (parseWithin limit src).2 = .error e ∧
          p.result srcs = .error f ∧ f = failureOf i e ∧ f.isCanceled = false ∧
          f.text = ascii "source #" ++ Text.decimal i ++ ascii ": " ++ e.text) ∧
      ∀ i src e, srcs[i]? = some src → (parseWithin limit src).2 = .error e →
        (∀ j src' e', srcs[j]? = some src' → (parseWithin limit src').2 = .error e' → j = i) →
        p.result srcs = .error (failureOf i e) := by
  refine ⟨Pool.not_exists_endless, fun p hp hfin => hp.valid.exists_step hslots hfin,
    Pool.exists_sequential hslots slots, fun p hp hfin => ?_⟩
  have hsettled := hp.valid.settled hfin
  refine ⟨hsettled.exists_trees, fun hsome => ?_, fun i src e hi herr honly => ?_⟩
  · obtain ⟨i, src, e, hi, herr, hr⟩ := hsettled.exists_failure hsome
    exact ⟨i, src, e, _, hi, herr, hr, rfl, isCanceled_failureOf i herr, rfl⟩
  · obtain ⟨j, src', e', hj, herr', hr⟩ :=
      hsettled.exists_failure ⟨src, List.mem_of_getElem? hi, e, herr⟩
    have hji := honly j src' e' hj herr'
    subst hji
    rw [hi] at hj
    cases hj
    rw [herr] at herr'
    cases herr'
    exact hr

/-- Of three sources the second ends too early: every schedule of two workers says so. -/
theorem batch_with_one_failure :
    let srcs := [ascii "fn main()\x7b\x7d", ascii "fn main(", ascii "fn main()\x7b\x7d"]
    ∃ e, (parseWithin 0 (ascii "fn main(")).2 = .error e ∧
      (∃ p, Pool.Reachable 0 2 srcs p ∧ p.Finished srcs) ∧
      ∀ p, Pool.Reachable 0 2 srcs p → p.Finished srcs →
        p.result srcs = .error (failureOf 1 e) := by
  intro srcs
  have herr : parse (ascii "fn main(") = .error ⟨.unexpectedEnd, 8, 1, 9, ⟨8, 8⟩, [],
      some [ascii "\")\""], ascii "Main"⟩ := by
    decide +kernel
  have hok : parse (ascii "fn main()\x7b\x7d") = .ok ⟨some [], ⟨0, 11⟩⟩ := by
    decide +kernel
  obtain ⟨e, hfail⟩ : ∃ e, (parseWithin 0 (ascii "fn main(")).2 = .error e := by
    rw [parseWithin_snd, herr]
    exact ⟨_, rfl⟩
  obtain ⟨-, -, ⟨q, hq, hqfin, -⟩, hall⟩ := batch_independent_of_schedule 0 2 (by decide) srcs
  refine ⟨e, hfail, ⟨q, hq, hqfin⟩, fun p hp hfin => ?_⟩
  refine (hall p hp hfin).2.2 1 _ e rfl hfail fun j src e' hj hj' => ?_
  rw [parseWithin_snd] at hj'
  rcases j with _ | _ | _ | j
  · cases hj
    rw [hok] at hj'
    cases hj'
  · rfl
  · cases hj
    rw [hok] at hj'
    cases hj'
  · cases hj

end MacroCalls
