import MacroCalls.Walk
import Mathlib.Combinatorics.Enumerative.DyckWord
import Mathlib.Data.List.Lex

/-!
# Trails

A walk over a tree asks its visitor about one node after another, and each answer may depend on all
that came before. A *trail* is the record of such a walk: one step for each time the visitor is
told something, with the address of the node and the answer. `Visitor.Trail` says which records
there can be for some nodes that are walked over one after another, without the control flow of the
walk.

Addresses make sure that every node is told apart, also from nodes that look the same. Source order
is the lexicographic order of addresses. Everything about a trail follows by induction on it: what
is entered, in which order, and what stands between entering and leaving a node.
-/

namespace MacroCalls

/-! ### Addresses -/

/-- Where a node stands below another one: which child to go to at each node on the way. -/
abbrev Address := List Nat

namespace Address

variable {a b c d : Address}

/-- The node at `a` is an ancestor of the node at `b`. -/
def Above (a b : Address) : Prop := a <+: b ∧ a ≠ b

/-- The ways to the two nodes part, and the first one goes to an earlier child. -/
def LeftOf (a b : Address) : Prop := ∃ c i j s t, a = c ++ i :: s ∧ b = c ++ j :: t ∧ i < j

theorem above_append (a : Address) (i : Nat) (s : Address) : a.Above (a ++ i :: s) :=
  ⟨List.prefix_append .., by simp⟩

theorem Above.not_isPrefix (h : a.Above b) : ¬ b <+: a := fun hb =>
  h.2 (h.1.eq_of_length (Nat.le_antisymm h.1.length_le hb.length_le))

/-- What is below a node to the left of another one is to the left of what is below that one. -/
theorem LeftOf.below (h : a.LeftOf b) (ha : a <+: c) (hb : b <+: d) : c.LeftOf d := by
  obtain ⟨e, i, j, s, t, rfl, rfl, hij⟩ := h
  obtain ⟨s', rfl⟩ := ha
  obtain ⟨t', rfl⟩ := hb
  exact ⟨e, i, j, s ++ s', t ++ t', by simp, by simp, hij⟩

theorem LeftOf.not_isPrefix (h : a.LeftOf b) : ¬ a <+: b ∧ ¬ b <+: a := by
  obtain ⟨e, i, j, s, t, rfl, rfl, hij⟩ := h
  simp only [List.prefix_append_right_inj, List.cons_prefix_cons]
  omega

theorem LeftOf.lex (h : a.LeftOf b) : List.Lex (· < ·) a b := by
  obtain ⟨e, i, j, s, t, rfl, rfl, hij⟩ := h
  exact List.Lex.append_left _ (.rel hij) e

theorem Above.lex (h : a.Above b) : List.Lex (· < ·) a b := by
  obtain ⟨⟨t, rfl⟩, hne⟩ := h
  cases t with
  | nil => simp at hne
  | cons i t =>
    have hlex : List.Lex (· < ·) (a ++ []) (a ++ i :: t) := List.Lex.append_left _ .nil a
    rwa [List.append_nil] at hlex

end Address

namespace Node

/-- The nodes right inside a node, in source order. -/
def children : Node → List Node
  | program p => p.statementList.map call
  | call (some c) => name c.name :: c.argList.map literal
  | _ => []

/-- The node at an address below a node. -/
def descendant? : Node → Address → Option Node
  | n, [] => some n
  | n, i :: a => n.children[i]?.bind (·.descendant? a)

/-- The children of the node at an address, with their own addresses. -/
def childrenAt (a : Address) (n : Node) : List (Address × Node) :=
  n.children.mapIdx fun i m => (a ++ [i], m)

theorem descendant?_append (n : Node) (a b : Address) :
    n.descendant? (a ++ b) = (n.descendant? a).bind (·.descendant? b) := by
  induction a generalizing n with
  | nil => rfl
  | cons i a ih =>
    rw [List.cons_append, descendant?, descendant?, Option.bind_assoc]
    simp only [ih]

theorem mem_childrenAt_iff {a b : Address} {n m : Node} :
    (b, m) ∈ n.childrenAt a ↔ ∃ i, b = a ++ [i] ∧ n.children[i]? = some m := by
  rw [childrenAt, List.mem_mapIdx]
  constructor
  · rintro ⟨i, hi, heq⟩
    cases heq
    exact ⟨i, rfl, List.getElem?_eq_getElem hi⟩
  · rintro ⟨i, rfl, hm⟩
    obtain ⟨hi, rfl⟩ := List.getElem?_eq_some_iff.mp hm
    exact ⟨i, hi, rfl⟩

theorem pairwise_childrenAt (a : Address) (n : Node) :
    (n.childrenAt a).Pairwise fun x y => x.1.LeftOf y.1 := by
  rw [List.pairwise_iff_getElem]
  intro i j hi hj hij
  simp only [childrenAt, List.getElem_mapIdx]
  exact ⟨a, i, j, [], [], rfl, rfl, hij⟩

end Node

namespace Visitor

/-! ### Steps and trails -/

/-- One step of a walk: the node it is about, what the visitor is told, and its answer. -/
structure Step where
  address : Address
  visit : Visit
  answer : Bool

/-- What the visitor is told in some steps. -/
def visits (steps : List Step) : List Visit := steps.map Step.visit

/-- The node at an address was visited, and the answer was to go inside. -/
def Opened (steps : List Step) (a : Address) : Prop := ∃ n, ⟨a, .enter n, true⟩ ∈ steps

/-- A step as a bracket: it opens where the answer is to go inside, and closes on leaving. -/
def Step.bracket? (s : Step) : Option DyckStep :=
  match s.visit, s.answer with
  | .leave, _ => some .D
  | .enter _, true => some .U
  | .enter _, false => none

/-- **Trails**: the steps of walking over some nodes one after another, after the visits `seen`. -/
inductive Trail (f : Visitor) : List Visit → List (Address × Node) → List Step → Prop
  | done {seen : List Visit} : Trail f seen [] []
  | skip {seen : List Visit} {a : Address} {n : Node} {rest : List (Address × Node)}
      {steps : List Step} (hn : f seen.toArray (.enter n) = false)
      (hrest : Trail f (seen ++ [.enter n]) rest steps) :
      Trail f seen ((a, n) :: rest) (⟨a, .enter n, false⟩ :: steps)
  | inside {seen : List Visit} {a : Address} {n : Node} {rest : List (Address × Node)}
      {inner steps : List Step} {answer : Bool} (hn : f seen.toArray (.enter n) = true)
      (hinner : Trail f (seen ++ [.enter n]) (n.childrenAt a) inner)
      (hleave : f (seen ++ .enter n :: visits inner).toArray .leave = answer)
      (hrest : Trail f (seen ++ .enter n :: visits inner ++ [.leave]) rest steps) :
      Trail f seen ((a, n) :: rest)
        (⟨a, .enter n, true⟩ :: (inner ++ ⟨a, .leave, answer⟩ :: steps))

theorem visits_append (s t : List Step) : visits (s ++ t) = visits s ++ visits t :=
  List.map_append ..

theorem visits_cons (s : Step) (t : List Step) : visits (s :: t) = s.visit :: visits t := rfl

namespace Trail

variable {f : Visitor} {seen : List Visit} {todo todo' : List (Address × Node)}
  {steps steps' : List Step}

theorem append (h : f.Trail seen todo steps)
    (h' : f.Trail (seen ++ visits steps) todo' steps') :
    f.Trail seen (todo ++ todo') (steps ++ steps') := by
  induction h with
  | done => simpa [visits] using h'
  | skip hn _ ih =>
    refine .skip hn (ih ?_)
    rwa [List.append_assoc]
  | inside hn hinner hleave _ _ ih =>
    rw [List.cons_append, List.cons_append, List.append_assoc, List.cons_append]
    refine .inside hn hinner hleave (ih ?_)
    rw [visits_cons, visits_append, visits_cons] at h'
    simpa using h'

/-- Each answer is the visitor's, knowing the visits before. -/
theorem answer_eq (h : f.Trail seen todo steps) {front back : List Step} {s : Step}
    (hs : steps = front ++ s :: back) :
    s.answer = f (seen ++ visits front).toArray s.visit := by
  induction h generalizing front back with
  | done => simp at hs
  | skip hn _ ih =>
    rcases List.cons_eq_append_iff.mp hs with ⟨rfl, heq⟩ | ⟨front, rfl, heq⟩
    · cases heq
      simpa [visits] using hn.symm
    · simpa [visits] using ih heq
  | inside hn _ hleave _ ihinner ihrest =>
    rcases List.cons_eq_append_iff.mp hs with ⟨rfl, heq⟩ | ⟨front, rfl, heq⟩
    · cases heq
      simpa [visits] using hn.symm
    -- the step is inside the node, or leaves it, or comes later
    rcases List.append_eq_append_iff.mp heq with ⟨c, rfl, hrest⟩ | ⟨c, hinner, hback⟩
    · rcases List.cons_eq_append_iff.mp hrest with ⟨rfl, hlast⟩ | ⟨c, rfl, hlater⟩
      · cases hlast
        simpa [visits] using hleave.symm
      · simpa [visits] using ihrest hlater
    · rcases List.cons_eq_append_iff.mp hback with ⟨rfl, hlast⟩ | ⟨c, rfl, -⟩
      · cases hlast
        rw [List.append_nil] at hinner
        simpa [visits, hinner] using hleave.symm
      · simpa [visits] using ihinner hinner

/-- Each step is about a node at or below one of those that are walked over. -/
theorem exists_isPrefix (h : f.Trail seen todo steps) {s : Step} (hs : s ∈ steps) :
    ∃ x ∈ todo, x.1 <+: s.address := by
  induction h with
  | done => simp at hs
  | skip _ _ ih =>
    rcases List.mem_cons.mp hs with rfl | hs
    · exact ⟨_, List.mem_cons_self, List.prefix_rfl⟩
    · obtain ⟨x, hx, hpre⟩ := ih hs
      exact ⟨x, List.mem_cons_of_mem _ hx, hpre⟩
  | inside _ _ _ _ ihinner ihrest =>
    simp only [List.mem_cons, List.mem_append] at hs
    rcases hs with rfl | hs | rfl | hs
    · exact ⟨_, List.mem_cons_self, List.prefix_rfl⟩
    · obtain ⟨⟨b, m⟩, hx, hpre⟩ := ihinner hs
      obtain ⟨i, rfl, -⟩ := Node.mem_childrenAt_iff.mp hx
      exact ⟨_, List.mem_cons_self, (List.prefix_append ..).trans hpre⟩
    · exact ⟨_, List.mem_cons_self, List.prefix_rfl⟩
    · obtain ⟨x, hx, hpre⟩ := ihrest hs
      exact ⟨x, List.mem_cons_of_mem _ hx, hpre⟩

/-- The steps inside a node are about nodes below it. -/
theorem above_of_mem {a : Address} {n : Node} (h : f.Trail seen (n.childrenAt a) steps) {s : Step}
    (hs : s ∈ steps) : a.Above s.address := by
  obtain ⟨⟨b, m⟩, hx, t, ht⟩ := h.exists_isPrefix hs
  obtain ⟨i, rfl, -⟩ := Node.mem_childrenAt_iff.mp hx
  rw [← ht, List.append_assoc]
  exact Address.above_append a i t

/-- The steps for nodes to the right of a node are about nodes to the right of it. -/
theorem leftOf_of_mem {a : Address} (h : f.Trail seen todo steps)
    (ha : ∀ x ∈ todo, a.LeftOf x.1) {s : Step} (hs : s ∈ steps) : a.LeftOf s.address := by
  obtain ⟨x, hx, hpre⟩ := h.exists_isPrefix hs
  exact (ha x hx).below List.prefix_rfl hpre

/-- **What is entered**: the nodes walked over, and the children of each node that is opened. -/
theorem enter_iff (h : f.Trail seen todo steps) {b : Address} {m : Node} :
    (∃ answer, ⟨b, .enter m, answer⟩ ∈ steps) ↔
      (b, m) ∈ todo ∨ ∃ a n, ⟨a, .enter n, true⟩ ∈ steps ∧ (b, m) ∈ n.childrenAt a := by
  induction h with
  | done => simp
  | skip _ _ ih =>
    simp only [List.mem_cons, exists_or, Step.mk.injEq, Visit.enter.injEq, Prod.mk.injEq,
      reduceCtorEq, and_false, false_or, ih, exists_and_left, exists_eq, and_true, or_assoc]
  | @inside seen a n rest inner steps answer _ _ _ _ ihinner ihrest =>
    have hopened : (∃ c k, (⟨c, .enter k, true⟩ : Step) ∈
          ⟨a, .enter n, true⟩ :: (inner ++ ⟨a, .leave, answer⟩ :: steps) ∧
          (b, m) ∈ k.childrenAt c) ↔
        (b, m) ∈ n.childrenAt a ∨
          (∃ c k, ⟨c, .enter k, true⟩ ∈ inner ∧ (b, m) ∈ k.childrenAt c) ∨
          ∃ c k, ⟨c, .enter k, true⟩ ∈ steps ∧ (b, m) ∈ k.childrenAt c := by
      simp [or_and_right, exists_or]
    rw [hopened]
    simp only [List.mem_cons, List.mem_append, exists_or, Step.mk.injEq, Visit.enter.injEq,
      Prod.mk.injEq, reduceCtorEq, and_false, false_and, false_or, ihinner, ihrest,
      exists_and_left, exists_eq, and_true]
    -- the children of the node itself are what is walked over inside it
    exact Iff.of_eq (by ac_rfl)

/-- A node is left only where it was opened. -/
theorem opened_of_leave (h : f.Trail seen todo steps) {a : Address} {answer : Bool}
    (ha : ⟨a, .leave, answer⟩ ∈ steps) : Opened steps a := by
  induction h with
  | done => simp at ha
  | skip _ _ ih =>
    rcases List.mem_cons.mp ha with ha | ha
    · cases ha
    · obtain ⟨n, hn⟩ := ih ha
      exact ⟨n, List.mem_cons_of_mem _ hn⟩
  | @inside seen b n rest inner steps _ _ _ _ _ ihinner ihrest =>
    simp only [List.mem_cons, List.mem_append] at ha
    rcases ha with ha | ha | ha | ha
    · cases ha
    · obtain ⟨m, hm⟩ := ihinner ha
      exact ⟨m, by simp [hm]⟩
    · cases ha
      exact ⟨n, by simp⟩
    · obtain ⟨m, hm⟩ := ihrest ha
      exact ⟨m, by simp [hm]⟩

/-- **Nodes are entered in source order**, each once. -/
theorem order (h : f.Trail seen todo steps) (htodo : todo.Pairwise fun x y => x.1.LeftOf y.1) :
    (steps.filter (·.visit ≠ .leave)).Pairwise
      fun s t => List.Lex (· < ·) s.address t.address := by
  induction h with
  | done => exact .nil
  | @skip seen a n rest steps _ hrest ih =>
    obtain ⟨hleft, htodo⟩ := List.pairwise_cons.mp htodo
    rw [List.filter_cons_of_pos (by simp)]
    refine .cons (fun s hs => ?_) (ih htodo)
    exact (hrest.leftOf_of_mem hleft (List.mem_of_mem_filter hs)).lex
  | @inside seen a n rest inner steps _ _ hinner _ hrest ihinner ihrest =>
    obtain ⟨hleft, htodo⟩ := List.pairwise_cons.mp htodo
    rw [List.filter_cons_of_pos (by simp), List.filter_append, List.filter_cons_of_neg (by simp)]
    refine .cons (fun s hs => ?_) ?_
    · rcases List.mem_append.mp hs with hs | hs
      · exact (hinner.above_of_mem (List.mem_of_mem_filter hs)).lex
      · exact (hrest.leftOf_of_mem hleft (List.mem_of_mem_filter hs)).lex
    · refine List.pairwise_append.mpr
        ⟨ihinner (Node.pairwise_childrenAt a n), ihrest htodo, fun s hs t ht => ?_⟩
      have hs := hinner.above_of_mem (List.mem_of_mem_filter hs)
      have ht := hrest.leftOf_of_mem hleft (List.mem_of_mem_filter ht)
      exact (ht.below hs.1 List.prefix_rfl).lex

/-- **Entering and leaving**: between the two are the steps about nodes below, and nowhere else is
there a step about the node or one below it. -/
theorem exists_leave (h : f.Trail seen todo steps) (htodo : todo.Pairwise fun x y => x.1.LeftOf y.1)
    {a : Address} {n : Node} (ha : ⟨a, .enter n, true⟩ ∈ steps) :
    ∃ front inner back answer,
      steps = front ++ ⟨a, .enter n, true⟩ :: (inner ++ ⟨a, .leave, answer⟩ :: back) ∧
        (∀ s ∈ inner, a.Above s.address) ∧ ∀ s ∈ front ++ back, ¬ a <+: s.address := by
  induction h with
  | done => simp at ha
  | @skip seen b m rest steps _ hrest ih =>
    obtain ⟨hleft, htodo⟩ := List.pairwise_cons.mp htodo
    rcases List.mem_cons.mp ha with ha | ha
    · cases ha
    · obtain ⟨front, inner, back, answer, rfl, hinner, hout⟩ := ih htodo ha
      refine ⟨⟨b, .enter m, false⟩ :: front, inner, back, answer, rfl, hinner, ?_⟩
      rw [List.cons_append]
      exact List.forall_mem_cons.mpr ⟨(hrest.leftOf_of_mem hleft ha).not_isPrefix.2, hout⟩
  | @inside seen b m rest inner steps answer _ hinner _ hrest ihinner ihrest =>
    obtain ⟨hleft, htodo⟩ := List.pairwise_cons.mp htodo
    simp only [List.mem_cons, List.mem_append] at ha
    rcases ha with ha | ha | ha | ha
    · cases ha
      refine ⟨[], inner, steps, _, rfl, fun s hs => hinner.above_of_mem hs, fun s hs => ?_⟩
      exact (hrest.leftOf_of_mem hleft hs).not_isPrefix.1
    · -- the node is below the one at `b`, and what is to the right of that one is to its right
      have habove := hinner.above_of_mem ha
      obtain ⟨front, inner', back, answer', rfl, hinner', hout⟩ :=
        ihinner (Node.pairwise_childrenAt b m) ha
      refine ⟨⟨b, .enter m, true⟩ :: front, inner', back ++ ⟨b, .leave, answer⟩ :: steps, answer',
        by simp, hinner', fun s hs => ?_⟩
      simp only [List.mem_append, List.mem_cons] at hs hout
      rcases hs with (rfl | hs) | hs | rfl | hs
      · exact habove.not_isPrefix
      · exact hout s (.inl hs)
      · exact hout s (.inr hs)
      · exact habove.not_isPrefix
      · exact ((hrest.leftOf_of_mem hleft hs).below habove.1 List.prefix_rfl).not_isPrefix.1
    · cases ha
    · -- the node is to the right of the one at `b`
      have hright := hrest.leftOf_of_mem hleft ha
      obtain ⟨front, inner', back, answer', rfl, hinner', hout⟩ := ihrest htodo ha
      refine ⟨⟨b, .enter m, true⟩ :: (inner ++ ⟨b, .leave, answer⟩ :: front), inner', back, answer',
        by simp, hinner', fun s hs => ?_⟩
      simp only [List.mem_append, List.mem_cons] at hs hout
      rcases hs with (rfl | hs | rfl | hs) | hs
      · exact hright.not_isPrefix.2
      · exact (hright.below (hinner.above_of_mem hs).1 List.prefix_rfl).not_isPrefix.2
      · exact hright.not_isPrefix.2
      · exact hout s (.inl hs)
      · exact hout s (.inr hs)

/-- **A trail is a bracket word**: nodes are left in reverse to how they are opened. -/
theorem exists_dyckWord (h : f.Trail seen todo steps) :
    ∃ w : DyckWord, w.toList = steps.filterMap Step.bracket? := by
  induction h with
  | done => exact ⟨0, rfl⟩
  | skip _ _ ih => exact ih
  | inside _ _ _ _ ihinner ihrest =>
    obtain ⟨w, hw⟩ := ihinner
    obtain ⟨v, hv⟩ := ihrest
    refine ⟨w.nest + v, ?_⟩
    have hword : (w.nest + v).toList = [.U] ++ w.toList ++ [.D] ++ v.toList := rfl
    rw [hword, hw, hv]
    simp [Step.bracket?]

end Trail

end Visitor

end MacroCalls
