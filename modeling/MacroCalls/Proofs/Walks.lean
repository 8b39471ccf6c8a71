import MacroCalls.Proofs.Trails

/-!
# Walks over programs

A walk over a program without gaps ends without a fault, whatever its visitor answers, and follows
a trail: visiting a node, going on from one node to the next and going through a list of nodes each
keep to it (`Visitor.Follows`). Hence the nodes entered are, in source order, those that no answer
has cut off, and entering and leaving are well bracketed.

Main statement: `walk_enters_unpruned`.
-/

namespace MacroCalls

namespace Visitor

/-! ### Trails from the root on -/

/-- **Walks as they should be**: the steps are those of a whole walk that starts at the root. -/
structure Traversal (f : Visitor) (root : Node) (steps : List Step) : Prop where
  /-- Each answer is the visitor's, knowing the visits before. -/
  answer_eq : ∀ front s back, steps = front ++ s :: back →
    s.answer = f (visits front).toArray s.visit
  /-- Nodes are entered in source order, each once. -/
  order : (steps.filter (·.visit ≠ .leave)).Pairwise
    fun s t => List.Lex (· < ·) s.address t.address
  /-- Entered are just the nodes all of whose ancestors were opened. -/
  enter_iff : ∀ a n, (∃ answer, ⟨a, .enter n, answer⟩ ∈ steps) ↔
    root.descendant? a = some n ∧ ∀ b : Address, b.Above a → Opened steps b
  /-- A node that is opened is left once, right behind the steps about nodes below it. -/
  exists_leave : ∀ a n, ⟨a, .enter n, true⟩ ∈ steps → ∃ front inner back answer,
    steps = front ++ ⟨a, .enter n, true⟩ :: (inner ++ ⟨a, .leave, answer⟩ :: back) ∧
      (∀ s ∈ inner, a.Above s.address) ∧ ∀ s ∈ front ++ back, ¬ a <+: s.address
  /-- A node that is not opened is not left. -/
  not_leave : ∀ a n, ⟨a, .enter n, false⟩ ∈ steps → ∀ answer, ⟨a, .leave, answer⟩ ∉ steps
  /-- Every leaving belongs to a node that was opened. -/
  opened_of_leave : ∀ a answer, ⟨a, .leave, answer⟩ ∈ steps → Opened steps a
  /-- Opening and leaving make a bracket word. -/
  balanced : ∃ w : DyckWord, w.toList = steps.filterMap Step.bracket?

section Root

variable {f : Visitor} {root : Node} {steps : List Step}

/-- A node is entered just if all of its ancestors were opened. -/
theorem Trail.enter_iff_descendant? (h : f.Trail [] [([], root)] steps) (a : Address) (n : Node) :
    (∃ answer, ⟨a, .enter n, answer⟩ ∈ steps) ↔
      root.descendant? a = some n ∧ ∀ b : Address, b.Above a → Opened steps b := by
  -- the address is taken apart at its end, where it goes from the parent to the node
  induction a using List.reverseRecOn generalizing n with
  | nil =>
    have hchild : ∀ b m, ([], n) ∉ Node.childrenAt b m := by
      intro b m hmem
      obtain ⟨i, heq, -⟩ := Node.mem_childrenAt_iff.mp hmem
      simp at heq
    have habove : ∀ b : Address, ¬ b.Above [] := fun b hb => hb.2 (List.prefix_nil.mp hb.1)
    rw [h.enter_iff]
    simp [hchild, habove, Node.descendant?, eq_comm]
  | append_singleton a i ih =>
    rw [h.enter_iff, or_iff_right (by simp), Node.descendant?_append]
    constructor
    · rintro ⟨c, m, hopened, hmem⟩
      obtain ⟨j, heq, hm⟩ := Node.mem_childrenAt_iff.mp hmem
      obtain ⟨rfl, rfl⟩ := List.append_singleton_inj.mp heq
      obtain ⟨hdescendant, habove⟩ := (ih m).mp ⟨true, hopened⟩
      refine ⟨by simp [hdescendant, Node.descendant?, hm], fun b hb => ?_⟩
      have hba : b <+: a := (List.prefix_concat_iff.mp hb.1).resolve_left hb.2
      by_cases heq : b = a
      · exact ⟨m, heq ▸ hopened⟩
      · exact habove b ⟨hba, heq⟩
    · rintro ⟨hdescendant, habove⟩
      obtain ⟨m, hopened⟩ := habove a (Address.above_append a i [])
      obtain ⟨hm, -⟩ := (ih m).mp ⟨true, hopened⟩
      rw [hm] at hdescendant
      exact ⟨a, m, hopened,
        Node.mem_childrenAt_iff.mpr ⟨i, rfl, by simpa [Node.descendant?] using hdescendant⟩⟩

/-- The visitor is asked about a node once, so the answer is one or the other. -/
theorem Trail.not_leave (h : f.Trail [] [([], root)] steps) {a : Address} {n : Node}
    (ha : ⟨a, .enter n, false⟩ ∈ steps) (answer : Bool) : ⟨a, .leave, answer⟩ ∉ steps := by
  intro hleave
  obtain ⟨m, hm⟩ := h.opened_of_leave hleave
  have hnodup : ((steps.filter (·.visit ≠ .leave)).map Step.address).Nodup := by
    refine List.pairwise_map.mpr ((h.order (List.pairwise_singleton ..)).imp fun hlex heq => ?_)
    rw [heq] at hlex
    exact List.lex_irrefl Nat.lt_irrefl _ hlex
  have heq := List.inj_on_of_nodup_map hnodup (List.mem_filter.mpr ⟨ha, by simp⟩)
    (List.mem_filter.mpr ⟨hm, by simp⟩) rfl
  cases heq

theorem Trail.traversal (h : f.Trail [] [([], root)] steps) : f.Traversal root steps where
  answer_eq _ _ _ hs := h.answer_eq hs
  order := h.order (List.pairwise_singleton ..)
  enter_iff := h.enter_iff_descendant?
  exists_leave _ _ := h.exists_leave (List.pairwise_singleton ..)
  not_leave _ _ := h.not_leave
  opened_of_leave _ _ := h.opened_of_leave
  balanced := h.exists_dyckWord

end Root

/-! ### Walks follow trails -/

/-- A run goes on from any visits along a trail. -/
def Follows (f : Visitor) (run : Array Visit → Walked) (todo : List (Address × Node)) : Prop :=
  ∀ seen : List Visit, ∃ steps, f.Trail seen todo steps ∧
    run seen.toArray = .ok (seen ++ visits steps).toArray

section Follows

variable {f : Visitor} {run run' : Array Visit → Walked} {todo todo' : List (Address × Node)}

theorem follows_ok : f.Follows .ok [] := fun seen => ⟨[], .done, by simp [visits]⟩

theorem Follows.bind (h : f.Follows run todo) (h' : f.Follows run' todo') :
    f.Follows (fun seen => (run seen).bind run') (todo ++ todo') := by
  intro seen
  obtain ⟨steps, htrail, hrun⟩ := h seen
  obtain ⟨steps', htrail', hrun'⟩ := h' (seen ++ visits steps)
  refine ⟨steps ++ steps', htrail.append htrail', ?_⟩
  simp only [hrun, Except.bind, hrun', visits_append, List.append_assoc]

theorem Follows.visit {n : Node} {a : Address} (h : f.Follows run (n.childrenAt a)) :
    f.Follows (f.visit n run) [(a, n)] := by
  intro seen
  cases hn : f seen.toArray (.enter n) with
  | false =>
    refine ⟨_, .skip hn .done, ?_⟩
    simp [Visitor.visit, hn, visits]
  | true =>
    obtain ⟨inner, htrail, hrun⟩ := h (seen ++ [.enter n])
    refine ⟨_, .inside hn htrail rfl .done, ?_⟩
    simp [Visitor.visit, hn, hrun, visits, Except.map]

theorem follows_foldlM {α : Type} {g : Array Visit → α → Walked} {node : α → Node} {l : List α}
    (h : ∀ x ∈ l, ∀ a, f.Follows (g · x) [(a, node x)]) (place : Nat → Address) :
    f.Follows (fun seen => l.foldlM g seen)
      ((l.map node).mapIdx fun i n => (place i, n)) := by
  induction l generalizing place with
  | nil => exact follows_ok
  | cons x l ih =>
    obtain ⟨hx, hl⟩ := List.forall_mem_cons.mp h
    have hrest := ih hl (fun i => place (i + 1))
    simp only [List.foldlM_cons, List.map_cons, List.mapIdx_cons]
    exact (hx (place 0)).bind hrest

theorem follows_walkName (n : Name) (a : Address) : f.Follows (f.walkName · n) [(a, .name n)] :=
  follows_ok.visit

theorem follows_walkLiteral (l : Literal) (a : Address) :
    f.Follows (f.walkLiteral · l) [(a, .literal l)] :=
  follows_ok.visit

theorem follows_walkCall (c : Call) (a : Address) :
    f.Follows (f.walkCall · c) [(a, .call (some c))] := by
  refine Follows.visit ?_
  rw [Node.childrenAt, Node.children, List.mapIdx_cons]
  exact (follows_walkName c.name _).bind
    (follows_foldlM (fun l _ => follows_walkLiteral l) fun i => a ++ [i + 1])

theorem follows_walkProgram {p : Program} (hp : none ∉ p.statementList) (a : Address) :
    f.Follows (f.walkProgram · p) [(a, .program p)] := by
  refine Follows.visit (follows_foldlM (fun s hs => ?_) fun i => a ++ [i])
  cases s with
  | none => exact absurd hs hp
  | some c => exact follows_walkCall c

end Follows

/-- Only the answers on entering a node have a say. -/
theorem walk_congr {f g : Visitor} (h : ∀ seen n, f seen (.enter n) = g seen (.enter n))
    (n : Node) : f.walk n = g.walk n := by
  have hvisit : f.visit = g.visit := by
    funext n inside seen
    simp only [visit, h]
  have hname : f.walkName = g.walkName := by
    funext seen n
    simp only [walkName, hvisit]
  have hliteral : f.walkLiteral = g.walkLiteral := by
    funext seen l
    simp only [walkLiteral, hvisit]
  have hcall : f.walkCall = g.walkCall := by
    funext seen c
    simp only [walkCall, hvisit, hname, hliteral]
  have hstatement : f.walkStatement = g.walkStatement := by
    funext seen s
    cases s with
    | none => simp only [walkStatement, hvisit]
    | some c => simp only [walkStatement, hcall]
  cases n <;> simp only [walk, walkProgram, hvisit, hname, hliteral, hstatement]

end Visitor

/-- **Walks enter the unpruned nodes**: whatever the visitor answers, a walk over a program without
gaps enters, in source order and each once, exactly the nodes whose ancestors were all opened, and
leaves each opened node once, when it is through with all below it. Answers on leaving do not
matter. -/
theorem walk_enters_unpruned (f : Visitor) (p : Program) (hp : none ∉ p.statementList) :
    (∃ steps, f.walk (.program p) = .ok (Visitor.visits steps).toArray ∧
        f.Traversal (.program p) steps) ∧
      ∀ g : Visitor, (∀ seen n, g seen (.enter n) = f seen (.enter n)) →
        g.walk (.program p) = f.walk (.program p) := by
  refine ⟨?_, fun g hg => Visitor.walk_congr hg _⟩
  obtain ⟨steps, htrail, hrun⟩ := Visitor.follows_walkProgram hp [] []
  exact ⟨steps, hrun, htrail.traversal⟩

/-- Two calls, and a visitor that goes into calls only as long as it has seen little. -/
theorem walk_enters_unpruned_of_two :
    let f : Visitor := fun seen v =>
      match v with
      | .enter (.call _) => seen.size < 5
      | _ => true
    let first : Call := ⟨⟨⟨0, 4⟩, ascii "log!"⟩, some [⟨⟨5, 8⟩, ascii "a"⟩], ⟨0, 9⟩⟩
    let second : Call := ⟨⟨⟨9, 13⟩, ascii "log!"⟩, some [⟨⟨14, 17⟩, ascii "a"⟩], ⟨9, 18⟩⟩
    let p : Program := ⟨some [some first, some second], ⟨0, 18⟩⟩
    none ∉ p.statementList ∧
      f.walk (.program p) = .ok #[.enter (.program p), .enter (.call (some first)),
        .enter (.name first.name), .leave, .enter (.literal ⟨⟨5, 8⟩, ascii "a"⟩), .leave, .leave,
        .enter (.call (some second)), .leave] ∧
      ∃ steps, f.walk (.program p) = .ok (Visitor.visits steps).toArray ∧
        f.Traversal (.program p) steps := by
  intro f first second p
  have hp : none ∉ p.statementList := by simp [p, Program.statementList]
  exact ⟨hp, by decide, (walk_enters_unpruned f p hp).1⟩

end MacroCalls
