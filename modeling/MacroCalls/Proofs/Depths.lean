import MacroCalls.Proofs.Decoration
import MacroCalls.Proofs.Trails

/-!
# The depth of a printer is balanced

A printer goes one level deeper inside a program and inside a call, and comes back behind it. Coming
back stops at the outermost level, so a level too many would not show there; but what is written
below a node leaves the depth as it was (`Printer.node_eq`), and coming back undoes going deeper.
So nothing is carried over from one program to the next, and a line is indented by what kind of
node it is for.

Main statement: `printer_depth_balanced`.
-/

namespace MacroCalls

open Text

/-! ### Nodes -/

/-- There is no gap among the statements of the node, and it is none itself. -/
def Node.Gapless : Node → Prop
  | .program t => none ∉ t.statementList
  | .call c => c ≠ none
  | _ => True

/-- The nodes of a program that have a line of their own, in source order: all but the calls. -/
def Program.lineNodes (t : Program) : List Node :=
  .program t :: t.calls.flatMap fun c => (Node.call (some c)).children

namespace Printer

/-- Write a node. What is not part of a tree is passed over. -/
def node (p : Printer) : Node → Except Printer Printer
  | .program t => p.program t
  | .call c => p.statement c
  | .name n => .ok (p.name n)
  | .literal l => .ok (p.literal l)
  | .detached .. | .missing => .ok p

/-- The lines of a node. -/
def nodeRows (on : Bool) (depth : Nat) : Node → List Text
  | .program t => programRows on depth t.calls
  | .call (some c) => callRows on depth c
  | .name n => [row on depth .cyan n.name]
  | .literal l => [row on depth .green (cut l.val).quoted]
  | _ => []

/-- **A node is written line by line**, and all else stays as it was. -/
theorem node_eq (p : Printer) {n : Node} (h : n.Gapless) :
    p.node n = .ok (p.write (nodeRows p.color p.depth n)) := by
  cases n with
  | program t => exact p.program_eq h
  | call c =>
    obtain ⟨c, rfl⟩ := Option.ne_none_iff_exists'.mp h
    exact congrArg Except.ok (p.call_eq c)
  | name n => exact congrArg Except.ok (p.line_eq ..)
  | literal l => exact congrArg Except.ok (p.line_eq ..)
  | detached type span => exact congrArg Except.ok p.write_nil.symm
  | missing => exact congrArg Except.ok p.write_nil.symm

/-! ### Programs one after another -/

/-- What is written for some programs comes behind what has been written before. -/
theorem programs_eq (p : Printer) {ts : List Program} (h : ∀ t ∈ ts, none ∉ t.statementList) :
    p.programs ts =
      .ok (p.write (ts.flatMap fun t => programRows p.color p.depth t.calls)) := by
  induction ts generalizing p with
  | nil => exact congrArg Except.ok p.write_nil.symm
  | cons t ts ih =>
    obtain ⟨ht, hts⟩ := List.forall_mem_cons.mp h
    have hrest := ih (p.write (programRows p.color p.depth t.calls)) hts
    rw [write_write, color_write, depth_write] at hrest
    rw [programs, List.foldlM_cons, p.program_eq ht, List.flatMap_cons]
    exact hrest

/-! ### One line for each node -/

/-- **The line of a node**: what is shown of it, indented by its kind. -/
inductive LineOf (on : Bool) : Node → Text → Prop
  | program (t : Program) : LineOf on (.program t) ((ascii "fn main()").painted on .magenta)
  | name (n : Name) : LineOf on (.name n) (spaces 2 ++ n.name.painted on .cyan)
  | literal (l : Literal) :
      LineOf on (.literal l) (spaces 4 ++ (cut l.val).quoted.painted on .green)

variable {on : Bool}

theorem forall₂_lineOf_callRows (c : Call) :
    List.Forall₂ (LineOf on) (Node.call (some c)).children (callRows on 1 c) := by
  refine .cons (.name c.name) ?_
  rw [List.forall₂_map_left_iff, List.forall₂_map_right_iff, List.forall₂_same]
  exact fun a _ => .literal a

theorem forall₂_lineOf_programRows (t : Program) :
    List.Forall₂ (LineOf on) t.lineNodes (programRows on 0 t.calls) := by
  refine .cons (.program t) ?_
  induction t.calls with
  | nil => exact .nil
  | cons c cs ih =>
    rw [List.flatMap_cons, List.flatMap_cons]
    exact List.rel_append (forall₂_lineOf_callRows c) ih

end Printer

theorem Program.length_lineNodes (t : Program) :
    t.lineNodes.length = 1 + t.calls.foldr (fun c n => 1 + c.argList.length + n) 0 := by
  rw [lineNodes, List.length_cons, Nat.add_comm]
  refine congrArg (1 + ·) ?_
  induction t.calls with
  | nil => rfl
  | cons c cs ih =>
    rw [List.flatMap_cons, List.length_append, ih, List.foldr_cons, Node.children,
      List.length_cons, List.length_map]
    omega

theorem Text.count_newline_ofLines {ls : List Text} (h : ∀ l ∈ ls, newline ∉ l) :
    (ofLines ls).count newline = ls.length := by
  induction ls with
  | nil => rfl
  | cons l ls ih =>
    obtain ⟨hl, hls⟩ := List.forall_mem_cons.mp h
    rw [ofLines_cons, List.count_append, List.count_append, List.count_eq_zero.mpr hl, ih hls,
      List.count_singleton_self, List.length_cons]
    omega

/-- **The depth of a printer is balanced.** A node without gaps is written, and the depth is then
what it was. So what one printer writes for some programs is what a new one for each of them would
write. In the outline of a program whose names are on one line, there is one line for each node but
the calls, indented by its kind. -/
theorem printer_depth_balanced :
    (∀ (p : Printer) (n : Node), n.Gapless → ∃ q, p.node n = .ok q ∧ q.depth = p.depth) ∧
      (∀ (color : Bool) (ts : List Program), (∀ t ∈ ts, none ∉ t.statementList) →
        ∃ q outlines, ({ color } : Printer).programs ts = .ok q ∧
          List.Forall₂ (fun t s => t.outline color = .ok s) ts outlines ∧
          q.output = outlines.flatten) ∧
      ∀ (color : Bool) (t : Program), none ∉ t.statementList →
        (∀ c ∈ t.calls, newline ∉ c.name.name) →
        ∃ ls, t.outline color = .ok (ofLines ls) ∧ (∀ l ∈ ls, newline ∉ l) ∧
          List.Forall₂ (Printer.LineOf color) t.lineNodes ls ∧
          (ofLines ls).count newline = ls.length ∧
          ls.length = 1 + t.calls.foldr (fun c n => 1 + c.argList.length + n) 0 := by
  refine ⟨fun p n hn => ⟨_, p.node_eq hn, p.depth_write _⟩, fun color ts hts => ?_,
    fun color t ht hnames => ?_⟩
  · refine ⟨_, ts.map fun t => ofLines (Printer.programRows color 0 t.calls),
      Printer.programs_eq _ hts, ?_, ?_⟩
    · rw [List.forall₂_map_right_iff, List.forall₂_same]
      exact fun t ht => t.outline_eq (hts t ht) color
    · exact List.flatMap_assoc
  · have hlines : List.Forall₂ (Printer.LineOf color) t.lineNodes _ :=
      Printer.forall₂_lineOf_programRows t
    have hnewline : ∀ l ∈ Printer.programRows color 0 t.calls, newline ∉ l :=
      Printer.newline_not_mem_programRows_of_names hnames
    refine ⟨_, t.outline_eq ht color, hnewline, hlines, count_newline_ofLines hnewline, ?_⟩
    rw [← hlines.length_eq, t.length_lineNodes]

/-- A call with a line feed for an argument and with one that is cut inside a character, then a call
without arguments, in a program that is written at some depth, behind an empty one, and alone. -/
theorem printer_depth_balanced_cut :
    let long : Text := List.replicate 79 0x61 ++ [0xC3, 0xA9, newline]
    let call : Call :=
      ⟨⟨⟨0, 4⟩, ascii "log!"⟩, some [⟨⟨5, 6⟩, [newline]⟩, ⟨⟨8, 91⟩, long⟩], ⟨0, 92⟩⟩
    let t : Program := ⟨some [some call, some { call with args := none }], ⟨0, 93⟩⟩
    let empty : Program := ⟨none, ⟨0, 0⟩⟩
    (∃ q, ({ color := true, depth := 3 } : Printer).node (.program t) = .ok q ∧ q.depth = 3) ∧
      (∃ q s s', ({ color := true } : Printer).programs [empty, t] = .ok q ∧
        empty.outline true = .ok s ∧ t.outline true = .ok s' ∧ q.output = s ++ s') ∧
      ∃ ls, t.outline true = .ok (ofLines ls) ∧ (ofLines ls).count newline = 5 := by
  intro long call t empty
  have ht : none ∉ t.statementList := by decide
  have hempty : none ∉ empty.statementList := by decide
  have hnames : ∀ c ∈ t.calls, newline ∉ c.name.name :=
    List.forall_mem_cons.mpr ⟨by decide, List.forall_mem_singleton.mpr (by decide)⟩
  obtain ⟨hnode, hprograms, houtline⟩ := printer_depth_balanced
  refine ⟨hnode _ _ ht, ?_, ?_⟩
  · obtain ⟨q, _, hq, _ | ⟨hs, _ | ⟨hs', _ | _⟩⟩, houtput⟩ := hprograms true [empty, t]
      (List.forall_mem_cons.mpr ⟨hempty, List.forall_mem_singleton.mpr ht⟩)
    exact ⟨q, _, _, hq, hs, hs', by simpa using houtput⟩
  · obtain ⟨ls, hls, -, -, hcount, hlength⟩ := houtline true t ht hnames
    exact ⟨ls, hls, hcount.trans hlength⟩

end MacroCalls
