import MacroCalls.Proofs.Trails
import MacroCalls.Report.Write

/-!
# Reports see through wrapping

A failure is a tree: contexts and joins hold further failures. Its parts have addresses as the nodes
of a program have, and depth-first order is the lexicographic order of addresses. A search over the
listed parts of a failure finds the part of the least address (`Failure.seeks_parts`), by induction
over the tree: the failure itself comes before all inside it, and all inside an earlier failure
before a later one.

A report makes three such searches and takes the first one that finds something, so that the kind of
a part has precedence over its place (`Failure.exists_chosen`).

Main statement: `reports_see_through_wrapping`.
-/

namespace MacroCalls

open Text

namespace Failure

/-! ### Parts and their addresses -/

/-- The failures right inside a failure. -/
def inner : Failure → List Failure
  | within _ e => [e]
  | joined all => all
  | _ => []

/-- The failure at an address inside a failure. -/
def part? : Failure → Address → Option Failure
  | e, [] => some e
  | e, i :: a => e.inner[i]?.bind (·.part? a)

/-- The failure at an address inside one of several failures. -/
def partAmong? (es : List Failure) : Address → Option Failure
  | [] => none
  | i :: a => es[i]?.bind (·.part? a)

theorem sizeOf_lt_of_mem_inner {e c : Failure} (h : c ∈ e.inner) : sizeOf c < sizeOf e := by
  cases e with
  | within message e =>
    obtain rfl := List.mem_singleton.mp h
    rw [within.sizeOf_spec]
    omega
  | joined all =>
    have hlt : sizeOf c < sizeOf all := List.sizeOf_lt_of_mem h
    rw [joined.sizeOf_spec]
    omega
  | _ => cases h

/-- **Induction over a failure**: from what is right inside it to the failure. -/
theorem inner_induction {motive : Failure → Prop}
    (step : ∀ e, (∀ c ∈ e.inner, motive c) → motive e) (e : Failure) : motive e :=
  step e fun c _ => inner_induction step c
termination_by sizeOf e
decreasing_by exact sizeOf_lt_of_mem_inner ‹_›

/-- The parts of a failure are the failure and the parts of what is inside it. -/
theorem parts_eq (e : Failure) : e.parts = e :: partsAll e.inner := by
  cases e with
  | within message e => simp [parts, inner, partsAll]
  | joined all => simp [parts, inner]
  | _ => simp [parts, inner, partsAll]

/-! ### Searching -/

/-- No failure at any address is of a kind. -/
def Lacks (at? : Address → Option Failure) (kind : Failure → Prop) : Prop :=
  ∀ a c, at? a = some c → ¬ kind c

/-- The failure is the first one of a kind: no other one of that kind has a lesser address. -/
def First (at? : Address → Option Failure) (kind : Failure → Prop) (c : Failure) : Prop :=
  ∃ a, at? a = some c ∧ kind c ∧ ∀ b d, at? b = some d → kind d → a = b ∨ List.Lex (· < ·) a b

theorem First.unique {at? : Address → Option Failure} {kind : Failure → Prop} {c d : Failure}
    (hc : First at? kind c) (hd : First at? kind d) : c = d := by
  obtain ⟨a, ha, hkind, hleast⟩ := hc
  obtain ⟨b, hb, hkind', hleast'⟩ := hd
  have hab : a = b := by
    rcases hleast b d hb hkind' with h | h
    · exact h
    · rcases hleast' a c ha hkind with h' | h'
      · exact h'.symm
      · have hlex : List.Lex (· < ·) a a := List.lex_trans (fun h h' => Nat.lt_trans h h') h h'
        exact absurd hlex (List.lex_irrefl Nat.lt_irrefl a)
  rw [hab, hb] at ha
  exact (Option.some.inj ha).symm

theorem First.not_lacks {at? : Address → Option Failure} {kind : Failure → Prop} {c : Failure}
    (h : First at? kind c) : ¬ Lacks at? kind := by
  obtain ⟨a, ha, hkind, -⟩ := h
  exact fun hlacks => hlacks a c ha hkind

section Search

variable {kind : Failure → Prop} {e c : Failure} {es : List Failure}

/-- The root comes before all other parts. -/
theorem first_root (h : kind e) : First e.part? kind e := by
  refine ⟨[], rfl, h, fun b d _ _ => ?_⟩
  cases b with
  | nil => exact .inl rfl
  | cons i b => exact .inr .nil

theorem lacks_of_inner (h : ¬ kind e) (hinner : Lacks (partAmong? e.inner) kind) :
    Lacks e.part? kind := by
  intro a c hc
  match a with
  | [] =>
    cases hc
    exact h
  | i :: a => exact hinner (i :: a) c hc

theorem first_of_inner (h : ¬ kind e) (hinner : First (partAmong? e.inner) kind c) :
    First e.part? kind c := by
  obtain ⟨a, hc, hkind, hleast⟩ := hinner
  match a with
  | [] => cases hc
  | i :: a =>
    refine ⟨i :: a, hc, hkind, fun b d hd hd' => ?_⟩
    match b with
    | [] =>
      cases hd
      exact absurd hd' h
    | j :: b => exact hleast (j :: b) d hd hd'

/-- All inside the first failure comes before the later ones. -/
theorem first_cons (h : First e.part? kind c) : First (partAmong? (e :: es)) kind c := by
  obtain ⟨a, hc, hkind, hleast⟩ := h
  refine ⟨0 :: a, hc, hkind, fun b d hd hd' => ?_⟩
  match b with
  | [] => cases hd
  | 0 :: b => exact (hleast b d hd hd').imp (congrArg (0 :: ·)) .cons
  | (j + 1) :: b => exact .inr (.rel (Nat.succ_pos j))

theorem lacks_cons (h : Lacks e.part? kind) (hes : Lacks (partAmong? es) kind) :
    Lacks (partAmong? (e :: es)) kind := by
  intro a c hc
  match a with
  | [] => cases hc
  | 0 :: a => exact h a c hc
  | (i + 1) :: a => exact hes (i :: a) c hc

theorem first_cons_of_lacks (h : Lacks e.part? kind) (hes : First (partAmong? es) kind c) :
    First (partAmong? (e :: es)) kind c := by
  obtain ⟨a, hc, hkind, hleast⟩ := hes
  match a with
  | [] => cases hc
  | i :: a =>
    refine ⟨(i + 1) :: a, hc, hkind, fun b d hd hd' => ?_⟩
    match b with
    | [] => cases hd
    | 0 :: b => exact absurd hd' (h b d hd)
    | (j + 1) :: b =>
      rcases hleast (j :: b) d hd hd' with heq | hlt
      · obtain ⟨rfl, rfl⟩ := List.cons.inj heq
        exact .inl rfl
      · cases hlt with
        | cons hlt => exact .inr (.cons hlt)
        | rel hlt => exact .inr (.rel (Nat.succ_lt_succ hlt))

end Search

section Picking

variable {α : Type} {pick : Failure → Option α} {o o' : Option α} {e : Failure}
  {es : List Failure}

/-- What a search should give: what is picked from the first failure that something can be picked
from, and nothing if there is none. -/
def Seeks (pick : Failure → Option α) (at? : Address → Option Failure) : Option α → Prop
  | none => Lacks at? fun c => pick c ≠ none
  | some x => ∃ c, First at? (fun c => pick c ≠ none) c ∧ pick c = some x

/-- **A search goes on** with the later failures only if the first one has nothing. -/
theorem Seeks.or (h : Seeks pick e.part? o) (h' : Seeks pick (partAmong? es) o') :
    Seeks pick (partAmong? (e :: es)) (o.or o') := by
  cases o with
  | some x =>
    obtain ⟨c, hc, hx⟩ := h
    exact ⟨c, first_cons hc, hx⟩
  | none =>
    cases o' with
    | some x =>
      obtain ⟨c, hc, hx⟩ := h'
      exact ⟨c, first_cons_of_lacks h hc, hx⟩
    | none => exact lacks_cons h h'

theorem Seeks.of_inner (hpick : pick e = none) (h : Seeks pick (partAmong? e.inner) o) :
    Seeks pick e.part? o := by
  have hnot : ¬ pick e ≠ none := fun hne => hne hpick
  cases o with
  | some x =>
    obtain ⟨c, hc, hx⟩ := h
    exact ⟨c, first_of_inner hnot hc, hx⟩
  | none => exact lacks_of_inner hnot h

theorem seeks_partsAll (h : ∀ e ∈ es, Seeks pick e.part? (e.parts.findSome? pick)) :
    Seeks pick (partAmong? es) ((partsAll es).findSome? pick) := by
  induction es with
  | nil =>
    intro a c hc
    cases a with
    | nil => cases hc
    | cons i a => simp [partAmong?] at hc
  | cons e es ih =>
    obtain ⟨he, hes⟩ := List.forall_mem_cons.mp h
    rw [partsAll, List.findSome?_append]
    exact he.or (ih hes)

/-- **A search over the parts** finds the one that comes first in depth-first order. -/
theorem seeks_parts (pick : Failure → Option α) (e : Failure) :
    Seeks pick e.part? (e.parts.findSome? pick) := by
  induction e using inner_induction with
  | step e ih =>
    rw [parts_eq, List.findSome?_cons]
    split
    · rename_i x hx
      exact ⟨e, first_root (by simp [hx]), hx⟩
    · rename_i hnone
      exact .of_inner hnone (seeks_partsAll ih)

/-- A search for failures of a kind has found nothing if there are none, else the first of them. -/
def Finds (e : Failure) (bare : α → Failure) : Option α → Prop
  | none => Lacks e.part? fun c => ∃ x, c = bare x
  | some x => First e.part? (fun c => ∃ x, c = bare x) (bare x)

theorem finds_parts {bare : α → Failure} (hpick : ∀ c x, pick c = some x ↔ c = bare x)
    (e : Failure) : e.Finds bare (e.parts.findSome? pick) := by
  have hkind : (fun c => ∃ x, c = bare x) = fun c => pick c ≠ none := by
    funext c
    simp only [Option.ne_none_iff_exists', hpick]
  have hsearch := seeks_parts pick e
  cases hfound : e.parts.findSome? pick with
  | none =>
    rw [hfound] at hsearch
    rw [Finds, hkind]
    exact hsearch
  | some x =>
    rw [hfound] at hsearch
    obtain ⟨c, hc, hx⟩ := hsearch
    rw [Finds, hkind, ← (hpick c x).mp hx]
    exact hc

end Picking

/-! ### The part that is reported -/

/-- The failure is a syntax error by itself. -/
def IsSyntaxError (c : Failure) : Prop := ∃ s, c = syntaxError s

/-- The failure is a diagnostic by itself. -/
def IsDiagnostic (c : Failure) : Prop := ∃ d, c = diagnostic d

/-- The failure is an error in a format string by itself. -/
def IsFormatError (c : Failure) : Prop := ∃ x, c = format x

/-- **The part to report**, if there is one: the first syntax error anywhere inside a failure, else
the first diagnostic, else the first error in a format string. -/
inductive Chosen (e : Failure) : Option Failure → Prop
  | syntaxError {c : Failure} (h : First e.part? IsSyntaxError c) : Chosen e (some c)
  | diagnostic {c : Failure} (hsyntactic : Lacks e.part? IsSyntaxError)
      (h : First e.part? IsDiagnostic c) : Chosen e (some c)
  | formatError {c : Failure} (hsyntactic : Lacks e.part? IsSyntaxError)
      (hdiagnostic : Lacks e.part? IsDiagnostic) (h : First e.part? IsFormatError c) :
    Chosen e (some c)
  | nothing (hsyntactic : Lacks e.part? IsSyntaxError) (hdiagnostic : Lacks e.part? IsDiagnostic)
      (hformat : Lacks e.part? IsFormatError) : Chosen e none

theorem Chosen.unique {e : Failure} {o o' : Option Failure} (h : e.Chosen o) (h' : e.Chosen o') :
    o = o' := by
  -- what is lacking in one case comes first in the other, unless both cases are the same
  cases h <;> cases h' <;> grind [First.unique, First.not_lacks]

theorem finds_syntaxError (e : Failure) : e.Finds syntaxError e.syntaxError? :=
  finds_parts (fun c x => by cases c <;> simp) e

theorem finds_diagnostic (e : Failure) : e.Finds diagnostic e.diagnostic? :=
  finds_parts (fun c x => by cases c <;> simp) e

theorem finds_format (e : Failure) : e.Finds format e.format? :=
  finds_parts (fun c x => by cases c <;> simp) e

/-- **The part to report** is there just if a failure is reported as a diagnostic, and then it is
reported as the same one. -/
theorem exists_chosen (e : Failure) :
    (∃ c d, e.Chosen (some c) ∧ e.reported? = some d ∧ c.reported? = some d) ∨
      e.Chosen none ∧ e.reported? = none := by
  have hsyntactic := e.finds_syntaxError
  have hdiagnostic := e.finds_diagnostic
  have hformat := e.finds_format
  unfold reported?
  -- the searches are made in turn, each only if those before have found nothing
  cases hs : e.syntaxError? with
  | some s =>
    rw [hs] at hsyntactic
    exact .inl ⟨_, _, .syntaxError hsyntactic, rfl, by simp [syntaxError?, parts]⟩
  | none =>
    rw [hs] at hsyntactic
    cases hd : e.diagnostic? with
    | some d =>
      rw [hd] at hdiagnostic
      exact .inl ⟨_, _, .diagnostic hsyntactic hdiagnostic, rfl,
        by simp [syntaxError?, diagnostic?, parts]⟩
    | none =>
      rw [hd] at hdiagnostic
      cases hx : e.format? with
      | some x =>
        rw [hx] at hformat
        exact .inl ⟨_, _, .formatError hsyntactic hdiagnostic hformat, rfl,
          by simp [syntaxError?, diagnostic?, format?, parts]⟩
      | none =>
        rw [hx] at hformat
        exact .inr ⟨.nothing hsyntactic hdiagnostic hformat, rfl⟩

end Failure

/-- **Reports see through wrapping**: a failure is reported as the part to report is by itself, with
the same file and color. If there is no such part, the report is a header and the text of the
failure, whether or not there is a file. -/
theorem reports_see_through_wrapping (color : Bool) (file : Option SourceFile) (e : Failure) :
    (∃! o, e.Chosen o) ∧
      (∀ c, e.Chosen (some c) → Report.render color file e = Report.render color file c) ∧
      (e.Chosen none → Report.render color file e =
        .ok (painted color .red (ascii "[Error] Error:") ++ e.text.appended ++ [newline])) := by
  rcases e.exists_chosen with ⟨c, d, hchosen, hd, hcd⟩ | ⟨hchosen, hnone⟩
  · refine ⟨⟨some c, hchosen, fun o ho => ho.unique hchosen⟩, fun c' hc' => ?_, fun h => ?_⟩
    · obtain rfl := Option.some.inj (hc'.unique hchosen)
      rw [Report.render, Report.render, hd, hcd]
    · cases h.unique hchosen
  · refine ⟨⟨none, hchosen, fun o ho => ho.unique hchosen⟩, fun c' hc' => ?_, fun _ => ?_⟩
    · cases hc'.unique hchosen
    · rw [Report.render, hnone]
      rfl

/-- A syntax error deep inside the last of several failures, behind a diagnostic and an error in a
format string. -/
theorem reports_see_through_wrapping_last :
    let s : SyntaxError := ⟨.unexpectedEnd, 0, 1, 1, ⟨0, 0⟩, [], none, []⟩
    let e : Failure := .joined [.diagnostic ⟨ascii "E", [], ⟨0, 0⟩, []⟩, .format ⟨0, .unclosedOpen⟩,
      .within (ascii "x") (.joined [.canceled, .within (ascii "y") (.syntaxError s)])]
    e.Chosen (some (.syntaxError s)) ∧
      Report.render false none e = Report.render false none (.syntaxError s) ∧
      Report.render false none e =
        .ok (ascii "[UnrecognizedEOF] Error: unexpected end of file\n") := by
  intro s e
  have hchosen : e.Chosen (some (.syntaxError s)) := .syntaxError e.finds_syntaxError
  exact ⟨hchosen, (reports_see_through_wrapping false none e).2.1 _ hchosen, by decide⟩

end MacroCalls
