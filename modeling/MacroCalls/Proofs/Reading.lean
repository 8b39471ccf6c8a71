import MacroCalls.Parser
import MacroCalls.Program
import MacroCalls.Proofs.Tiling

/-!
# Reading along a table

The grammar as a table: each place between two tokens of a program has the terminals that may come
next, and behind each of them the next place. The table is a finite automaton on tokens: a token
that may come next leads to exactly one place (`Place.step_eq_some_iff`), and `Place.run` follows it
over a list of tokens. Reading a list puts a program together on the way. It succeeds if and only if
the automaton does not get stuck, and otherwise ends at the first token that cannot come next
(`Place.read_eq_error_iff`).
-/

namespace MacroCalls

/-! ### The table -/

/-- The places between two tokens of a program, named for what comes next. -/
inductive Place where
  | fn
  | main
  | paramsOpen
  | paramsClose
  | bodyOpen
  | statement
  | argsOpen
  | argument
  | separator
  | semicolon
  | finish
  | done
  deriving DecidableEq, Repr

namespace Place

open Terminal in
/-- The terminals that may come next, each with the place behind it. -/
def moves : Place → List (Terminal × Place)
  | fn => [(keyword "fn", main)]
  | main => [(keyword "main", paramsOpen)]
  | paramsOpen => [(mark 0x28, paramsClose)]
  | paramsClose => [(mark 0x29, bodyOpen)]
  | bodyOpen => [(mark Text.openBrace, statement)]
  | statement => [(mark Text.closeBrace, finish), (⟨.macroName, []⟩, argsOpen)]
  | argsOpen => [(mark 0x28, argument)]
  | argument => [(mark 0x29, semicolon), (⟨.literal, []⟩, separator)]
  | separator => [(mark 0x29, semicolon), (mark 0x2C, argument)]
  | semicolon => [(mark 0x3B, statement)]
  | finish => [(⟨.endOfInput, []⟩, done)]
  | done => []

/-- The place behind a token, if the token may come next. -/
def step (p : Place) (t : Token) : Option Place :=
  (p.moves.find? fun (e, _) => e.admits t).map (·.2)

/-- The descriptions of the terminals that may come next. -/
def expected (p : Place) : List Text := p.moves.map fun (e, _) => e.description

/-- Whether the place lies inside a statement: its name has been read, its semicolon has not. -/
def inStatement : Place → Bool
  | argsOpen | argument | separator | semicolon => true
  | _ => false

/-- The production around the place. -/
def context (p : Place) : Text := if p.inStatement then ascii "Statement" else ascii "Main"

end Place

/-- The error of a token of `src` that cannot come next at a place. -/
def SyntaxError.atToken (src : Text) (p : Place) (t : Token) : SyntaxError :=
  let position := (SourceFile.ofText [] src).position t.start
  { kind := .ofToken t.kind
    offset := t.start
    line := position.line
    column := position.column
    span := t.span
    found := t.text
    expected := some p.expected
    context := p.context }

/-- The parts of a program that have been read; those still to come are empty. -/
structure Draft where
  /-- Where `fn` starts. -/
  start : Nat := 0
  /-- Where the closing brace ends. -/
  stop : Nat := 0
  /-- The finished statements. -/
  calls : Array Call := #[]
  /-- The name of the statement being read. -/
  name : Name := {}
  /-- The arguments of the statement being read. -/
  args : Array Literal := #[]
  deriving Repr

namespace Draft

/-- The draft after a token that may come next at a place. -/
def add (d : Draft) (p : Place) (t : Token) : Draft :=
  match p, t.kind with
  | .fn, _ => { d with start := t.start }
  | .statement, .macroName => { d with name := ⟨t.span, t.text⟩ }
  | .statement, _ => { d with stop := t.stop }
  | .argument, .literal => { d with args := d.args.push ⟨t.span, t.body⟩ }
  | .semicolon, _ =>
    { d with
      calls := d.calls.push ⟨d.name, some d.args.toList, ⟨d.name.span.start, t.stop⟩⟩
      name := {}
      args := #[] }
  | _, _ => d

/-- The tree of a finished draft. -/
def program (d : Draft) : Program := ⟨some (d.calls.toList.map some), ⟨d.start, d.stop⟩⟩

end Draft

/-- Read tokens from a place on. The first token that cannot come next is handed back with its
place. -/
def Place.read (p : Place) (d : Draft) : List Token → Except (Place × Token) Draft
  | [] => .ok d
  | t :: ts =>
    match p.step t with
    | some q => q.read (d.add p t) ts
    | none => .error (p, t)

/-! ### Terminals -/

namespace Terminal

/-- A token without its place: what a terminal looks at. -/
theorem admits_iff {e : Terminal} {t : Token} :
    e.admits t = true ↔ t.kind = e.kind ∧ (e.text = [] ∨ t.text = e.text) := by
  simp [admits, List.isEmpty_iff]

@[simp] theorem admits_mark {b : UInt8} {t : Token} :
    (mark b).admits t = true ↔ t.kind = .punctuation ∧ t.text = [b] := by
  simp [admits_iff, mark]

@[simp] theorem admits_kind {k : Token.Kind} {t : Token} :
    (⟨k, []⟩ : Terminal).admits t = true ↔ t.kind = k := by
  simp [admits_iff]

theorem admits_keyword {word : String} (h : ascii word ≠ []) {t : Token} :
    (keyword word).admits t = true ↔ t.kind = .identifier ∧ t.text = ascii word := by
  simp [admits_iff, keyword, h]

@[simp] theorem admits_fn {t : Token} :
    (keyword "fn").admits t = true ↔ t.kind = .identifier ∧ t.text = ascii "fn" :=
  admits_keyword (by decide)

@[simp] theorem admits_main {t : Token} :
    (keyword "main").admits t = true ↔ t.kind = .identifier ∧ t.text = ascii "main" :=
  admits_keyword (by decide)

end Terminal

namespace Place

/-! ### Steps -/

/-- The terminals of a place have no token in common. -/
theorem moves_unique {p : Place} {m m' : Terminal × Place} {t : Token} (h : m ∈ p.moves)
    (h' : m' ∈ p.moves) (ha : m.1.admits t = true) (ha' : m'.1.admits t = true) : m = m' := by
  cases p <;> simp only [moves, List.mem_cons, List.not_mem_nil, or_false] at h h' <;>
    rcases h with rfl | rfl <;> rcases h' with rfl | rfl <;>
    simp_all

/-- **A step** follows the one terminal of the place that admits the token. -/
theorem step_eq_some_iff {p q : Place} {t : Token} :
    p.step t = some q ↔ ∃ e, (e, q) ∈ p.moves ∧ e.admits t = true := by
  unfold step
  constructor
  · intro h
    obtain ⟨⟨e, q'⟩, hfind, rfl⟩ := Option.map_eq_some_iff.mp h
    exact ⟨e, List.mem_of_find?_eq_some hfind, by simpa using List.find?_some hfind⟩
  · rintro ⟨e, hmem, ha⟩
    have hsome : (p.moves.find? fun m => m.1.admits t).isSome = true :=
      List.find?_isSome.mpr ⟨(e, q), hmem, ha⟩
    obtain ⟨m, hm⟩ := Option.isSome_iff_exists.mp hsome
    have hma : m.1.admits t = true := by simpa using List.find?_some hm
    have heq := moves_unique (List.mem_of_find?_eq_some hm) hmem hma ha
    subst heq
    exact Option.map_eq_some_iff.mpr ⟨(e, q), hm, rfl⟩

theorem step_of_mem {p q : Place} {e : Terminal} {t : Token} (h : (e, q) ∈ p.moves)
    (ha : e.admits t = true) : p.step t = some q :=
  step_eq_some_iff.mpr ⟨e, h, ha⟩

/-- Only the end of the input leads behind the program, and an invalid token leads nowhere. -/
theorem eq_done_iff_of_mem {p q : Place} {e : Terminal} (h : (e, q) ∈ p.moves) :
    e.kind ≠ .invalid ∧ (q = done ↔ e.kind = .endOfInput) := by
  have hall : ∀ m ∈ p.moves, m.1.kind ≠ .invalid ∧ (m.2 = done ↔ m.1.kind = .endOfInput) := by
    cases p <;> decide
  exact hall _ h

theorem isFinal_iff_of_step {p q : Place} {t : Token} (h : p.step t = some q) :
    t.isFinal = true ↔ q = done := by
  obtain ⟨e, hmem, ha⟩ := step_eq_some_iff.mp h
  obtain ⟨hvalid, hdone⟩ := eq_done_iff_of_mem hmem
  rw [hdone, Token.isFinal, (Terminal.admits_iff.mp ha).1]
  simp [hvalid]

/-! ### Runs -/

/-- The place behind a list of tokens, if each of them may come next in turn. -/
def run (p : Place) : List Token → Option Place
  | [] => some p
  | t :: ts => (p.step t).bind fun q => q.run ts

theorem run_append (p : Place) (ts us : List Token) :
    p.run (ts ++ us) = (p.run ts).bind fun q => q.run us := by
  induction ts generalizing p with
  | nil => rfl
  | cons t ts ih =>
    simp only [List.cons_append, run]
    cases p.step t with
    | none => rfl
    | some q => exact ih q

theorem run_cons_eq_some_iff {p r : Place} {t : Token} {ts : List Token} :
    p.run (t :: ts) = some r ↔ ∃ q, p.step t = some q ∧ q.run ts = some r :=
  Option.bind_eq_some_iff

/-- Reading stops at the first token that cannot come next. -/
theorem read_eq_error_iff {p q : Place} {d : Draft} {ts : List Token} {t : Token} :
    p.read d ts = .error (q, t) ↔
      ∃ us vs, ts = us ++ t :: vs ∧ p.run us = some q ∧ q.step t = none := by
  induction ts generalizing p d with
  | nil => simp [read]
  | cons u ts ih =>
    unfold read
    cases hs : p.step u with
    | some r =>
      dsimp only
      rw [ih]
      constructor
      · rintro ⟨us, vs, rfl, hrun, hstep⟩
        exact ⟨u :: us, vs, rfl, run_cons_eq_some_iff.mpr ⟨r, hs, hrun⟩, hstep⟩
      · rintro ⟨us, vs, heq, hrun, hstep⟩
        cases us with
        | nil =>
          cases heq
          cases hrun
          rw [hs] at hstep
          cases hstep
        | cons u' us =>
          cases heq
          obtain ⟨r', hr', hrun⟩ := run_cons_eq_some_iff.mp hrun
          rw [hs] at hr'
          cases hr'
          exact ⟨us, vs, rfl, hrun, hstep⟩
    | none =>
      dsimp only
      constructor
      · intro h
        cases h
        exact ⟨[], ts, rfl, rfl, hs⟩
      · rintro ⟨us, vs, heq, hrun, hstep⟩
        cases us with
        | nil =>
          cases heq
          cases hrun
          rfl
        | cons u' us =>
          cases heq
          obtain ⟨r', hr', -⟩ := run_cons_eq_some_iff.mp hrun
          rw [hs] at hr'
          cases hr'

/-- Reading succeeds exactly if the run does not get stuck. -/
theorem exists_read_eq_ok_iff {p : Place} {d : Draft} {ts : List Token} :
    (∃ d', p.read d ts = .ok d') ↔ ∃ q, p.run ts = some q := by
  induction ts generalizing p d with
  | nil => simp [read, run]
  | cons t ts ih =>
    unfold read
    simp only [run]
    cases p.step t with
    | none => simp
    | some q => exact ih

end Place

/-! ### The tokens of a text -/

/-- The tokens of a text by itself. -/
abbrev Text.tokens (src : Text) : List Token := Scanner.tokens ⟨src, 0⟩

theorem Text.tiles_tokens (src : Text) : Tiles 0 src src.tokens := Scanner.tiles_tokens ⟨src, 0⟩

/-- Every token of a text is the slice of the text at its offsets. -/
theorem Text.slice_tokens (src : Text) :
    ∀ t ∈ src.tokens, src.slice t.start t.stop = t.text ∧ t.stop ≤ src.length :=
  src.tiles_tokens.slice_eq List.length_nil

end MacroCalls
