import Mathlib.Data.List.Sort
import MacroCalls.Parse
import MacroCalls.Proofs.Reading

/-!
# Descent follows the table

The parser knows no places. It keeps a lookahead, notes what it looks for there and goes down into
productions and up again. Yet it reads its tokens as the table does (`parse_eq_outcome`): it takes a
token exactly where the table lets it come next, and where it fails, its notes are the terminals of
the place, however the loops came to it, and its context is the production around the place.

The argument goes down with the parser. A place with one terminal is left by `Parser.expect`, one
with two by a look at the first of them and `Parser.expect` for the other (`Place.outcome_expect`).
The loops are followed by induction on how they run, and each production is a chain of such steps.
-/

namespace MacroCalls

open Terminal

/-! ### Looking at a token -/

/-- Texts in order are what sorting any rearrangement of them gives. -/
theorem mergeSort_eq_of_perm {l m : List Text} (h : l.Perm m) (hm : m.Pairwise (· ≤ ·)) :
    l.mergeSort (· ≤ ·) = m :=
  ((List.mergeSort_perm ..).trans h).eq_of_pairwise' (List.pairwise_mergeSort' (· ≤ ·) l) hm

namespace Parser

variable {p r : Parser} {e : Terminal} {t : Token}

/-- The tokens from the lookahead on. -/
def upcoming (p : Parser) : List Token :=
  if p.found.isFinal then [p.found] else p.found :: p.scanner.tokens

@[simp] theorem upcoming_note (p : Parser) (e : Terminal) : (p.note e).upcoming = p.upcoming := rfl

@[simp] theorem upcoming_enter (p : Parser) (c : Text) : (p.enter c).upcoming = p.upcoming := rfl

theorem upcoming_ofText (src : Text) : (ofText src).upcoming = src.tokens :=
  (Scanner.tokens_eq _).symm

theorem upcoming_of_isFinal (h : p.found.isFinal = true) : p.upcoming = [p.found] := if_pos h

theorem upcoming_of_not_isFinal (h : p.found.isFinal = false) :
    p.upcoming = p.found :: p.advance.upcoming := by
  rw [upcoming, if_neg (by simp [h]), Scanner.tokens_eq]
  rfl

theorem exists_upcoming (p : Parser) : ∃ ts, p.upcoming = p.found :: ts := by
  unfold upcoming
  split
  · exact ⟨_, rfl⟩
  · exact ⟨_, rfl⟩

theorem expect_of_admits (h : e.admits p.found = true) :
    p.expect e = .ok (p.found, (p.note e).advance) := by
  rw [expect, sees, h]
  rfl

theorem expect_of_not_admits (h : e.admits p.found = false) :
    p.expect e = .error (p.note e).failure := by
  rw [expect, sees, h]

theorem Reaches.src_eq (h : p.Reaches r) : r.src = p.src := by
  induction h with
  | refl => rfl
  | note _ _ ih => exact ih
  | enter _ _ ih => exact ih
  | advance _ ih => exact ih

/-- The parser of a text has come to a token in some context and has not looked at it yet. -/
structure Fresh (src context : Text) (p : Parser) : Prop where
  src_eq : p.src = src
  context_eq : p.context = context
  expected_eq : p.expected = []

theorem fresh_of_expect {src c : Text} (h : p.expect e = .ok (t, r)) (hsrc : p.src = src)
    (hcontext : p.context = c) : Fresh src c r := by
  obtain ⟨-, -, rfl⟩ := expect_eq_ok h
  exact ⟨hsrc, hcontext, rfl⟩

end Parser

/-! ### One step of the table -/

namespace Place

/-- What reading tokens of a text from a place on comes to. -/
def outcome (q : Place) (src : Text) (d : Draft) (ts : List Token) : Except SyntaxError Program :=
  match q.read d ts with
  | .ok d => .ok d.program
  | .error (r, t) => .error (.atToken src r t)

theorem expected_pairwise_le (q : Place) : q.expected.Pairwise (· ≤ ·) := by
  cases q <;> decide

section Step

variable {q r : Place} {e : Terminal} {p : Parser} {src : Text} {d : Draft}

/-- A token that may come next is taken. -/
theorem outcome_of_admits (hmove : (e, r) ∈ q.moves) (he : e.IsProper)
    (h : e.admits p.found = true) :
    q.outcome src d p.upcoming = r.outcome src (d.add q p.found) p.advance.upcoming := by
  rw [Parser.upcoming_of_not_isFinal (he.isFinal_of_admits h)]
  simp only [outcome, read, step_of_mem hmove h]

/-- **Where no token of the place comes next** and the parser has looked for all of them, it fails
as the table does. -/
theorem outcome_of_not_admits (h : ∀ m ∈ q.moves, m.1.admits p.found = false) (hsrc : p.src = src)
    (hcontext : p.context = q.context) (hnotes : p.expected.Perm q.expected) :
    q.outcome src d p.upcoming = .error p.failure := by
  obtain ⟨ts, hts⟩ := p.exists_upcoming
  have hstep : q.step p.found = none := by
    rw [step, Option.map_eq_none_iff, List.find?_eq_none]
    exact fun m hm => by simp [h m hm]
  have hexpected := mergeSort_eq_of_perm hnotes q.expected_pairwise_le
  simp only [outcome, hts, read, hstep, SyntaxError.atToken, Parser.failure, hsrc, hcontext,
    hexpected]

/-- **Expecting a terminal** of a place, the others having been looked for in vain, is the step of
the table. -/
theorem outcome_expect {k : Token × Parser → Except SyntaxError Program}
    (hmove : (e, r) ∈ q.moves) (he : e.IsProper) (hsrc : p.src = src)
    (hcontext : p.context = q.context) (hnotes : (p.note e).expected.Perm q.expected)
    (hothers : ∀ m ∈ q.moves, m.1 ≠ e → m.1.admits p.found = false)
    (hk : ∀ t p', e.admits t = true → Parser.Fresh src q.context p' →
      r.outcome src (d.add q t) p'.upcoming = k (t, p')) :
    q.outcome src d p.upcoming = p.expect e >>= k := by
  cases h : e.admits p.found with
  | true =>
    rw [Parser.expect_of_admits h, outcome_of_admits hmove he h]
    exact hk p.found (p.note e).advance h ⟨hsrc, hcontext, rfl⟩
  | false =>
    rw [Parser.expect_of_not_admits h]
    refine outcome_of_not_admits (p := p.note e) (fun m hm => ?_) hsrc hcontext hnotes
    by_cases hme : m.1 = e
    · exact hme ▸ h
    · exact hothers m hm hme

/-- At a place with one terminal this is the first thing looked for. -/
theorem outcome_expect_one {k : Token × Parser → Except SyntaxError Program}
    (hmoves : q.moves = [(e, r)]) (he : e.IsProper) (hp : Parser.Fresh src q.context p)
    (hk : ∀ t p', Parser.Fresh src q.context p' →
      r.outcome src (d.add q t) p'.upcoming = k (t, p')) :
    q.outcome src d p.upcoming = p.expect e >>= k := by
  refine outcome_expect (by simp [hmoves]) he hp.src_eq hp.context_eq ?_ ?_
    fun t p' _ => hk t p'
  · rw [Parser.note, hp.expected_eq, expected, hmoves]
    simp
  · intro m hm hne
    rw [hmoves, List.mem_singleton] at hm
    exact absurd (congrArg Prod.fst hm) hne

/-- At a place with two terminals, one has been looked for in vain. -/
theorem outcome_expect_two {k : Token × Parser → Except SyntaxError Program} {r' : Place}
    {e' : Terminal} (hmoves : q.moves = [(e, r), (e', r')]) (he : e.IsProper) (hsrc : p.src = src)
    (hcontext : p.context = q.context) (hnotes : p.expected = [e'.description])
    (hne : e.description ≠ e'.description) (h' : e'.admits p.found = false)
    (hk : ∀ t p', e.admits t = true → Parser.Fresh src q.context p' →
      r.outcome src (d.add q t) p'.upcoming = k (t, p')) :
    q.outcome src d p.upcoming = p.expect e >>= k := by
  refine outcome_expect (by simp [hmoves]) he hsrc hcontext ?_ ?_ hk
  · rw [Parser.note, hnotes, expected, hmoves, List.insert_of_not_mem (by simpa using hne)]
    simp
  · intro m hm hne
    rw [hmoves, List.mem_cons, List.mem_singleton] at hm
    rcases hm with rfl | rfl
    · exact absurd rfl hne
    · exact h'

end Step

end Place

/-! ### The productions -/

namespace Parser

open Place

/-- Behind the arguments, whichever of two terminals was looked for last. -/
theorem outcome_arguments_end {src : Text} {q r' : Place} {e' : Terminal} {d : Draft} {p : Parser}
    (hmoves : q.moves = [(mark 0x29, semicolon), (e', r')]) (hq : q = argument ∨ q = separator)
    (hsrc : p.src = src) (hnotes : p.expected = []) (h' : e'.admits p.found = false)
    (hne : (mark 0x29).description ≠ e'.description) :
    q.outcome src d p.upcoming =
      ((p.note e').enter (ascii "Statement")).expect (mark 0x29) >>= fun (_, r) =>
        semicolon.outcome src d r.upcoming := by
  have hcontext : ascii "Statement" = q.context := by rcases hq with rfl | rfl <;> rfl
  have hexpected : (p.note e').expected = [e'.description] := by rw [note, hnotes]; simp
  refine outcome_expect_two (p := (p.note e').enter (ascii "Statement")) hmoves
    (by decide) hsrc hcontext hexpected hne h' fun t r ha _ => ?_
  have hadd : d.add q t = d := by
    rcases hq with rfl | rfl <;> simp [Draft.add, (admits_mark.mp ha).1]
  rw [hadd]

/-- A literal is taken as an argument. -/
theorem outcome_literal {src : Text} {d : Draft} {args : Array Literal} {p : Parser}
    (h : (⟨.literal, []⟩ : Terminal).admits p.found = true) :
    argument.outcome src { d with args } p.upcoming =
      separator.outcome src { d with args := args.push ⟨p.found.span, p.found.body⟩ }
        p.advance.upcoming := by
  rw [outcome_of_admits (r := separator) (by simp [moves]) (by decide) h]
  simp [Draft.add, admits_kind.mp h]

/-- **The loop over the arguments** ends where a parenthesis is looked for behind it. -/
theorem outcome_literals {src : Text} (d : Draft) (args : Array Literal) (p : Parser)
    (hsrc : p.src = src) (hnotes : p.expected = []) :
    argument.outcome src { d with args } p.upcoming =
      ((p.literals args).2.enter (ascii "Statement")).expect (mark 0x29) >>= fun (_, r) =>
        semicolon.outcome src { d with args := (p.literals args).1 } r.upcoming := by
  fun_induction literals args p with
  | case1 args p q hliteral =>
    obtain ⟨hfound, rfl⟩ := Prod.mk.inj hliteral
    exact outcome_arguments_end rfl (.inl rfl) hsrc hnotes hfound (by decide)
  | case2 args p q hliteral args' r hcomma =>
    obtain ⟨hfound, rfl⟩ := Prod.mk.inj hliteral
    obtain ⟨hfound', rfl⟩ := Prod.mk.inj hcomma
    rw [outcome_literal hfound]
    exact outcome_arguments_end rfl (.inr rfl) hsrc rfl hfound' (by decide)
  | case3 args p q hliteral args' r hcomma hlt ih =>
    obtain ⟨hfound, rfl⟩ := Prod.mk.inj hliteral
    obtain ⟨hfound', rfl⟩ := Prod.mk.inj hcomma
    rw [outcome_literal hfound]
    exact (outcome_of_admits (p := p.advance) (r := argument) (by simp [moves])
      (by decide) hfound').trans (ih hsrc rfl)

theorem outcome_arguments {src : Text} (d : Draft) {p : Parser}
    (hp : Fresh src (ascii "Statement") p) :
    argument.outcome src { d with args := #[] } p.upcoming =
      p.arguments >>= fun (args, r) => r.expect (mark 0x29) >>= fun (_, r') =>
        semicolon.outcome src { d with args := args.toArray } r'.upcoming := by
  refine (outcome_literals d #[] (p.enter (ascii "ArgList")) hp.src_eq hp.expected_eq).trans ?_
  rw [← hp.context_eq]
  simp only [arguments, inside, bind, Except.bind, pure, Except.pure, Array.toArray_toList]

theorem context_of_arguments {p q : Parser} {args : List Literal}
    (h : p.arguments = .ok (args, q)) : q.context = p.context := by
  cases h
  rfl

/-- **A statement** is read along the table, from a macro name on. -/
theorem outcome_statement {src : Text} {start : Nat} {calls : Array Call} {p : Parser}
    (hsrc : p.src = src) (h : (⟨.macroName, []⟩ : Terminal).admits p.found = true) :
    Place.statement.outcome src { start, calls } p.upcoming =
      p.statement >>= fun (c, r) =>
        Place.statement.outcome src { start, calls := calls.push c } r.upcoming := by
  have hname : (p.enter (ascii "Statement")).expect ⟨.macroName, []⟩ =
      .ok (p.found, ((p.enter (ascii "Statement")).note ⟨.macroName, []⟩).advance) :=
    expect_of_admits h
  have hp₁ : Fresh src (ascii "Statement")
      ((p.enter (ascii "Statement")).note ⟨.macroName, []⟩).advance := ⟨hsrc, rfl, rfl⟩
  rw [outcome_of_admits (r := argsOpen) (by simp [moves]) (by decide) h, statement,
    inside]
  simp only [bind_assoc, hname]
  refine outcome_expect_one (q := argsOpen) rfl (by decide) hp₁ fun l p₂ hp₂ => ?_
  have hadd : (Draft.add { start, calls } .statement p.found).add argsOpen l =
      { start, calls, name := ⟨p.found.span, p.found.text⟩ } := by
    simp [Draft.add, admits_kind.mp h]
  rw [hadd]
  refine (outcome_arguments { start, calls, name := ⟨p.found.span, p.found.text⟩ } hp₂).trans
    (bind_congr_of_ok ?_)
  rintro ⟨args, p₃⟩ hargs
  have hsrc₃ := (reaches_of_arguments hargs).src_eq
  have hcontext₃ := context_of_arguments hargs
  refine bind_congr_of_ok ?_
  rintro ⟨_, p₄⟩ hclose
  have hp₄ := fresh_of_expect hclose (hsrc₃.trans hp₂.src_eq) (hcontext₃.trans hp₂.context_eq)
  refine outcome_expect_one (q := semicolon) rfl (by decide) hp₄ fun last p₅ _ => ?_
  simp [Draft.add, Token.span]

theorem fresh_of_statement {src c : Text} {p q : Parser} {call : Call}
    (h : p.statement = .ok (call, q)) (hsrc : p.src = src) (hcontext : p.context = c) :
    Fresh src c q := by
  obtain ⟨name, last, p₁, p₄, p₅, hname, hreaches, hlast, rfl⟩ := exists_of_statement h
  have hp₁ := fresh_of_expect hname hsrc rfl
  have hp₅ := fresh_of_expect hlast (hreaches.src_eq.trans hp₁.src_eq) rfl
  exact ⟨hp₅.src_eq, hcontext, hp₅.expected_eq⟩

/-- Behind the program nothing but the end of the input comes. -/
theorem outcome_finish {src : Text} (d : Draft) {p : Parser} (hp : Fresh src (ascii "Main") p) :
    finish.outcome src d p.upcoming =
      p.expect ⟨.endOfInput, []⟩ >>= fun _ => .ok d.program := by
  cases h : (⟨.endOfInput, []⟩ : Terminal).admits p.found with
  | true =>
    have hfinal : p.found.isFinal = true := by simp [Token.isFinal, admits_kind.mp h]
    have hstep : finish.step p.found = some done := step_of_mem (by simp [moves]) h
    rw [upcoming_of_isFinal hfinal, expect_of_admits h]
    simp only [outcome, Place.read, hstep]
    rfl
  | false =>
    have hexpected : (p.note ⟨.endOfInput, []⟩).expected = finish.expected := by
      rw [note, hp.expected_eq]
      rfl
    rw [expect_of_not_admits h]
    exact outcome_of_not_admits (q := finish) (p := p.note ⟨.endOfInput, []⟩)
      (List.forall_mem_singleton.mpr h) hp.src_eq hp.context_eq (.of_eq hexpected)

/-- **The loop over the statements** ends where a brace is looked for behind it. -/
theorem outcome_statements {src : Text} (start : Nat) (calls : Array Call) (p : Parser)
    (hp : Fresh src (ascii "Main") p) :
    Place.statement.outcome src { start, calls } p.upcoming =
      p.statements calls >>= fun (calls, r) => r.expect (mark Text.closeBrace) >>=
        fun (last, r') => r'.expect ⟨.endOfInput, []⟩ >>=
          fun _ => .ok ⟨some (calls.toList.map some), ⟨start, last.stop⟩⟩ := by
  fun_induction statements calls p with
  | case1 calls p q hname =>
    obtain ⟨hfound, rfl⟩ := Prod.mk.inj hname
    have hexpected : (p.note ⟨.macroName, []⟩).expected = [ascii "macro name"] := by
      rw [note, hp.expected_eq]
      rfl
    refine outcome_expect_two (q := .statement) (p := p.note ⟨.macroName, []⟩) rfl
      (by decide) hp.src_eq hp.context_eq hexpected (by decide) hfound
      fun last r ha hr => ?_
    refine (outcome_finish _ hr).trans (bind_congr_of_ok fun _ _ => ?_)
    simp [Draft.program, Draft.add, (admits_mark.mp ha).1]
  | case2 calls p q hname e hcall =>
    obtain ⟨hfound, rfl⟩ := Prod.mk.inj hname
    rw [← upcoming_note p ⟨.macroName, []⟩,
      outcome_statement (p := p.note ⟨.macroName, []⟩) hp.src_eq hfound, hcall]
    rfl
  | case3 calls p q hname c r hcall hlt ih =>
    obtain ⟨hfound, rfl⟩ := Prod.mk.inj hname
    have hr := fresh_of_statement hcall hp.src_eq hp.context_eq
    rw [← upcoming_note p ⟨.macroName, []⟩,
      outcome_statement (p := p.note ⟨.macroName, []⟩) hp.src_eq hfound, hcall]
    exact ih hr

end Parser

/-! ### Parsing -/

/-- **Parsing** reads the tokens of the text along the table. -/
theorem parse_eq_outcome (src : Text) : parse src = Place.fn.outcome src {} src.tokens := by
  have hp₀ : Parser.Fresh src (ascii "Main") ((Parser.ofText src).enter (ascii "Main")) :=
    ⟨rfl, rfl, rfl⟩
  rw [← Parser.upcoming_ofText, ← Parser.upcoming_enter _ (ascii "Main"), parse, Parser.program,
    Parser.inside]
  simp only [bind_assoc, pure_bind]
  symm
  refine Place.outcome_expect_one (q := .fn) rfl (by decide) hp₀ fun first p hp => ?_
  refine Place.outcome_expect_one (q := .main) rfl (by decide) hp fun _ p hp => ?_
  refine Place.outcome_expect_one (q := .paramsOpen) rfl (by decide) hp fun _ p hp => ?_
  refine Place.outcome_expect_one (q := .paramsClose) rfl (by decide) hp
    fun _ p hp => ?_
  refine Place.outcome_expect_one (q := .bodyOpen) rfl (by decide) hp fun _ p hp => ?_
  exact Parser.outcome_statements first.start #[] p hp

theorem parse_eq_ok_iff {src : Text} {p : Program} :
    parse src = .ok p ↔ ∃ d, Place.fn.read {} src.tokens = .ok d ∧ d.program = p := by
  rw [parse_eq_outcome, Place.outcome]
  cases Place.fn.read {} src.tokens with
  | ok d => simp
  | error qt => simp

theorem parse_eq_error_iff {src : Text} {e : SyntaxError} :
    parse src = .error e ↔
      ∃ us t vs q, src.tokens = us ++ t :: vs ∧ Place.fn.run us = some q ∧ q.step t = none ∧
        e = .atToken src q t := by
  have hread : parse src = .error e ↔
      ∃ q t, Place.fn.read {} src.tokens = .error (q, t) ∧ e = .atToken src q t := by
    rw [parse_eq_outcome, Place.outcome]
    cases Place.fn.read {} src.tokens with
    | ok d => simp
    | error qt =>
      obtain ⟨q, t⟩ := qt
      simp [eq_comm]
  rw [hread]
  constructor
  · rintro ⟨q, t, hstuck, rfl⟩
    obtain ⟨us, vs, htok, hrun, hstep⟩ := Place.read_eq_error_iff.mp hstuck
    exact ⟨us, t, vs, q, htok, hrun, hstep, rfl⟩
  · rintro ⟨us, t, vs, q, htok, hrun, hstep, rfl⟩
    exact ⟨q, t, Place.read_eq_error_iff.mpr ⟨us, vs, htok, hrun, hstep⟩, rfl⟩

/-- **A text is a program** if and only if its tokens lead behind the program. -/
theorem exists_parse_eq_ok_iff {src : Text} :
    (∃ p, parse src = .ok p) ↔ Place.fn.run src.tokens = some .done := by
  have hread : (∃ p, parse src = .ok p) ↔ ∃ q, Place.fn.run src.tokens = some q := by
    rw [← Place.exists_read_eq_ok_iff (d := {})]
    simp only [parse_eq_ok_iff]
    exact ⟨fun ⟨_, d, hd, _⟩ => ⟨d, hd⟩, fun ⟨d, hd⟩ => ⟨d.program, d, hd, rfl⟩⟩
  rw [hread]
  refine ⟨fun ⟨q, hq⟩ => ?_, fun h => ⟨_, h⟩⟩
  obtain ⟨us, z, htok, hz, -⟩ := src.tiles_tokens.exists_final
  rw [htok, Place.run_append] at hq ⊢
  obtain ⟨r, hr, hq⟩ := Option.bind_eq_some_iff.mp hq
  obtain ⟨q', hstep, hq'⟩ := Place.run_cons_eq_some_iff.mp hq
  cases hq'
  rw [hr, Option.bind_some, hq, (Place.isFinal_iff_of_step hstep).mp hz]

end MacroCalls
