import MacroCalls.Proofs.Descent

/-!
# Derivations

The grammar once more, as derivations of token lists, each with the tree it stands for:

    program   = "fn" "main" "(" ")" "{" statement* "}"
    statement = macro name "(" arguments ")" ";"
    arguments = (literal ",")* literal?

The table of places knows nothing of this nesting. `Derives.exists_read` says that reading a derived
list gives the tree of the derivation, `exists_derives_of_run` that every list that leads behind the
program is derived. So the trees that parsing returns are those of derivations
(`parse_eq_ok_iff_derives`), and facts about them are proved by induction over derivations.
-/

namespace MacroCalls

open Terminal

/-- The literal that a token stands for. -/
def Token.asLiteral (t : Token) : Literal := ⟨t.span, t.body⟩

/-- The name that a token stands for. -/
def Token.asName (t : Token) : Name := ⟨t.span, t.text⟩

/-- The tokens between the parentheses of a call, with the arguments they stand for. -/
inductive Arguments : List Token → List Literal → Prop
  | nil : Arguments [] []
  | last {t : Token} (ht : t.kind = .literal) : Arguments [t] [t.asLiteral]
  | cons {t c : Token} {ts : List Token} {args : List Literal} (ht : t.kind = .literal)
      (hc : (mark 0x2C).admits c = true) (h : Arguments ts args) :
      Arguments (t :: c :: ts) (t.asLiteral :: args)

/-- The tokens between the braces of a program, with the calls they stand for. -/
inductive Statements : List Token → List Call → Prop
  | nil : Statements [] []
  | cons {n l r s : Token} {ts us : List Token} {args : List Literal} {calls : List Call}
      (hn : n.kind = .macroName) (hl : (mark 0x28).admits l = true) (hargs : Arguments ts args)
      (hr : (mark 0x29).admits r = true) (hs : (mark 0x3B).admits s = true)
      (h : Statements us calls) :
      Statements (n :: l :: (ts ++ r :: s :: us))
        (⟨n.asName, some args, ⟨n.start, s.stop⟩⟩ :: calls)

/-- The tokens of a program, with its tree. -/
inductive Derives : List Token → Program → Prop
  | intro {f m l r b e z : Token} {ts : List Token} {calls : List Call}
      (hf : (keyword "fn").admits f = true) (hm : (keyword "main").admits m = true)
      (hl : (mark 0x28).admits l = true) (hr : (mark 0x29).admits r = true)
      (hb : (mark Text.openBrace).admits b = true) (h : Statements ts calls)
      (he : (mark Text.closeBrace).admits e = true) (hz : z.kind = .endOfInput) :
      Derives (f :: m :: l :: r :: b :: (ts ++ [e, z]))
        ⟨some (calls.map some), ⟨f.start, e.stop⟩⟩

/-! ### Reading a derived list -/

namespace Place

theorem read_cons_of_mem {p q : Place} {e : Terminal} {t : Token} (h : (e, q) ∈ p.moves)
    (ha : e.admits t = true) (d : Draft) (ts : List Token) :
    p.read d (t :: ts) = q.read (d.add p t) ts := by
  rw [read, step_of_mem h ha]

theorem read_arguments {ts : List Token} {args : List Literal} (h : Arguments ts args) {r : Token}
    (hr : (mark 0x29).admits r = true) (d : Draft) (us : List Token) :
    argument.read d (ts ++ r :: us) = semicolon.read { d with args := d.args ++ args } us := by
  have hrk := (admits_mark.mp hr).1
  induction h generalizing d with
  | nil =>
    rw [List.nil_append, read_cons_of_mem (q := semicolon) (by simp [moves]) hr]
    simp [Draft.add, hrk]
  | @last t ht =>
    rw [List.singleton_append,
      read_cons_of_mem (q := separator) (by simp [moves]) (admits_kind.mpr ht),
      read_cons_of_mem (q := semicolon) (by simp [moves]) hr]
    simp [Draft.add, ht, Token.asLiteral]
  | @cons t c ts args ht hc h ih =>
    rw [List.cons_append, List.cons_append,
      read_cons_of_mem (q := separator) (by simp [moves]) (admits_kind.mpr ht),
      read_cons_of_mem (q := argument) (by simp [moves]) hc, ih]
    simp [Draft.add, ht, Token.asLiteral]

theorem read_statements {ts : List Token} {calls : List Call} (h : Statements ts calls)
    (start : Nat) (cs : Array Call) (us : List Token) :
    statement.read { start, calls := cs } (ts ++ us) =
      statement.read { start, calls := cs ++ calls } us := by
  induction h generalizing cs with
  | nil => simp
  | @cons n l r s ts vs args calls hn hl hargs hr hs h ih =>
    have hlist : n :: l :: (ts ++ r :: s :: vs) ++ us =
        n :: l :: (ts ++ r :: (s :: (vs ++ us))) := by
      simp
    have hname : (Draft.add { start, calls := cs } statement n).add argsOpen l =
        { start, calls := cs, name := n.asName } := by
      simp [Draft.add, hn, Token.asName]
    have hcall : Draft.add
        { start, calls := cs, name := n.asName, args := (#[] : Array Literal) ++ args }
        semicolon s =
        { start, calls := cs.push ⟨n.asName, some args, ⟨n.start, s.stop⟩⟩ } := by
      simp [Draft.add, Token.asName, Token.span]
    rw [hlist, read_cons_of_mem (q := argsOpen) (by simp [moves]) (admits_kind.mpr hn),
      read_cons_of_mem (q := argument) (by simp [moves]) hl, hname, read_arguments hargs hr,
      read_cons_of_mem (q := statement) (by simp [moves]) hs, hcall, ih]
    simp

end Place

/-- **Reading a derived list** gives the tree of the derivation. -/
theorem Derives.exists_read {ts : List Token} {p : Program} (h : Derives ts p) :
    ∃ d, Place.fn.read {} ts = .ok d ∧ d.program = p := by
  obtain @⟨f, m, l, r, b, e, z, ts, calls, hf, hm, hl, hr, hb, h, he, hz⟩ := h
  have hek := (admits_mark.mp he).1
  rw [Place.read_cons_of_mem (q := .main) (by simp [Place.moves]) hf,
    Place.read_cons_of_mem (q := .paramsOpen) (by simp [Place.moves]) hm,
    Place.read_cons_of_mem (q := .paramsClose) (by simp [Place.moves]) hl,
    Place.read_cons_of_mem (q := .bodyOpen) (by simp [Place.moves]) hr,
    Place.read_cons_of_mem (q := .statement) (by simp [Place.moves]) hb]
  have hadd : ((((Draft.add {} .fn f).add .main m).add .paramsOpen l).add .paramsClose r).add
      .bodyOpen b = { start := f.start } := by
    simp [Draft.add]
  rw [hadd, Place.read_statements h,
    Place.read_cons_of_mem (q := .finish) (by simp [Place.moves]) he,
    Place.read_cons_of_mem (q := .done) (by simp [Place.moves]) (admits_kind.mpr hz)]
  refine ⟨_, rfl, ?_⟩
  simp [Draft.program, Draft.add, hek]

/-! ### Deriving a list that was read -/

namespace Place

/-- A run to the end of the program from any other place starts with a token of that place. -/
theorem exists_cons_of_run {p : Place} (hp : p.moves ≠ []) {ts : List Token}
    (h : p.run ts = some done) :
    ∃ e q t us, ts = t :: us ∧ (e, q) ∈ p.moves ∧ e.admits t = true ∧ q.run us = some done := by
  cases ts with
  | nil =>
    cases h
    exact absurd rfl hp
  | cons t us =>
    obtain ⟨q, hstep, hrun⟩ := run_cons_eq_some_iff.mp h
    obtain ⟨e, hmem, ha⟩ := step_eq_some_iff.mp hstep
    exact ⟨e, q, t, us, rfl, hmem, ha, hrun⟩

theorem exists_cons_of_one_move {p q : Place} {e : Terminal} (hp : p.moves = [(e, q)])
    {ts : List Token} (h : p.run ts = some done) :
    ∃ t us, ts = t :: us ∧ e.admits t = true ∧ q.run us = some done := by
  obtain ⟨e', q', t, us, rfl, hmem, ha, hrun⟩ := exists_cons_of_run (by rw [hp]; simp) h
  rw [hp, List.mem_singleton] at hmem
  cases hmem
  exact ⟨t, us, rfl, ha, hrun⟩

theorem exists_cons_of_two_moves {p q q' : Place} {e e' : Terminal}
    (hp : p.moves = [(e, q), (e', q')]) {ts : List Token} (h : p.run ts = some done) :
    ∃ t us, ts = t :: us ∧ (e.admits t = true ∧ q.run us = some done ∨
      e'.admits t = true ∧ q'.run us = some done) := by
  obtain ⟨e₁, q₁, t, us, rfl, hmem, ha, hrun⟩ := exists_cons_of_run (by rw [hp]; simp) h
  rw [hp, List.mem_cons, List.mem_singleton] at hmem
  refine ⟨t, us, rfl, ?_⟩
  rcases hmem with hmem | hmem <;> cases hmem
  · exact Or.inl ⟨ha, hrun⟩
  · exact Or.inr ⟨ha, hrun⟩

theorem exists_arguments_of_run {ts : List Token} (h : argument.run ts = some done) :
    ∃ us args r vs, ts = us ++ r :: vs ∧ Arguments us args ∧ (mark 0x29).admits r = true ∧
      semicolon.run vs = some done := by
  -- each round takes a literal and its comma, two tokens at once
  induction hn : ts.length using Nat.strong_induction_on generalizing ts with
  | _ n ih =>
    obtain ⟨t, us, rfl, ⟨hr, hrun⟩ | ⟨ht, hrun⟩⟩ := exists_cons_of_two_moves rfl h
    · exact ⟨[], [], t, us, rfl, .nil, hr, hrun⟩
    · rw [admits_kind] at ht
      obtain ⟨c, us, rfl, ⟨hr, hrun⟩ | ⟨hc, hrun⟩⟩ := exists_cons_of_two_moves rfl hrun
      · exact ⟨[t], _, c, us, rfl, .last ht, hr, hrun⟩
      · have hlt : us.length < n := by rw [← hn]; simp only [List.length_cons]; omega
        obtain ⟨ws, args, r, vs, rfl, hargs, hr, hrun⟩ := ih us.length hlt hrun rfl
        exact ⟨t :: c :: ws, _, r, vs, rfl, .cons ht hc hargs, hr, hrun⟩

theorem exists_statements_of_run {ts : List Token} (h : statement.run ts = some done) :
    ∃ us calls e z, ts = us ++ [e, z] ∧ Statements us calls ∧
      (mark Text.closeBrace).admits e = true ∧ z.kind = .endOfInput := by
  induction hn : ts.length using Nat.strong_induction_on generalizing ts with
  | _ n ih =>
    obtain ⟨t, us, rfl, ⟨he, hrun⟩ | ⟨ht, hrun⟩⟩ := exists_cons_of_two_moves rfl h
    · obtain ⟨z, us, rfl, hz, hrun⟩ := exists_cons_of_one_move rfl hrun
      -- nothing can be read behind the program
      cases us with
      | nil => exact ⟨[], [], t, z, rfl, .nil, he, admits_kind.mp hz⟩
      | cons u us => cases hrun
    · rw [admits_kind] at ht
      obtain ⟨l, us, rfl, hl, hrun⟩ := exists_cons_of_one_move rfl hrun
      obtain ⟨ws, args, r, vs, rfl, hargs, hr, hrun⟩ := exists_arguments_of_run hrun
      obtain ⟨s, vs, rfl, hs, hrun⟩ := exists_cons_of_one_move rfl hrun
      have hlt : vs.length < n := by
        rw [← hn]
        simp only [List.length_cons, List.length_append]
        omega
      obtain ⟨xs, calls, e, z, rfl, hcalls, he, hz⟩ := ih vs.length hlt hrun rfl
      exact ⟨_, _, e, z, by simp, .cons ht hl hargs hr hs hcalls, he, hz⟩

/-- **Every list that leads behind the program is derived.** -/
theorem exists_derives_of_run {ts : List Token} (h : fn.run ts = some done) :
    ∃ p, Derives ts p := by
  obtain ⟨f, ts, rfl, hf, h⟩ := exists_cons_of_one_move rfl h
  obtain ⟨m, ts, rfl, hm, h⟩ := exists_cons_of_one_move rfl h
  obtain ⟨l, ts, rfl, hl, h⟩ := exists_cons_of_one_move rfl h
  obtain ⟨r, ts, rfl, hr, h⟩ := exists_cons_of_one_move rfl h
  obtain ⟨b, ts, rfl, hb, h⟩ := exists_cons_of_one_move rfl h
  obtain ⟨us, calls, e, z, rfl, hcalls, he, hz⟩ := exists_statements_of_run h
  exact ⟨_, .intro hf hm hl hr hb hcalls he hz⟩

end Place

/-- **Parsing returns the trees of derivations.** -/
theorem parse_eq_ok_iff_derives {src : Text} {p : Program} :
    parse src = .ok p ↔ Derives src.tokens p := by
  constructor
  · intro h
    obtain ⟨p', hp'⟩ := Place.exists_derives_of_run (exists_parse_eq_ok_iff.mp ⟨p, h⟩)
    obtain ⟨d, hd, rfl⟩ := parse_eq_ok_iff.mp h
    obtain ⟨d', hd', rfl⟩ := hp'.exists_read
    rw [hd] at hd'
    cases hd'
    exact hp'
  · intro h
    exact parse_eq_ok_iff.mpr h.exists_read

end MacroCalls
