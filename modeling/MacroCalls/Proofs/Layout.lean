import MacroCalls.Proofs.Derivation
import Mathlib.Data.List.Forall2

/-!
# Layouts of programs

A program as it is meant to be written is a list of calls, each a name with the bodies of its
arguments (`PlainCall`). Its lexemes are fixed but for a comma that may stand behind the last
argument of a call; a *layout* of the program puts blanks before, between and behind them, at least
one between `fn` and `main`. Layouts are texts and say nothing of tokens.

Main statement: parsing accepts exactly the layouts, and the tree has the names and bodies of the
one program that the text is a layout of (`parse_eq_ok_iff_isLayout`). One half reads the lexemes
off a derivation (`exists_isLayout_of_derives`), the other scans a layout lexeme by lexeme
(`IsLayout.exists_derives`).
-/

namespace MacroCalls

open Text

/-- A call as it is written: its name and what stands between the quotes of its arguments. -/
structure PlainCall where
  name : Text
  bodies : List Text
  deriving DecidableEq, Repr

/-- The lexemes between the parentheses, with or without a comma behind the last argument. -/
def PlainCall.argumentLexemes (bodies : List Text) (comma : Bool) : List Text :=
  (bodies.map inQuotes).intersperse (ascii ",") ++ if comma then [ascii ","] else []

/-- The lexemes of a call. The name is a macro name, no body has a quote in it, and a comma behind
the last argument needs an argument. -/
inductive PlainCall.Lexemes (c : PlainCall) : List Text → Prop
  | intro (comma : Bool) (hname : IsMacroName c.name) (hbodies : ∀ b ∈ c.bodies, quoteMark ∉ b)
      (hcomma : comma = true → c.bodies ≠ []) :
      c.Lexemes (c.name :: ascii "(" ::
        (argumentLexemes c.bodies comma ++ [ascii ")", ascii ";"]))

/-- Lexemes one behind the other, with blanks before, between and behind them. -/
inductive Spaced : List Text → Text → Prop
  | nil {g : Text} (hg : IsBlankRun g) : Spaced [] g
  | cons {g w t : Text} {ws : List Text} (hg : IsBlankRun g) (h : Spaced ws t) :
      Spaced (w :: ws) (g ++ (w ++ t))

/-- **A layout** of a program. -/
inductive IsLayout (calls : List PlainCall) : Text → Prop
  | intro {g g' t : Text} {wss : List (List Text)} (hg : IsBlankRun g) (hg' : IsBlankRun g')
      (hne : g' ≠ []) (hcalls : List.Forall₂ PlainCall.Lexemes calls wss)
      (h : Spaced ([ascii "(", ascii ")", [openBrace]] ++ wss.flatten ++ [[closeBrace]]) t) :
      IsLayout calls (g ++ (ascii "fn" ++ (g' ++ (ascii "main" ++ t))))

/-- The name of a call and the values of its arguments. -/
def Call.plain (c : Call) : PlainCall := ⟨c.name.name, c.argList.map Literal.val⟩

/-- The statements of a program without spans, with `none` for a gap. -/
def Program.plain (p : Program) : List (Option PlainCall) := p.statementList.map (·.map Call.plain)

@[simp] theorem ascii_openParen : ascii "(" = [0x28] := rfl
@[simp] theorem ascii_closeParen : ascii ")" = [0x29] := rfl
@[simp] theorem ascii_semicolon : ascii ";" = [0x3B] := rfl

/-! ### The lexemes of a derivation -/

theorem Arguments.exists_lexemes {ts : List Token} {args : List Literal} (h : Arguments ts args)
    (hts : ∀ t ∈ ts, t.kind.Spells t.text) :
    (∀ a ∈ args, quoteMark ∉ a.val) ∧ ∃ comma : Bool, (comma = true → args ≠ []) ∧
      ts.map Token.text = PlainCall.argumentLexemes (args.map Literal.val) comma := by
  induction h with
  | nil => exact ⟨by simp, false, by simp, rfl⟩
  | @last t ht =>
    obtain ⟨htext, hbody⟩ := Token.text_eq_inQuotes ht (hts t (by simp))
    refine ⟨by simpa [Token.asLiteral] using hbody, false, by simp, ?_⟩
    simp [PlainCall.argumentLexemes, Token.asLiteral, htext]
  | @cons t c ts args ht hc h ih =>
    obtain ⟨htext, hbody⟩ := Token.text_eq_inQuotes ht (hts t (by simp))
    have hctext := (Terminal.admits_mark.mp hc).2
    obtain ⟨hval, comma, hcomma, hlex⟩ := ih fun u hu => hts u (by simp [hu])
    refine ⟨?_, ?_⟩
    · intro a ha
      rcases List.mem_cons.mp ha with rfl | ha
      · exact hbody
      · exact hval a ha
    · -- without further arguments the comma read here is the one behind the last argument
      cases args with
      | nil =>
        have hfalse : comma = false := by
          rw [Bool.eq_false_iff]
          exact fun hc => hcomma hc rfl
        subst hfalse
        have hnil : ts.map Token.text = [] := hlex
        refine ⟨true, by simp, ?_⟩
        simp only [List.map_cons, hnil, htext, hctext]
        rfl
      | cons a args =>
        refine ⟨comma, by simp, ?_⟩
        simp only [List.map_cons, hlex, htext, hctext]
        rfl

theorem Statements.exists_lexemes {ts : List Token} {calls : List Call} (h : Statements ts calls)
    (hts : ∀ t ∈ ts, t.kind.Spells t.text) :
    ∃ wss, List.Forall₂ PlainCall.Lexemes (calls.map Call.plain) wss ∧
      ts.map Token.text = wss.flatten := by
  induction h with
  | nil => exact ⟨[], .nil, rfl⟩
  | @cons n l r s ts us args calls hn hl hargs hr hs h ih =>
    obtain ⟨wss, hwss, hflat⟩ := ih fun u hu => hts u (by simp [hu])
    obtain ⟨hval, comma, hcomma, hlex⟩ := hargs.exists_lexemes fun u hu => hts u (by simp [hu])
    have hname : IsMacroName n.text := by
      have := hts n (by simp)
      rwa [hn] at this
    refine ⟨_ :: wss, .cons (.intro comma hname ?_ ?_) hwss, ?_⟩
    · intro b hb
      obtain ⟨a, ha, rfl⟩ := List.mem_map.mp hb
      exact hval a ha
    · intro hc
      simpa [Call.plain, Call.argList] using hcomma hc
    · simp only [List.map_cons, List.map_append, hlex, hflat, (Terminal.admits_mark.mp hl).2,
        (Terminal.admits_mark.mp hr).2, (Terminal.admits_mark.mp hs).2, List.flatten_cons]
      simp [Call.plain, Call.argList, Token.asName]

/-- The tokens of a text, the end of the input left out, are spaced by its blanks. -/
theorem Tiles.spaced {o : Nat} {t : Text} {ts : List Token} {z : Token} (h : Tiles o t (ts ++ [z]))
    (hz : z.kind = .endOfInput) : Spaced (ts.map Token.text) t := by
  induction ts generalizing o t with
  | nil => exact .nil (h.isBlankRun_of_endOfInput hz)
  | cons u ts ih =>
    obtain ⟨g, rest, rfl, hg, -, -, -, h⟩ := h.exists_of_cons (by simp)
    exact .cons hg (ih h)

/-- **A derived text is a layout** of what its tree says. -/
theorem exists_isLayout_of_derives {src : Text} {ts : List Token} {p : Program}
    (h : Derives ts p) (ht : Tiles 0 src ts) :
    ∃ calls, p.plain = calls.map some ∧ IsLayout calls src := by
  obtain @⟨f, m, l, r, b, e, z, ts, calls, hf, hm, hl, hr, hb, h, he, hz⟩ := h
  rw [Terminal.admits_fn] at hf
  rw [Terminal.admits_main] at hm
  rw [Terminal.admits_mark] at hl hr hb he
  have hspell : ∀ u ∈ ts, u.kind.Spells u.text := by
    have hspells : ∀ u ∈ f :: m :: l :: r :: b :: ts, u.kind.Spells u.text := Tiles.spells ht
    exact fun u hu => hspells u (by simp [hu])
  obtain ⟨wss, hwss, hflat⟩ := h.exists_lexemes hspell
  refine ⟨calls.map Call.plain, by simp [Program.plain, Program.statementList], ?_⟩
  obtain ⟨g, rest, rfl, hg, -, hapart, -, ht⟩ := ht.exists_of_cons (by simp)
  obtain ⟨g', t, rfl, hg', -, -, -, ht⟩ := ht.exists_of_cons (by simp)
  have htail : l :: r :: b :: (ts ++ [e, z]) = (l :: r :: b :: (ts ++ [e])) ++ [z] := by simp
  rw [htail] at ht
  rw [hf.2, hm.2] at hapart ⊢
  refine .intro hg hg' ?_ hwss ?_
  · -- the identifier `fn` would go on with the `m` of `main`
    rintro rfl
    exact absurd (hapart hf.1 0x6D rfl).1 (by decide)
  · simpa [hl.2, hr.2, hb.2, he.2, hflat] using ht.spaced hz

/-! ### The derivation of a layout -/

theorem isIdentifier_fn : IsIdentifier (ascii "fn") :=
  ⟨0x66, [0x6E], by decide, List.all_eq_true.mp (by decide), rfl⟩

theorem isIdentifier_main : IsIdentifier (ascii "main") :=
  ⟨0x6D, [0x61, 0x69, 0x6E], by decide, List.all_eq_true.mp (by decide), rfl⟩

/-- A blank ends every identifier. -/
theorem apart_blank_append {g : Text} (hg : IsBlankRun g) (hne : g ≠ []) (w t : Text) :
    Apart w (g ++ t) := by
  obtain ⟨a, g, rfl⟩ := List.exists_cons_of_ne_nil hne
  have ha := hg a (by simp)
  intro b hb
  cases hb
  exact ⟨not_isIdentRest_of_isBlank ha, fun h => absurd h (ne_bang_of_isBlank ha)⟩

namespace Spaced

variable {o : Nat} {t w : Text} {ws : List Text}

/-- The first of some spaced lexemes is the first token, unless it is an identifier, which what
follows might go on with. -/
theorem exists_token {k : Token.Kind} (h : Spaced (w :: ws) t) (hw : k.Spells w)
    (hk : k ≠ .identifier) :
    ∃ u t', u.kind = k ∧ u.text = w ∧ Spaced ws t' ∧
      Scanner.tokens ⟨t, o⟩ = u :: Scanner.tokens ⟨t', u.stop⟩ := by
  cases h with
  | cons hg h =>
    exact ⟨_, _, rfl, rfl, h, Scanner.tokens_blank_append_token hg hw fun h => absurd h hk⟩

theorem exists_mark {b : UInt8} (h : Spaced ([b] :: ws) t) (hb : isPunctuation b = true) :
    ∃ u t', (Terminal.mark b).admits u = true ∧ Spaced ws t' ∧
      Scanner.tokens ⟨t, o⟩ = u :: Scanner.tokens ⟨t', u.stop⟩ := by
  obtain ⟨u, t', hk, hu, h, htok⟩ :=
    h.exists_token (k := .punctuation) (o := o) ⟨b, hb, rfl⟩ (by decide)
  exact ⟨u, t', Terminal.admits_mark.mpr ⟨hk, hu⟩, h, htok⟩

theorem exists_literal {b : Text} (h : Spaced (inQuotes b :: ws) t) (hb : quoteMark ∉ b) :
    ∃ u t', u.kind = .literal ∧ u.asLiteral.val = b ∧ Spaced ws t' ∧
      Scanner.tokens ⟨t, o⟩ = u :: Scanner.tokens ⟨t', u.stop⟩ := by
  obtain ⟨u, t', hk, hu, h, htok⟩ :=
    h.exists_token (k := .literal) (o := o) ⟨b, hb, rfl⟩ (by decide)
  exact ⟨u, t', hk, Token.body_eq hu, h, htok⟩

/-- The lexemes between the parentheses of a call are scanned as arguments. -/
theorem exists_arguments {bodies : List Text} {comma : Bool} (hb : ∀ b ∈ bodies, quoteMark ∉ b)
    (hc : comma = true → bodies ≠ [])
    (h : Spaced (PlainCall.argumentLexemes bodies comma ++ ws) t) :
    ∃ ts args t' o', Arguments ts args ∧ args.map Literal.val = bodies ∧ Spaced ws t' ∧
      Scanner.tokens ⟨t, o⟩ = ts ++ Scanner.tokens ⟨t', o'⟩ := by
  induction bodies generalizing o t with
  | nil =>
    have hfalse : comma = false := by
      rw [Bool.eq_false_iff]
      exact fun htrue => hc htrue rfl
    subst hfalse
    exact ⟨[], [], t, o, .nil, rfl, h, rfl⟩
  | cons b bodies ih =>
    have hb0 := hb b (by simp)
    cases bodies with
    | nil =>
      cases comma with
      | false =>
        obtain ⟨u, t', hk, hu, h, htok⟩ := exists_literal (o := o) h hb0
        exact ⟨[u], _, t', u.stop, .last hk, by simp [hu], h, htok⟩
      | true =>
        obtain ⟨u, t', hk, hu, h, htok⟩ := exists_literal (o := o) h hb0
        obtain ⟨c, t', hcomma, h, htok'⟩ := exists_mark (o := u.stop) h (by decide)
        refine ⟨[u, c], _, t', c.stop, .cons hk hcomma .nil, by simp [hu], h, ?_⟩
        rw [htok, htok']
        rfl
    | cons b' bodies =>
      obtain ⟨u, t', hk, hu, h, htok⟩ := exists_literal (o := o) h hb0
      obtain ⟨c, t', hcomma, h, htok'⟩ := exists_mark (o := u.stop) h (by decide)
      obtain ⟨ts, args, t', o', hargs, hval, h, htok''⟩ :=
        ih (o := c.stop) (fun a ha => hb a (by simp [ha])) (by simp) h
      refine ⟨u :: c :: ts, _, t', o', .cons hk hcomma hargs, ?_, h, ?_⟩
      · rw [List.map_cons, hu, hval]
      rw [htok, htok', htok'']
      rfl

/-- The lexemes of calls are scanned as statements. -/
theorem exists_statements {calls : List PlainCall} {wss : List (List Text)}
    (hcalls : List.Forall₂ PlainCall.Lexemes calls wss) (h : Spaced (wss.flatten ++ ws) t) :
    ∃ ts cs t' o', Statements ts cs ∧ cs.map Call.plain = calls ∧ Spaced ws t' ∧
      Scanner.tokens ⟨t, o⟩ = ts ++ Scanner.tokens ⟨t', o'⟩ := by
  induction hcalls generalizing o t with
  | nil => exact ⟨[], [], t, o, .nil, rfl, h, rfl⟩
  | @cons c w calls wss hw hcalls ih =>
    obtain ⟨comma, hname, hbodies, hcomma⟩ := hw
    rw [List.flatten_cons, List.append_assoc, List.cons_append, List.cons_append,
      List.append_assoc, ascii_openParen, ascii_closeParen, ascii_semicolon] at h
    obtain ⟨n, t, hnk, hn, h, htok₁⟩ := h.exists_token (k := .macroName) (o := o) hname (by decide)
    obtain ⟨l, t, hl, h, htok₂⟩ := h.exists_mark (o := n.stop) (by decide)
    obtain ⟨ts, args, t, o', hargs, hval, h, htok₃⟩ :=
      h.exists_arguments (o := l.stop) hbodies hcomma
    obtain ⟨r, t, hr, h, htok₄⟩ := h.exists_mark (o := o') (by decide)
    obtain ⟨s, t, hs, h, htok₅⟩ := h.exists_mark (o := r.stop) (by decide)
    obtain ⟨us, cs, t, o', hcs, hplain, h, htok₆⟩ := ih (o := s.stop) h
    refine ⟨_, _, t, o', .cons hnk hl hargs hr hs hcs, ?_, h, ?_⟩
    · rw [List.map_cons, hplain]
      simp [Call.plain, Call.argList, Token.asName, hn, hval]
    · rw [htok₁, htok₂, htok₃, htok₄, htok₅, htok₆]
      simp

theorem apart_of_mark {b : UInt8} (h : Spaced ([b] :: ws) t) (hb : isPunctuation b = true)
    (v : Text) : Apart v t := by
  cases h with
  | @cons g _ t _ hg h =>
    cases g with
    | nil =>
      intro a ha
      cases ha
      refine ⟨not_isIdentRest_of_isPunctuation hb, ?_⟩
      rintro rfl
      exact absurd hb (by decide)
    | cons a g => exact apart_blank_append hg (by simp) v _

end Spaced

/-- **A layout is derived**, with the calls it is a layout of. -/
theorem IsLayout.exists_derives {calls : List PlainCall} {src : Text} (h : IsLayout calls src) :
    ∃ p, Derives src.tokens p ∧ p.plain = calls.map some := by
  obtain @⟨g, g', t, wss, hg, hg', hne, hcalls, h⟩ := h
  have htok := Scanner.tokens_blank_append_token (o := 0) (k := .identifier) hg isIdentifier_fn
    fun _ => apart_blank_append hg' hne _ (ascii "main" ++ t)
  rw [Scanner.tokens_blank_append_token (k := .identifier) hg' isIdentifier_main
    fun _ => h.apart_of_mark (by decide) _] at htok
  rw [List.append_assoc, List.cons_append, List.cons_append, List.cons_append, List.nil_append,
    ascii_openParen, ascii_closeParen] at h
  obtain ⟨l, t₁, hl, h, htok₁⟩ := h.exists_mark (by decide)
  obtain ⟨r, t₂, hr, h, htok₂⟩ := h.exists_mark (o := l.stop) (by decide)
  obtain ⟨b, t₃, hb, h, htok₃⟩ := h.exists_mark (o := r.stop) (by decide)
  obtain ⟨ts, cs, t₄, o, hcs, hplain, h, htok₄⟩ := h.exists_statements (o := b.stop) hcalls
  obtain ⟨e, t₅, he, h, htok₅⟩ := h.exists_mark (o := o) (by decide)
  have hend : ∃ z : Token, z.kind = .endOfInput ∧ Scanner.tokens ⟨t₅, e.stop⟩ = [z] := by
    cases h with
    | nil hg => exact ⟨_, rfl, Scanner.tokens_blank hg⟩
  obtain ⟨z, hz, htok₆⟩ := hend
  rw [htok₁, htok₂, htok₃, htok₄, htok₅, htok₆] at htok
  rw [Text.tokens, htok]
  refine ⟨_, .intro (Terminal.admits_fn.mpr ⟨rfl, rfl⟩) (Terminal.admits_main.mpr ⟨rfl, rfl⟩) hl hr
    hb hcs he hz, ?_⟩
  rw [← hplain]
  simp [Program.plain, Program.statementList]

/-! ### Parsing and layouts -/

/-- **Parsing accepts exactly the layouts of programs**, and the tree that it returns has the names
and the argument bodies of the only program that the text is a layout of. -/
theorem parse_eq_ok_iff_isLayout (src : Text) :
    ((∃ p, parse src = .ok p) ↔ ∃ calls, IsLayout calls src) ∧
      ∀ p, parse src = .ok p → ∀ calls, IsLayout calls src ↔ p.plain = calls.map some := by
  have hlayout : ∀ calls, IsLayout calls src →
      ∃ p, parse src = .ok p ∧ p.plain = calls.map some := by
    intro calls h
    obtain ⟨p, hp, hplain⟩ := h.exists_derives
    exact ⟨p, parse_eq_ok_iff_derives.mpr hp, hplain⟩
  have hparse : ∀ p, parse src = .ok p → ∃ calls, p.plain = calls.map some ∧ IsLayout calls src :=
    fun p hp => exists_isLayout_of_derives (parse_eq_ok_iff_derives.mp hp) src.tiles_tokens
  refine ⟨⟨fun ⟨p, hp⟩ => ?_, fun ⟨calls, h⟩ => ?_⟩, fun p hp calls => ⟨fun h => ?_, fun h => ?_⟩⟩
  · obtain ⟨calls, -, h⟩ := hparse p hp
    exact ⟨calls, h⟩
  · obtain ⟨p, hp, -⟩ := hlayout calls h
    exact ⟨p, hp⟩
  · obtain ⟨p', hp', hplain⟩ := hlayout calls h
    rw [hp] at hp'
    cases hp'
    exact hplain
  · obtain ⟨calls', hplain, h'⟩ := hparse p hp
    rw [hplain, List.map_inj_right (fun _ _ => Option.some.inj)] at h
    rwa [← h]

/-- A call with a comma behind its last argument, the rest of the layout as tight as it can be. -/
theorem parse_layout_with_comma :
    IsLayout [⟨ascii "log!", [ascii "a"]⟩] (ascii "fn main()\x7blog!(\"a\",);\x7d") ∧
      ∃ p, parse (ascii "fn main()\x7blog!(\"a\",);\x7d") = .ok p ∧
        p.plain = [some ⟨ascii "log!", [ascii "a"]⟩] := by
  have hnil : IsBlankRun [] := by simp [IsBlankRun]
  have hblank : IsBlankRun [0x20] := by simp [IsBlankRun, isBlank]
  have hlog : PlainCall.Lexemes ⟨ascii "log!", [ascii "a"]⟩
      [ascii "log!", ascii "(", inQuotes (ascii "a"), ascii ",", ascii ")", ascii ";"] :=
    .intro true ⟨ascii "log", by decide, List.all_eq_true.mp (by decide), rfl⟩ (by decide)
      (by decide)
  have hlayout : IsLayout [⟨ascii "log!", [ascii "a"]⟩] (ascii "fn main()\x7blog!(\"a\",);\x7d") :=
    .intro hnil hblank (by decide) (.cons hlog .nil)
      (.cons hnil <| .cons hnil <| .cons hnil <| .cons hnil <| .cons hnil <| .cons hnil <|
        .cons hnil <| .cons hnil <| .cons hnil <| .cons hnil <| .nil hnil)
  obtain ⟨p, hp⟩ := (parse_eq_ok_iff_isLayout _).1.mpr ⟨_, hlayout⟩
  exact ⟨hlayout, p, hp, ((parse_eq_ok_iff_isLayout _).2 p hp _).mp hlayout⟩

end MacroCalls
