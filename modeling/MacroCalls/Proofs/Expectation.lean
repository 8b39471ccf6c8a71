import MacroCalls.Proofs.Layout

/-!
# What a syntax error expects

A token sequence is accepted if it is the token sequence of a program, the end of the input counted
as its last token (`Accepted`). Where tokens start does not matter to this, only their kinds and
texts (`Token.word`).

Main statement: the tokens before a syntax error can be completed to an accepted sequence, the
offending token makes that impossible, and the error lists the descriptions of exactly those classes
of tokens that could have come instead, in byte order and without repetition
(`syntaxError_leftmost_and_exact`). It rests on two facts about the table of places: every place can
be completed (`Place.exists_completion`), and completed lists of well-spelled tokens are the tokens
of a text (`accepted_of_run`), namely of their texts with a blank before each.
-/

namespace MacroCalls

open Text Terminal

/-- A token apart from where it stands. -/
def Token.word (t : Token) : Token.Kind × Text := (t.kind, t.text)

/-- **An accepted token sequence**: the tokens of some program, wherever they start. -/
def Accepted (ts : List Token) : Prop :=
  ∃ src p, parse src = .ok p ∧ src.tokens.map Token.word = ts.map Token.word

/-- The classes of tokens that the grammar distinguishes: the keywords, the punctuation marks, macro
names, string literals and the end of the input. -/
def Terminal.classes : List Terminal :=
  [keyword "fn", keyword "main", mark 0x28, mark 0x29, mark openBrace, mark closeBrace, mark 0x2C,
    mark 0x3B, ⟨.macroName, []⟩, ⟨.literal, []⟩, ⟨.endOfInput, []⟩]

/-! ### Classes -/

theorem Terminal.admits_congr {e : Terminal} {t t' : Token} (h : t.word = t'.word) :
    e.admits t = e.admits t' := by
  obtain ⟨hk, ht⟩ := Prod.mk.inj h
  rw [admits, admits, hk, ht]

theorem Terminal.mem_classes_of_mem_moves {p : Place} : ∀ m ∈ p.moves, m.1 ∈ classes := by
  cases p <;> decide

/-- The classes have no token in common. -/
theorem Terminal.classes_unique {e e' : Terminal} {t : Token} (h : e ∈ classes) (h' : e' ∈ classes)
    (ha : e.admits t = true) (ha' : e'.admits t = true) : e = e' := by
  have hdisjoint : ∀ e ∈ classes, ∀ e' ∈ classes,
      e = e' ∨ e.kind ≠ e'.kind ∨ e.text ≠ [] ∧ e'.text ≠ [] ∧ e.text ≠ e'.text := by decide
  obtain ⟨hk, ht⟩ := admits_iff.mp ha
  obtain ⟨hk', ht'⟩ := admits_iff.mp ha'
  rcases hdisjoint e h e' h' with heq | hkind | ⟨hne, hne', htext⟩
  · exact heq
  · exact absurd (hk.symm.trans hk') hkind
  · exact absurd ((ht.resolve_left hne).symm.trans (ht'.resolve_left hne')) htext

namespace Place

theorem step_congr {p : Place} {t t' : Token} (h : t.word = t'.word) : p.step t = p.step t' := by
  simp only [step, admits_congr h]

theorem run_congr {p : Place} {ts ts' : List Token} (h : ts.map Token.word = ts'.map Token.word) :
    p.run ts = p.run ts' := by
  induction ts generalizing p ts' with
  | nil =>
    rw [List.map_nil, eq_comm, List.map_eq_nil_iff] at h
    rw [h]
  | cons t ts ih =>
    obtain ⟨t', us, rfl, ht, hts⟩ := List.map_eq_cons_iff.mp h.symm
    simp only [run, step_congr ht, ih hts.symm]

end Place

theorem Accepted.run_eq {ts : List Token} (h : Accepted ts) : Place.fn.run ts = some .done := by
  obtain ⟨src, p, hp, hw⟩ := h
  rw [← Place.run_congr hw]
  exact exists_parse_eq_ok_iff.mp ⟨p, hp⟩

/-! ### Texts for token lists -/

/-- Well-spelled tokens and the end of the input. -/
inductive Finished : List Token → Prop
  | last {z : Token} (hz : z.word = (.endOfInput, [])) : Finished [z]
  | cons {t : Token} {ts : List Token} (ht : t.kind.Spells t.text) (h : Finished ts) :
      Finished (t :: ts)

theorem Finished.append {ts us : List Token} (hts : ∀ t ∈ ts, t.kind.Spells t.text)
    (h : Finished us) : Finished (ts ++ us) := by
  induction ts with
  | nil => exact h
  | cons t ts ih => exact .cons (hts t (by simp)) (ih fun u hu => hts u (by simp [hu]))

/-- The texts of tokens with a blank before each. -/
def spelledOut (ts : List Token) : Text := ts.flatMap fun t => 0x20 :: t.text

/-- Scanned again, finished tokens are the same apart from where they start. -/
theorem Finished.map_word_tokens {ts : List Token} (h : Finished ts) (o : Nat) :
    (Scanner.tokens ⟨spelledOut ts, o⟩).map Token.word = ts.map Token.word := by
  have hblank : IsBlankRun [0x20] := by simp [IsBlankRun, isBlank]
  induction h generalizing o with
  | @last z hz =>
    have htext : z.text = [] := congrArg Prod.snd hz
    have hspelled : spelledOut [z] = [0x20] := by simp [spelledOut, htext]
    rw [hspelled, Scanner.tokens_blank hblank, List.map_singleton, List.map_singleton, hz]
    rfl
  | @cons t ts ht h ih =>
    have hspelled : spelledOut (t :: ts) = [0x20] ++ (t.text ++ spelledOut ts) := by
      simp [spelledOut]
    -- the blank that follows keeps an identifier from going on
    obtain ⟨rest, hrest⟩ : ∃ rest, spelledOut ts = [0x20] ++ rest := by
      cases h with
      | last hz => exact ⟨_, List.flatMap_cons⟩
      | cons ht h => exact ⟨_, List.flatMap_cons⟩
    rw [hspelled, Scanner.tokens_blank_append_token hblank ht fun _ => by
      rw [hrest]; exact apart_blank_append hblank (by simp) _ _, List.map_cons, ih, List.map_cons]
    rfl

theorem accepted_of_run {ts : List Token} (hts : Finished ts) (h : Place.fn.run ts = some .done) :
    Accepted ts := by
  have hw := hts.map_word_tokens 0
  obtain ⟨p, hp⟩ := exists_parse_eq_ok_iff.mpr ((Place.run_congr hw).trans h)
  exact ⟨spelledOut ts, p, hp, hw⟩

/-! ### Completions -/

namespace Place

/-- Finished tokens lead from the place behind the program. -/
def Completed (p : Place) (ts : List Token) : Prop := Finished ts ∧ p.run ts = some done

theorem Completed.cons {p q : Place} {e : Terminal} {t : Token} {ts : List Token}
    (h : (e, q) ∈ p.moves) (ha : e.admits t = true) (ht : t.kind.Spells t.text)
    (hts : q.Completed ts) : p.Completed (t :: ts) :=
  ⟨.cons ht hts.1, run_cons_eq_some_iff.mpr ⟨q, step_of_mem h ha, hts.2⟩⟩

/-- A sample of each class but the end of the input. -/
theorem exists_sample {e : Terminal} (h : e ∈ classes) (he : e.kind ≠ .endOfInput) :
    ∃ t, e.admits t = true ∧ t.kind.Spells t.text := by
  have hmark : ∀ b, isPunctuation b = true →
      ∃ t, (mark b).admits t = true ∧ t.kind.Spells t.text :=
    fun b hb => ⟨⟨.punctuation, [b], 0⟩, admits_mark.mpr ⟨rfl, rfl⟩, b, hb, rfl⟩
  simp only [classes, List.mem_cons, List.not_mem_nil, or_false] at h
  rcases h with rfl | rfl | rfl | rfl | rfl | rfl | rfl | rfl | rfl | rfl | rfl
  · exact ⟨⟨.identifier, ascii "fn", 0⟩, by decide, isIdentifier_fn⟩
  · exact ⟨⟨.identifier, ascii "main", 0⟩, by decide, isIdentifier_main⟩
  · exact hmark _ (by decide)
  · exact hmark _ (by decide)
  · exact hmark _ (by decide)
  · exact hmark _ (by decide)
  · exact hmark _ (by decide)
  · exact hmark _ (by decide)
  · exact ⟨⟨.macroName, ascii "a!", 0⟩, by decide, ascii "a", by decide,
      List.all_eq_true.mp (by decide), rfl⟩
  · exact ⟨⟨.literal, inQuotes [], 0⟩, by decide, [], by decide, rfl⟩
  · exact absurd rfl he

theorem exists_completed_of_move {p q : Place} {e : Terminal} (h : (e, q) ∈ p.moves)
    (he : e.kind ≠ .endOfInput) (hq : ∃ ts, q.Completed ts) : ∃ ts, p.Completed ts := by
  obtain ⟨ts, hts⟩ := hq
  obtain ⟨t, ha, ht⟩ := exists_sample (mem_classes_of_mem_moves _ h) he
  exact ⟨t :: ts, hts.cons h ha ht⟩

/-- **Every place before the end can be completed.** -/
theorem exists_completion {p : Place} (hp : p ≠ done) : ∃ ts, p.Completed ts := by
  -- from the end of the program backwards, a move from each place to one already completed
  have hfinish : ∃ ts, finish.Completed ts :=
    ⟨[⟨.endOfInput, [], 0⟩], .last rfl, by decide⟩
  have hstatement : ∃ ts, statement.Completed ts :=
    exists_completed_of_move (by decide : (mark closeBrace, finish) ∈ _) (by decide) hfinish
  have hsemicolon : ∃ ts, semicolon.Completed ts :=
    exists_completed_of_move (by decide : (mark 0x3B, statement) ∈ _) (by decide) hstatement
  have hargument : ∃ ts, argument.Completed ts :=
    exists_completed_of_move (by decide : (mark 0x29, semicolon) ∈ _) (by decide) hsemicolon
  have hbodyOpen : ∃ ts, bodyOpen.Completed ts :=
    exists_completed_of_move (by decide : (mark openBrace, statement) ∈ _) (by decide) hstatement
  have hparamsClose : ∃ ts, paramsClose.Completed ts :=
    exists_completed_of_move (by decide : (mark 0x29, bodyOpen) ∈ _) (by decide) hbodyOpen
  have hparamsOpen : ∃ ts, paramsOpen.Completed ts :=
    exists_completed_of_move (by decide : (mark 0x28, paramsClose) ∈ _) (by decide) hparamsClose
  have hmain : ∃ ts, main.Completed ts :=
    exists_completed_of_move (by decide : (keyword "main", paramsOpen) ∈ _) (by decide) hparamsOpen
  cases p with
  | fn => exact exists_completed_of_move (by decide : (keyword "fn", main) ∈ _) (by decide) hmain
  | argsOpen =>
    exact exists_completed_of_move (by decide : (mark 0x28, argument) ∈ _) (by decide) hargument
  | separator =>
    exact exists_completed_of_move (by decide : (mark 0x29, semicolon) ∈ _) (by decide) hsemicolon
  | done => exact absurd rfl hp
  | _ => assumption

/-- A completion can start with any terminal of the place. -/
theorem exists_completion_of_mem {p q : Place} {e : Terminal} (h : (e, q) ∈ p.moves) :
    ∃ t ts, e.admits t = true ∧ p.Completed (t :: ts) := by
  have hclass := mem_classes_of_mem_moves _ h
  have hfinal := (eq_done_iff_of_mem h).2
  by_cases hq : q = done
  · have hall : ∀ e ∈ classes, e.kind = .endOfInput → e = ⟨.endOfInput, []⟩ := by decide
    have he := hall e hclass (hfinal.mp hq)
    subst he hq
    refine ⟨⟨.endOfInput, [], 0⟩, [], admits_kind.mpr rfl, .last rfl, ?_⟩
    rw [run_cons_eq_some_iff]
    exact ⟨done, step_of_mem h (admits_kind.mpr rfl), rfl⟩
  · obtain ⟨ts, hts⟩ := exists_completion hq
    obtain ⟨t, ha, ht⟩ := exists_sample hclass fun hk => hq (hfinal.mpr hk)
    exact ⟨t, ts, ha, hts.cons h ha ht⟩

/-- Tokens that are not final do not lead behind the program. -/
theorem ne_done_of_run {p q : Place} {ts : List Token} (hts : ∀ t ∈ ts, t.isFinal = false)
    (hp : p ≠ done) (h : p.run ts = some q) : q ≠ done := by
  induction ts generalizing p with
  | nil =>
    cases h
    exact hp
  | cons t ts ih =>
    obtain ⟨r, hstep, h⟩ := run_cons_eq_some_iff.mp h
    refine ih (fun u hu => hts u (by simp [hu])) ?_ h
    rw [Ne, ← isFinal_iff_of_step hstep, hts t (by simp)]
    simp

theorem expected_pairwise_lt (p : Place) : p.expected.Pairwise (· < ·) := by
  cases p <;> decide

theorem expected_ne_nil {p : Place} (hp : p ≠ done) : p.expected ≠ [] := by
  cases p with
  | done => exact absurd rfl hp
  | _ => simp [expected, moves]

end Place

/-! ### Syntax errors -/

section Follow

variable {ts : List Token} {q : Place} (hts : ∀ t ∈ ts, t.kind.Spells t.text)
  (hq : Place.fn.run ts = some q)
include hts hq

theorem accepted_append {us : List Token} (hus : q.Completed us) : Accepted (ts ++ us) := by
  refine accepted_of_run (.append hts hus.1) ?_
  rw [Place.run_append, hq]
  exact hus.2

omit hts in
theorem Accepted.exists_move {t : Token} {us : List Token} (h : Accepted (ts ++ t :: us)) :
    ∃ e r, (e, r) ∈ q.moves ∧ e.admits t = true := by
  have hrun := h.run_eq
  rw [Place.run_append, hq, Option.bind_some] at hrun
  obtain ⟨r, hstep, -⟩ := Place.run_cons_eq_some_iff.mp hrun
  obtain ⟨e, hmem, ha⟩ := Place.step_eq_some_iff.mp hstep
  exact ⟨e, r, hmem, ha⟩

/-- **The expected list** describes exactly the classes of tokens that can follow. -/
theorem mem_expected_iff {d : Text} :
    d ∈ q.expected ↔ ∃ c ∈ classes, c.description = d ∧
      ∃ t us, c.admits t = true ∧ Accepted (ts ++ t :: us) := by
  rw [Place.expected, List.mem_map]
  constructor
  · rintro ⟨⟨e, r⟩, hmem, rfl⟩
    obtain ⟨t, us, ha, hus⟩ := Place.exists_completion_of_mem hmem
    exact ⟨e, mem_classes_of_mem_moves _ hmem, rfl, t, us, ha, accepted_append hts hq hus⟩
  · rintro ⟨c, hc, rfl, t, us, ha, hacc⟩
    obtain ⟨e, r, hmem, he⟩ := hacc.exists_move hq
    refine ⟨(e, r), hmem, ?_⟩
    rw [classes_unique hc (mem_classes_of_mem_moves _ hmem) ha he]

end Follow

/-- **Syntax errors are leftmost and their expected lists exact.** The tokens before the error start
an accepted sequence and with the offending token they do not; what is expected is the list, in byte
order and without repetition, of the descriptions of the classes of tokens that can follow. -/
theorem syntaxError_leftmost_and_exact (src : Text) (e : SyntaxError) (h : parse src = .error e) :
    let ts := src.tokens.filter fun t => (t.start : Int) < e.offset
    ∃ t vs expected, src.tokens = ts ++ t :: vs ∧ t.start = e.offset ∧ t.span = e.span ∧
      t.text = e.found ∧ (∃ us, Accepted (ts ++ us)) ∧ (∀ us, ¬ Accepted (ts ++ t :: us)) ∧
      e.expected = some expected ∧ expected ≠ [] ∧ expected.Pairwise (· < ·) ∧
      ∀ d, d ∈ expected ↔ ∃ c ∈ classes, c.description = d ∧
        ∃ u us, c.admits u = true ∧ Accepted (ts ++ u :: us) := by
  obtain ⟨us, t, vs, q, htok, hrun, hstep, rfl⟩ := parse_eq_error_iff.mp h
  have htiles := src.tiles_tokens
  rw [htok] at htiles
  have hspell := htiles.spells
  have hq : q ≠ .done :=
    Place.ne_done_of_run (fun u hu => (hspell u hu).not_isFinal) (by decide) hrun
  intro ts
  have hts : ts = us := by
    simp only [ts, htok]
    exact htiles.filter_start_lt
  rw [hts]
  refine ⟨t, vs, q.expected, htok, rfl, rfl, rfl, ?_, ?_, rfl, Place.expected_ne_nil hq,
    q.expected_pairwise_lt, fun d => mem_expected_iff hspell hrun⟩
  · obtain ⟨ws, hws⟩ := Place.exists_completion hq
    exact ⟨ws, accepted_append hspell hrun hws⟩
  · intro ws hacc
    obtain ⟨e, r, hmem, ha⟩ := hacc.exists_move hrun
    rw [Place.step_of_mem hmem ha] at hstep
    cases hstep

/-- A comma where the first argument or the closing parenthesis is due. -/
theorem syntaxError_at_leading_comma :
    ∃ e, parse (ascii "fn main()\x7blog!(,") = .error e ∧ e.offset = 15 ∧ e.found = ascii "," ∧
      ∃ ts, (∃ us, Accepted (ts ++ us)) ∧
        ∀ d, d ∈ [ascii "\")\"", ascii "string literal"] ↔ ∃ c ∈ classes, c.description = d ∧
          ∃ u us, c.admits u = true ∧ Accepted (ts ++ u :: us) := by
  have h : parse (ascii "fn main()\x7blog!(,") = .error ⟨.unexpectedToken, 15, 1, 16, ⟨15, 16⟩,
      ascii ",", some [ascii "\")\"", ascii "string literal"], ascii "Statement"⟩ := by
    rw [parse_eq_outcome]
    decide +kernel
  obtain ⟨t, vs, expected, -, -, -, -, hacc, -, hexp, -, -, hd⟩ :=
    syntaxError_leftmost_and_exact _ _ h
  cases hexp
  exact ⟨_, h, rfl, rfl, _, hacc, hd⟩

end MacroCalls
