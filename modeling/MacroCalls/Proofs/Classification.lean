import MacroCalls.Proofs.Finality
import MacroCalls.Proofs.LineIndex
import MacroCalls.Proofs.Scanning
import Mathlib.Data.List.DropRight

/-!
# What a syntax error says

The fields of a syntax error agree with each other and with the text. The offset, the span and the
text of the found token are those of the first token that cannot come next; line and column count
line feeds and runes before it; the kind says whether the text has ended there, whether no rule
matches there, or neither; and the context says whether the tokens before it leave a statement
open.

Main statement: `syntaxError_classifies`.
-/

namespace MacroCalls

open Text LexicalRule

/-! ### Runes of a text -/

/-- The text is cut into its runes. -/
inductive Text.Runes : Text → List Text → Prop
  | nil : Runes [] []
  | cons {w t : Text} {ws : List Text} (hw : IsFirstRune (w ++ t) w) (h : Runes t ws) :
      Runes (w ++ t) (w :: ws)

theorem Text.runes_glyphs (t : Text) : Runes t (t.glyphs.map Glyph.bytes) := by
  fun_induction glyphs t with
  | case1 => exact .nil
  | case2 b rest ih =>
    have hw := Glyph.isFirstRune_bytes_first b rest
    rw [← Glyph.bytes_first_append_drop b rest] at hw
    have hcons := Runes.cons hw ih
    rwa [Glyph.bytes_first_append_drop] at hcons

/-! ### Lines and columns -/

theorem Text.length_afterNewlines (o : Nat) (t : Text) :
    (afterNewlines o t).length = t.count newline := by
  induction t generalizing o with
  | nil => rfl
  | cons b t ih =>
    rw [afterNewlines, List.count_cons]
    by_cases hb : b = newline
    · simp [hb, ih]
    · simp [hb, ih]

/-- The bytes of a text behind its last line feed. -/
def Text.lastLine (t : Text) : Text := t.rtakeWhile (· != newline)

/-- The last line starts behind the last line feed. -/
theorem Text.drop_getLast_lineStarts (t : Text) :
    t.drop (t.lineStarts.getLast t.lineStarts_ne_nil) = t.lastLine := by
  induction t using List.reverseRecOn with
  | nil => rfl
  | append_singleton t b ih =>
    by_cases hb : b = newline
    · subst hb
      have hstarts : lineStarts (t ++ [newline]) = lineStarts t ++ [t.length + 1] :=
        lineStarts_append t [newline]
      have hlast : lastLine (t ++ [newline]) = [] := List.rtakeWhile_concat_neg _ _ _ (by simp)
      simp [hstarts, hlast]
    · have hstarts : lineStarts (t ++ [b]) = lineStarts t := by
        rw [lineStarts_append]
        simp [afterNewlines, hb]
      have hle : (lineStarts t).getLast (lineStarts_ne_nil t) ≤ t.length :=
        le_length_of_mem_lineStarts (List.getLast_mem _)
      have hlast : lastLine (t ++ [b]) = lastLine t ++ [b] :=
        List.rtakeWhile_concat_pos _ _ _ (by simpa using hb)
      simp only [hstarts, List.drop_append_of_le_length hle, ih, hlast]

/-- **The position of an offset** counts the line feeds before it, and the glyphs behind the last
of them. -/
theorem SourceFile.position_eq_count (name src : Text) {o : Nat} (ho : o ≤ src.length) :
    (ofText name src).position o =
      ⟨(src.take o).count newline + 1, glyphCount (lastLine (src.take o)) + 1⟩ := by
  have hposition := position_append name (src.take o) (src.drop o)
  rw [List.take_append_drop, List.length_take, Nat.min_eq_left ho, drop_getLast_lineStarts]
    at hposition
  rw [hposition, lineStarts, List.length_cons, length_afterNewlines]

/-! ### Open statements -/

/-- The token is a semicolon. -/
def Token.IsSemicolon (t : Token) : Prop := t.kind = .punctuation ∧ t.text = ascii ";"

/-- A macro name has been read, and no semicolon since. -/
def LeavesOpen (ts : List Token) : Prop :=
  ∃ front n back, ts = front ++ n :: back ∧ n.kind = .macroName ∧ ∀ t ∈ back, ¬ t.IsSemicolon

theorem leavesOpen_cons {t : Token} {ts : List Token} :
    LeavesOpen (t :: ts) ↔
      t.kind = .macroName ∧ (∀ u ∈ ts, ¬ u.IsSemicolon) ∨ LeavesOpen ts := by
  constructor
  · rintro ⟨front, n, back, heq, hn, hback⟩
    cases front with
    | nil =>
      cases heq
      exact .inl ⟨hn, hback⟩
    | cons u front =>
      cases heq
      exact .inr ⟨front, n, back, rfl, hn, hback⟩
  · rintro (⟨ht, hts⟩ | ⟨front, n, back, rfl, hn, hback⟩)
    · exact ⟨[], t, ts, rfl, ht, hts⟩
    · exact ⟨t :: front, n, back, rfl, hn, hback⟩

namespace Place

/-- A statement starts with its macro name and ends with its semicolon. -/
theorem inStatement_iff_of_mem {p q : Place} {e : Terminal} (h : (e, q) ∈ p.moves) :
    q.inStatement = true ↔ e.kind = .macroName ∨ p.inStatement = true ∧ e ≠ .mark 0x3B := by
  have hall : ∀ m ∈ p.moves, m.2.inStatement = true ↔
      m.1.kind = .macroName ∨ p.inStatement = true ∧ m.1 ≠ .mark 0x3B := by
    cases p <;> decide
  exact hall _ h

theorem isSemicolon_iff_of_mem {p q : Place} {e : Terminal} {t : Token} (h : (e, q) ∈ p.moves)
    (ha : e.admits t = true) : t.IsSemicolon ↔ e = .mark 0x3B := by
  have hall : ∀ m ∈ p.moves, m.1.kind = .punctuation → m.1.text ≠ [] := by
    cases p <;> decide
  obtain ⟨hkind, htext⟩ := Terminal.admits_iff.mp ha
  constructor
  · rintro ⟨hmark, hsemi⟩
    rw [hkind] at hmark
    have heq : e.text = ascii ";" := by
      rw [← hsemi, htext.resolve_left (hall _ h hmark)]
    obtain ⟨k, w⟩ := e
    cases hmark
    cases heq
    rfl
  · rintro rfl
    exact ⟨hkind, htext.resolve_left (hall _ h rfl)⟩

/-- **One token** opens a statement if it is a macro name, and ends one if it is a semicolon. -/
theorem inStatement_of_step {p q : Place} {t : Token} (h : p.step t = some q) :
    q.inStatement = true ↔ t.kind = .macroName ∨ p.inStatement = true ∧ ¬ t.IsSemicolon := by
  obtain ⟨e, hmem, ha⟩ := step_eq_some_iff.mp h
  rw [inStatement_iff_of_mem hmem, isSemicolon_iff_of_mem hmem ha, (Terminal.admits_iff.mp ha).1]

/-- **A run** ends inside a statement if it leaves one open. -/
theorem inStatement_of_run {p q : Place} {ts : List Token} (h : p.run ts = some q) :
    q.inStatement = true ↔
      LeavesOpen ts ∨ p.inStatement = true ∧ ∀ t ∈ ts, ¬ t.IsSemicolon := by
  induction ts generalizing p with
  | nil =>
    cases h
    simp [LeavesOpen]
  | cons t ts ih =>
    obtain ⟨r, hstep, hrun⟩ := run_cons_eq_some_iff.mp h
    rw [ih hrun, inStatement_of_step hstep, leavesOpen_cons, List.forall_mem_cons]
    tauto

end Place

/-! ### Lone quotes -/

theorem Glyph.bytes_first_ascii {b : UInt8} (h : b < 0x80) (t : Text) :
    (Glyph.first b t).bytes = [b] := by
  have hfirst := (first_of_encode_eq (encode_ascii h) t).1
  rw [List.nil_append] at hfirst
  rw [hfirst, bytes, encode_ascii h]

/-- No rule matches at a quote exactly if nothing closes it. -/
theorem LexicalRule.fails_quote_iff {rest : Text} :
    (∀ r : LexicalRule, r.Fails (quoteMark :: rest)) ↔ quoteMark ∉ rest := by
  constructor
  · intro hfails hmem
    obtain ⟨body, tail, rfl, hbody⟩ := List.eq_append_cons_of_mem hmem
    exact hfails literal (inQuotes body) ⟨tail, by simp [inQuotes]⟩ ⟨body, hbody, rfl⟩
  · intro hrest r w hw hm
    obtain ⟨b, v, rfl, hb⟩ := hm.exists_starts
    obtain ⟨rfl, hv⟩ := List.cons_prefix_cons.mp hw
    rcases eq_or_of_starts (show literal.starts quoteMark = true by decide) hb with
      rfl | ⟨h, -⟩ | ⟨h, -⟩
    · obtain ⟨body, -, heq⟩ := hm
      have hmem : quoteMark ∈ v := by rw [(List.cons.inj heq).2]; simp
      exact hrest (hv.subset hmem)
    · cases h
    · cases h

/-- **A token is a lone quote** where a quote stands with none behind it. -/
theorem Token.Stands.text_eq_quote_iff {src : Text} {u : Token} (h : u.Stands src) :
    u.text = [quoteMark] ↔ ∃ rest, src.drop u.start = quoteMark :: rest ∧ quoteMark ∉ rest := by
  cases h with
  | lexeme h =>
    obtain ⟨r, -, hr⟩ := Scanner.exists_rule_of_lexeme? h
    have hm := matches_of_lexeme? hr
    refine iff_of_false ?_ ?_
    · -- a quote by itself is no lexeme
      rintro rfl
      exact fails_quote_iff.mpr List.not_mem_nil r _ List.prefix_rfl hm
    · rintro ⟨rest, hdrop, hrest⟩
      have hfails := fails_quote_iff.mpr hrest r
      rw [← hdrop] at hfails
      exact hfails _ (lexeme?_isPrefix hr) hm
  | finish => simp
  | @stuck b rest o hdrop hb h =>
    have hfails := Token.fails_of_lexeme?_eq_none hb h
    constructor
    · intro hbytes
      dsimp only at hbytes
      have happend := Glyph.bytes_first_append_drop b rest
      rw [hbytes] at happend
      obtain rfl : quoteMark = b := (List.cons.inj happend).1
      exact ⟨rest, hdrop, fails_quote_iff.mp hfails⟩
    · rintro ⟨rest', hdrop', -⟩
      rw [hdrop] at hdrop'
      cases hdrop'
      have hascii : quoteMark < 0x80 := by decide
      exact Glyph.bytes_first_ascii hascii rest

/-! ### The fields of an error -/

theorem SyntaxError.Kind.ofToken_eq_invalidToken_iff {k : Token.Kind} :
    Kind.ofToken k = .invalidToken ↔ k = .invalid := by
  cases k <;> decide

theorem SyntaxError.Kind.ofToken_ne_other (k : Token.Kind) (n : Int) :
    Kind.ofToken k ≠ .other n := by
  cases k <;> simp [Kind.ofToken]

theorem SyntaxError.context_atToken (src : Text) (q : Place) (t : Token) :
    ((atToken src q t).context = ascii "Statement" ↔ q.inStatement = true) ∧
      ((atToken src q t).context = ascii "Main" ↔ ¬ q.inStatement = true) := by
  simp only [atToken, Place.context]
  cases q.inStatement <;> decide

theorem SyntaxError.context_atToken_ne_argList (src : Text) (q : Place) (t : Token) :
    (atToken src q t).context ≠ ascii "ArgList" := by
  simp only [atToken, Place.context]
  cases q.inStatement <;> decide

/-- The fields of the error agree with each other and with the text. -/
structure SyntaxError.Classifies (e : SyntaxError) (src : Text) : Prop where
  offset_eq : e.offset = e.span.start
  inside : 0 ≤ e.span.start ∧ e.span.start ≤ e.span.stop ∧ e.span.stop ≤ src.length
  found_eq : e.found = e.span.slice src
  line_eq : e.line = 1 + (src.take e.offset.toNat).count newline
  column_eq : ∃ rs, Runes (lastLine (src.take e.offset.toNat)) rs ∧ e.column = 1 + rs.length
  end_iff : e.kind = .unexpectedEnd ↔ e.offset = src.length
  empty_iff : e.found = [] ↔ e.offset = src.length
  invalid_iff : e.kind = .invalidToken ↔
    e.offset < src.length ∧ ∀ r : LexicalRule, r.Fails (src.drop e.offset.toNat)
  not_other : ∀ n, e.kind ≠ .other n
  rune : e.kind = .invalidToken → IsFirstRune (src.drop e.offset.toNat) e.found
  quote_iff : e.found = [quoteMark] ↔
    ∃ rest, src.drop e.offset.toNat = quoteMark :: rest ∧ quoteMark ∉ rest
  /-- The context is a statement if the tokens before the error leave one open, -/
  statement_iff : e.context = ascii "Statement" ↔
    LeavesOpen (src.tokens.filter fun t => (t.start : Int) < e.offset)
  /-- and otherwise the program as a whole. -/
  main_iff : e.context = ascii "Main" ↔
    ¬ LeavesOpen (src.tokens.filter fun t => (t.start : Int) < e.offset)
  not_argList : e.context ≠ ascii "ArgList"

/-- **Syntax errors classify the failure**, and their fields are consistent. -/
theorem syntaxError_classifies (src : Text) (e : SyntaxError) (h : parse src = .error e) :
    e.Classifies src := by
  obtain ⟨us, t, vs, q, htok, hrun, -, rfl⟩ := parse_eq_error_iff.mp h
  have htiles := src.tiles_tokens
  rw [htok] at htiles
  have hstands : t.Stands src := htiles.stands List.length_nil t (by simp)
  obtain ⟨hslice, hstop⟩ : src.slice t.start t.stop = t.text ∧ t.stop ≤ src.length :=
    htiles.slice_eq List.length_nil t (by simp)
  have hle : t.start ≤ t.stop := Nat.le_add_right ..
  have hposition := SourceFile.position_eq_count [] src (hle.trans hstop)
  have hbefore : src.tokens.filter (fun u => (u.start : Int) < t.start) = us := by
    rw [htok, htiles.filter_start_lt]
  have hopen : q.inStatement = true ↔ LeavesOpen us := by
    rw [Place.inStatement_of_run hrun]
    simp [Place.inStatement]
  rw [← hbefore] at hopen
  constructor
  case offset_eq => rfl
  case inside =>
    simp only [SyntaxError.atToken, Token.span]
    omega
  case found_eq =>
    simp only [SyntaxError.atToken, Token.span]
    rw [Span.slice_natCast hle hstop, hslice]
  case line_eq =>
    simp only [SyntaxError.atToken, hposition, Int.toNat_natCast]
    omega
  case column_eq =>
    refine ⟨_, runes_glyphs _, ?_⟩
    simp only [SyntaxError.atToken, hposition, Int.toNat_natCast, List.length_map, glyphCount]
    omega
  case end_iff =>
    simp only [SyntaxError.atToken, SyntaxError.Kind.ofToken_eq_unexpectedEnd_iff,
      hstands.kind_eq_endOfInput_iff, Int.natCast_inj]
  case empty_iff => simp only [SyntaxError.atToken, hstands.text_eq_nil_iff, Int.natCast_inj]
  case invalid_iff =>
    simp only [SyntaxError.atToken, SyntaxError.Kind.ofToken_eq_invalidToken_iff,
      hstands.kind_eq_invalid_iff, Int.ofNat_lt, Int.toNat_natCast]
  case not_other => exact SyntaxError.Kind.ofToken_ne_other t.kind
  case rune =>
    intro hk
    exact hstands.isFirstRune (SyntaxError.Kind.ofToken_eq_invalidToken_iff.mp hk)
  case quote_iff => exact hstands.text_eq_quote_iff
  case statement_iff => exact Iff.trans (SyntaxError.context_atToken src q t).1 hopen
  case main_iff => exact Iff.trans (SyntaxError.context_atToken src q t).2 (not_congr hopen)
  case not_argList => exact SyntaxError.context_atToken_ne_argList src q t

/-- A quote that nothing closes, behind a line feed and an accented letter of two bytes. -/
theorem syntaxError_classifies_lone_quote :
    let src := ascii "fn main()\x7b\nlog!(\"" ++ 0xC3 :: 0xA9 :: ascii "\", \"x);\x7d"
    let e : SyntaxError := ⟨.invalidToken, 22, 2, 11, ⟨22, 23⟩, [quoteMark],
      some [ascii "\")\"", ascii "string literal"], ascii "Statement"⟩
    parse src = .error e ∧ e.Classifies src := by
  intro src e
  have h : parse src = .error e := by
    rw [parse_eq_outcome]
    decide +kernel
  exact ⟨h, syntaxError_classifies src e h⟩

end MacroCalls
