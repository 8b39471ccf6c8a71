import MacroCalls.Proofs.Munch
import MacroCalls.Proofs.Spans
import MacroCalls.Proofs.Utf8

/-!
# Scanning a whole text

Asked again and again, the scanner gives the tokens of the text one by one and then the same final
token for ever. Each token of a tiling is the first lexeme of what is left of the text where it
starts (`Tiles.stands`), so what is known of the first lexeme of a text holds of every token that
is handed out: nothing but blanks lies between the tokens, each is the longest that any rule
matches, and the last stands at the end of the text or where no rule matches.

Main statement: `scanner_munches`.
-/

namespace MacroCalls

open Text LexicalRule

/-! ### Runes -/

/-- The text `w` is the first rune of `t`: the encoding of a scalar value, or a single byte where
no encoding stands. -/
def Text.IsFirstRune (t w : Text) : Prop :=
  w <+: t ∧
    ((∃ c : Char, w = String.utf8EncodeChar c) ∨
      w.length = 1 ∧ ∀ c : Char, ¬ String.utf8EncodeChar c <+: t)

theorem Glyph.isFirstRune_bytes_first (b : UInt8) (t : Text) :
    IsFirstRune (b :: t) (Glyph.first b t).bytes := by
  refine ⟨⟨_, bytes_first_append_drop b t⟩, ?_⟩
  cases hfirst : Glyph.first b t with
  | scalar c => exact .inl ⟨c, encode_eq_utf8EncodeChar c⟩
  | stray b' =>
    refine .inr ⟨rfl, fun c hc => ?_⟩
    rw [← encode_eq_utf8EncodeChar] at hc
    rw [first_eq_scalar_iff.mpr hc] at hfirst
    cases hfirst

/-! ### Tokens where they stand -/

/-- The token stands where it starts: it is the first lexeme there, or nothing is left, or no rule
takes anything. -/
inductive Token.Stands (src : Text) : Token → Prop
  | lexeme {k : Token.Kind} {w : Text} {o : Nat} (h : Token.lexeme? (src.drop o) = some (k, w)) :
      Stands src ⟨k, w, o⟩
  | finish : Stands src ⟨.endOfInput, [], src.length⟩
  | stuck {b : UInt8} {rest : Text} {o : Nat} (hdrop : src.drop o = b :: rest)
      (hb : isBlank b = false) (h : Token.lexeme? (b :: rest) = none) :
      Stands src ⟨.invalid, (Glyph.first b rest).bytes, o⟩

theorem Tiles.stands {o : Nat} {t : Text} {ts : List Token} (h : Tiles o t ts) {front : Text}
    (hf : front.length = o) : ∀ u ∈ ts, u.Stands (front ++ t) := by
  induction h generalizing front with
  | @done o g hg =>
    intro u hu
    rw [List.mem_singleton] at hu
    subst hu
    have hlen : o + g.length = (front ++ g).length := by rw [List.length_append, hf]
    rw [hlen]
    exact .finish
  | @stuck o g rest b hg hb h =>
    intro u hu
    rw [List.mem_singleton] at hu
    subst hu
    refine .stuck ?_ hb h
    rw [← List.append_assoc, ← hf, ← List.length_append, List.drop_left]
  | @token o g w rest k ts hg hw ha h ih =>
    intro u hu
    rcases List.mem_cons.mp hu with rfl | hu
    · have hdrop : (front ++ (g ++ (w ++ rest))).drop (o + g.length) = w ++ rest := by
        rw [← List.append_assoc, ← hf, ← List.length_append, List.drop_left]
      refine .lexeme ?_
      rw [hdrop]
      exact Token.lexeme?_eq_some_iff.mpr ⟨hw, rest, rfl, ha⟩
    · have hlen : (front ++ g ++ w).length = o + g.length + w.length := by
        rw [List.length_append, List.length_append, hf]
      have := ih hlen u hu
      rwa [List.append_assoc, List.append_assoc] at this

namespace Token.Stands

variable {src : Text} {u : Token}

theorem lexeme?_eq (h : u.Stands src) (hu : u.isFinal = false) :
    Token.lexeme? (src.drop u.start) = some (u.kind, u.text) := by
  cases h with
  | lexeme h => exact h
  | finish => simp [isFinal] at hu
  | stuck hdrop hb h => simp [isFinal] at hu

theorem lt_length {b : UInt8} {rest : Text} {o : Nat} (h : src.drop o = b :: rest) :
    o < src.length := by
  have hlen := congrArg List.length h
  rw [List.length_drop, List.length_cons] at hlen
  omega

theorem ne_length {k : Token.Kind} {w : Text} {o : Nat}
    (h : Token.lexeme? (src.drop o) = some (k, w)) : o ≠ src.length := by
  rintro rfl
  rw [List.drop_length] at h
  cases h

/-- **The end of the input** is where nothing is left. -/
theorem kind_eq_endOfInput_iff (h : u.Stands src) :
    u.kind = .endOfInput ↔ u.start = src.length := by
  cases h with
  | lexeme h =>
    have hspells := (Token.lexeme?_eq_some_iff.mp h).1
    refine ⟨?_, fun hstart => absurd hstart (ne_length h)⟩
    rintro rfl
    exact hspells.elim
  | finish => simp
  | stuck hdrop hb h =>
    refine iff_of_false ?_ (lt_length hdrop).ne
    rintro ⟨⟩

theorem text_eq_nil_iff (h : u.Stands src) : u.text = [] ↔ u.start = src.length := by
  cases h with
  | lexeme h =>
    have hne := (Token.lexeme?_eq_some_iff.mp h).1.ne_nil
    exact iff_of_false hne (ne_length h)
  | finish => simp
  | stuck hdrop hb h => exact iff_of_false (Glyph.bytes_ne_nil _) (lt_length hdrop).ne

/-- **A token is invalid** where something is left and no rule matches. -/
theorem kind_eq_invalid_iff (h : u.Stands src) :
    u.kind = .invalid ↔ u.start < src.length ∧ ∀ r : LexicalRule, r.Fails (src.drop u.start) := by
  cases h with
  | lexeme h =>
    obtain ⟨hspells, rest, hdrop, -⟩ := Token.lexeme?_eq_some_iff.mp h
    obtain ⟨r, -, hr⟩ := Scanner.exists_rule_of_lexeme? h
    constructor
    · rintro rfl
      exact hspells.elim
    · rintro ⟨-, hfails⟩
      exact absurd (matches_of_lexeme? hr) (hfails r _ ⟨rest, hdrop.symm⟩)
  | finish => simp
  | stuck hdrop hb h =>
    refine ⟨fun _ => ⟨lt_length hdrop, fun r => ?_⟩, fun _ => rfl⟩
    rw [hdrop]
    exact Token.fails_of_lexeme?_eq_none hb h r

theorem isFirstRune (h : u.Stands src) (hk : u.kind = .invalid) :
    IsFirstRune (src.drop u.start) u.text := by
  cases h with
  | lexeme h =>
    have hspells := (Token.lexeme?_eq_some_iff.mp h).1
    cases hk
    exact hspells.elim
  | finish => cases hk
  | stuck hdrop hb h =>
    rw [hdrop]
    exact Glyph.isFirstRune_bytes_first _ _

end Token.Stands

/-! ### All tokens, one behind the other -/

/-- Runs of blanks and tokens follow each other from offset `i` to offset `j` and leave nothing
between them. -/
inductive Contiguous (src : Text) : Nat → List Token → Nat → Prop
  | blanks {i j : Nat} (hij : i ≤ j) (hj : j ≤ src.length) (hg : IsBlankRun (src.slice i j)) :
      Contiguous src i [] j
  | token {i j : Nat} {t : Token} {ts : List Token} (hi : i ≤ t.start)
      (hg : IsBlankRun (src.slice i t.start)) (h : Contiguous src t.stop ts j) :
      Contiguous src i (t :: ts) j

theorem Tiles.contiguous {o : Nat} {t : Text} {ts : List Token} {z : Token}
    (h : Tiles o t (ts ++ [z])) {front : Text} (hf : front.length = o) :
    Contiguous (front ++ t) o ts z.start := by
  induction ts generalizing o t front with
  | nil =>
    obtain ⟨g, rest, rfl, hg, hstart⟩ := h.exists_blank_front
    obtain ⟨hslice, hle⟩ := slice_append_of_length (w := g) (c := rest) hf
    rw [hstart]
    exact .blanks (Nat.le_add_right ..) hle (hslice.symm ▸ hg)
  | cons u ts ih =>
    obtain ⟨g, rest, rfl, hg, -, -, hstart, h⟩ := h.exists_of_cons (by simp)
    obtain ⟨hslice, -⟩ := slice_append_of_length (w := g) (c := u.text ++ rest) hf
    refine .token (by omega) (hstart ▸ hslice.symm ▸ hg) ?_
    have hlen : (front ++ g ++ u.text).length = u.stop := by
      rw [List.length_append, List.length_append, hf, Token.stop, hstart]
    have := ih h hlen
    rwa [List.append_assoc, List.append_assoc] at this

namespace Scanner

/-- **A final token is given again** by every later call. -/
theorem calls_of_isFinal {s : Scanner} (h : s.next.1.isFinal = true) (n : Nat) :
    s.calls n = List.replicate n s.next.1 := by
  induction n generalizing s with
  | zero => rfl
  | succ n ih =>
    have hnext := next_of_isFinal h
    rw [calls, ih (by rw [hnext]; exact h), hnext, List.replicate_succ]

/-- **Successive calls** give the tokens, and then the final one again and again. -/
theorem calls_of_tokens {s : Scanner} {ts : List Token} {z : Token} (h : s.tokens = ts ++ [z])
    (n : Nat) : s.calls (ts.length + n) = ts ++ List.replicate n z := by
  induction ts generalizing s with
  | nil =>
    rw [tokens_eq] at h
    split_ifs at h with hf
    · cases h
      rw [List.length_nil, Nat.zero_add, List.nil_append]
      exact calls_of_isFinal hf n
    · obtain ⟨us, z', heq, -⟩ := s.next.2.tiles_tokens.exists_final
      rw [heq] at h
      simp at h
  | cons t ts ih =>
    rw [tokens_eq] at h
    split_ifs at h with hf
    · simp at h
    · obtain ⟨ht, hts⟩ := List.cons.inj h
      rw [List.length_cons, Nat.add_right_comm, calls, ih hts, ht, List.cons_append]

end Scanner

/-! ### What the scanner gives -/

/-- The scanner gives the tokens `ts` of the text, and then the final token `z` for ever. -/
structure Scanned (src : Text) (ts : List Token) (z : Token) : Prop where
  calls : ∀ n, Scanner.calls (ts.length + n) ⟨src, 0⟩ = ts ++ List.replicate n z
  final : z.isFinal = true
  not_final : ∀ t ∈ ts, t.isFinal = false
  slice : ∀ t ∈ ts ++ [z], t.span.slice src = t.text
  ne_nil : ∀ t ∈ ts, t.text ≠ []
  /-- Nothing but blanks stands between the tokens. -/
  contiguous : Contiguous src 0 ts z.start
  /-- The rule of a token is the first that matches where the token starts, -/
  first : ∀ t ∈ ts, ∃ front r back, ordered = front ++ r :: back ∧ (r, t.kind) ∈ significant ∧
    r.Matches t.text ∧ ∀ s ∈ front, s.Fails (src.drop t.start)
  /-- and yet no rule at all matches more there. -/
  longest : ∀ t ∈ ts, ∀ (r : LexicalRule) (w : Text), w <+: src.drop t.start → r.Matches w →
    w.length ≤ t.text.length
  endOfInput_iff : z.kind = .endOfInput ↔ z.start = src.length
  invalid_iff : z.kind = .invalid ↔
    z.start < src.length ∧ ∀ r : LexicalRule, r.Fails (src.drop z.start)
  rune : z.kind = .invalid → IsFirstRune (src.drop z.start) z.text

/-- **The scanner is lossless and takes as much as it can**, on every text. -/
theorem scanner_munches (src : Text) : ∃ ts z, Scanned src ts z := by
  have htiles : Tiles 0 src (Scanner.tokens ⟨src, 0⟩) := Scanner.tiles_tokens ⟨src, 0⟩
  obtain ⟨ts, z, htokens, hz, hspells⟩ := htiles.exists_final
  rw [htokens] at htiles
  have hstands : ∀ t ∈ ts ++ [z], t.Stands src := htiles.stands List.length_nil
  have hslice : ∀ t ∈ ts ++ [z], src.slice t.start t.stop = t.text ∧ t.stop ≤ src.length :=
    htiles.slice_eq List.length_nil
  have hlexeme : ∀ t ∈ ts, Token.lexeme? (src.drop t.start) = some (t.kind, t.text) :=
    fun t ht => (hstands t (by simp [ht])).lexeme?_eq (hspells t ht).not_isFinal
  have hlast := hstands z (by simp)
  refine ⟨ts, z, ?_⟩
  constructor
  case calls => exact Scanner.calls_of_tokens htokens
  case final => exact hz
  case not_final => exact fun t ht => (hspells t ht).not_isFinal
  case slice =>
    intro t ht
    obtain ⟨heq, hle⟩ := hslice t ht
    have hspan : t.start ≤ t.stop := Nat.le_add_right ..
    rw [Token.span, Span.slice_natCast hspan hle, heq]
  case ne_nil => exact fun t ht => (hspells t ht).ne_nil
  case contiguous => exact htiles.contiguous List.length_nil
  case first => exact fun t ht => Token.exists_first_rule (hlexeme t ht)
  case longest => exact fun t ht r w hw hm => Token.length_le_of_lexeme? (hlexeme t ht) hw hm
  case endOfInput_iff => exact hlast.kind_eq_endOfInput_iff
  case invalid_iff => exact hlast.kind_eq_invalid_iff
  case rune => exact hlast.isFirstRune

example : Scanner.calls 4 ⟨ascii "ab!c \"", 0⟩ =
    [⟨.macroName, ascii "ab!", 0⟩, ⟨.identifier, ascii "c", 3⟩, ⟨.invalid, [quoteMark], 5⟩,
      ⟨.invalid, [quoteMark], 5⟩] := by
  decide +kernel

end MacroCalls
