import MacroCalls.Proofs.LineIndex
import MacroCalls.Proofs.Splicing

/-!
# Syntax errors are final

Tokens are read one at a time, each from its own bytes and the byte behind it. So the tokens up to
one that cannot come next are settled by the text up to that byte (`exists_tokens_of_take`), and
with them the error, its position included (`SyntaxError.atToken_congr`): nothing further back in
the text repairs it, or is even looked at.

A text that ends too early is the opposite case. What has been read of it leads to a place before
the end of the program, and every such place can be completed (`exists_parse_append_eq_ok`).

Main statement: `syntaxError_final`.
-/

namespace MacroCalls

open Text

/-! ### What a syntax error depends on -/

/-- The position of an offset is settled by what stands before it. -/
theorem SourceFile.position_congr {name src src' : Text} {n : Nat} (hn : n ≤ src.length)
    (h : src'.take n = src.take n) :
    (ofText name src').position n = (ofText name src).position n := by
  have hlen : (src.take n).length = n := List.length_take_of_le hn
  have hsrc := position_append name (src.take n) (src.drop n)
  have hsrc' := position_append name (src.take n) (src'.drop n)
  rw [List.take_append_drop, hlen] at hsrc
  rw [← h, List.take_append_drop, h, hlen] at hsrc'
  rw [hsrc, hsrc']

theorem SyntaxError.atToken_congr {src src' : Text} {q : Place} {t : Token}
    (hn : t.start ≤ src.length) (h : src'.take t.start = src.take t.start) :
    atToken src' q t = atToken src q t := by
  simp only [atToken, SourceFile.position_congr hn h]

theorem SyntaxError.Kind.ofToken_eq_unexpectedToken_iff {t : Token} :
    ofToken t.kind = .unexpectedToken ↔ t.isFinal = false := by
  obtain ⟨k, w, o⟩ := t
  cases k <;> simp [ofToken, Token.isFinal]

theorem SyntaxError.Kind.ofToken_eq_unexpectedEnd_iff {k : Token.Kind} :
    ofToken k = .unexpectedEnd ↔ k = .endOfInput := by
  cases k <;> simp [ofToken]

/-! ### The text up to an error -/

/-- **Tokens are settled one byte behind them**, whatever stands further back. -/
theorem exists_tokens_of_take {src src' : Text} {us vs : List Token} {t : Token}
    (htok : src.tokens = us ++ t :: vs) (ht : t.isFinal = false) (hlt : t.stop < src.length)
    (htake : src'.take (t.stop + 1) = src.take (t.stop + 1)) :
    ∃ vs', src'.tokens = us ++ t :: vs' := by
  have htiles := src.tiles_tokens
  rw [htok] at htiles
  obtain ⟨a, b, rfl, hlen, -, hreplace⟩ := htiles.exists_splice (htiles.ne_nil_behind ht)
  rw [Nat.zero_add] at hlen
  rw [← hlen] at htake hlt hreplace
  rcases b with _ | ⟨c, b⟩
  · simp at hlt
  · -- the byte behind the token is the same, and that is all an identifier looks at
    have hfront : (a ++ c :: b).take (a.length + 1) = a ++ [c] := List.take_length_add_append 1
    obtain ⟨b', hsrc'⟩ : ∃ b', src' = a ++ c :: b' := by
      refine ⟨src'.drop (a.length + 1), ?_⟩
      have := List.take_append_drop (a.length + 1) src'
      rw [htake, hfront, List.append_assoc] at this
      exact this.symm
    have htail := Scanner.tiles_tokens ⟨c :: b', a.length⟩
    have htiles' := hreplace (c :: b') _ (fun w hw => hw.of_head?_eq rfl) htail
    rw [← hsrc'] at htiles'
    exact ⟨_, Scanner.tokens_eq_iff.mpr htiles'⟩

/-! ### Texts that end too early -/

/-- **A text that ends too early** goes on to a program. -/
theorem exists_parse_append_eq_ok {src : Text} {us : List Token} {z : Token} {q : Place}
    (htok : src.tokens = us ++ [z]) (hz : z.kind = .endOfInput) (hrun : Place.fn.run us = some q) :
    ∃ tail p, parse (src ++ tail) = .ok p := by
  have htiles := src.tiles_tokens
  rw [htok] at htiles
  have hq : q ≠ .done :=
    Place.ne_done_of_run (fun u hu => (htiles.spells u hu).not_isFinal) (by decide) hrun
  obtain ⟨ts, hts, hdone⟩ := Place.exists_completion hq
  refine ⟨spelledOut ts, exists_parse_eq_ok_iff.mpr ?_⟩
  have hblank : ∀ c, (spelledOut ts).head? = some c → isBlank c = true := by
    intro c hc
    rcases ts with _ | ⟨t, ts⟩
    · cases hc
    · cases hc
      rfl
  have htail := Scanner.tiles_tokens ⟨spelledOut ts, 0 + src.length⟩
  have hall : (src ++ spelledOut ts).tokens = us ++ _ :=
    Scanner.tokens_eq_iff.mpr (htiles.append_blank hz hblank htail)
  rw [hall, Place.run_append, hrun, Option.bind_some,
    Place.run_congr (hts.map_word_tokens (0 + src.length)), hdone]

/-- **Syntax errors are final and decided by the text up to them.** Where a token cannot come next,
every text that agrees up to the byte behind the token has the same error in every field; where a
text ends too early, it goes on to a program. -/
theorem syntaxError_final (src : Text) (e : SyntaxError) (h : parse src = .error e) :
    (e.kind = .unexpectedToken → e.span.stop < src.length →
      ∀ src' : Text, src'.take (e.span.stop.toNat + 1) = src.take (e.span.stop.toNat + 1) →
        parse src' = .error e) ∧
    (e.kind = .unexpectedEnd → ∃ tail p, parse (src ++ tail) = .ok p) := by
  obtain ⟨us, t, vs, q, htok, hrun, hstep, rfl⟩ := parse_eq_error_iff.mp h
  constructor
  · intro hkind hlt src' htake
    have hstop : (SyntaxError.atToken src q t).span.stop = t.stop := rfl
    rw [hstop] at hlt htake
    rw [Int.toNat_natCast] at htake
    have ht : t.isFinal = false := SyntaxError.Kind.ofToken_eq_unexpectedToken_iff.mp hkind
    obtain ⟨vs', htok'⟩ := exists_tokens_of_take htok ht (by omega) htake
    have hle : t.start ≤ t.stop := by
      rw [Token.stop]
      omega
    -- the position of the error is settled by the text before its token
    have hbefore : src'.take t.start = src.take t.start := by
      have := congrArg (List.take t.start) htake
      rwa [List.take_take, List.take_take, Nat.min_eq_left (by omega)] at this
    have hsame : SyntaxError.atToken src' q t = SyntaxError.atToken src q t :=
      SyntaxError.atToken_congr (by omega) hbefore
    rw [← hsame]
    exact parse_eq_error_iff.mpr ⟨us, t, vs', q, htok', hrun, hstep, rfl⟩
  · intro hkind
    have hz : t.kind = .endOfInput := SyntaxError.Kind.ofToken_eq_unexpectedEnd_iff.mp hkind
    have htiles := src.tiles_tokens
    rw [htok] at htiles
    have hvs : vs = [] := htiles.eq_nil_behind (by simp [Token.isFinal, hz])
    rw [hvs] at htok
    exact exists_parse_append_eq_ok htok hz hrun

/-- Nothing repairs a comma where the first argument is due, and a text that ends there goes on. -/
theorem syntaxError_final_at_comma :
    (∀ tail, parse (ascii "fn main()\x7blog!(, " ++ tail) = .error ⟨.unexpectedToken, 15, 1, 16,
      ⟨15, 16⟩, ascii ",", some [ascii "\")\"", ascii "string literal"], ascii "Statement"⟩) ∧
    ∃ tail p, parse (ascii "fn main()\x7blog!(" ++ tail) = .ok p := by
  have hcomma : parse (ascii "fn main()\x7blog!(, ") = .error ⟨.unexpectedToken, 15, 1, 16,
      ⟨15, 16⟩, ascii ",", some [ascii "\")\"", ascii "string literal"], ascii "Statement"⟩ := by
    rw [parse_eq_outcome]
    decide +kernel
  have hend : parse (ascii "fn main()\x7blog!(") = .error ⟨.unexpectedEnd, 15, 1, 16,
      ⟨15, 15⟩, [], some [ascii "\")\"", ascii "string literal"], ascii "Statement"⟩ := by
    rw [parse_eq_outcome]
    decide +kernel
  refine ⟨fun tail => ?_, (syntaxError_final _ _ hend).2 rfl⟩
  exact (syntaxError_final _ _ hcomma).1 rfl (by decide) _ (by rfl)

end MacroCalls
