import MacroCalls.Proofs.Carets
import MacroCalls.Proofs.Rules
import MacroCalls.Report.Write

/-!
# Labels are cut between glyphs

Every label that is reported on a source is aligned with its glyphs. Tokens start and end with ASCII
bytes, except for an invalid one, which is a single glyph behind blanks or another token
(`Tiles.aligned`). Names and literals are tokens, and placeholders go from brace to brace. An
invalid format string is blamed on a single byte, which is a brace or stands behind an ASCII byte.
-/

namespace MacroCalls

open Text

/-- What can be reported on a source: that it does not parse, or what a check of its tree finds. -/
inductive Text.Fails (src : Text) : Failure → Prop
  | syntaxError {e : SyntaxError} : parse src = .error e → src.Fails (.syntaxError e)
  | diagnostic {p : Program} {ds : List Diagnostic} {d : Diagnostic} :
      parse src = .ok p → p.check = .ok ds → d ∈ ds → src.Fails (.diagnostic d)

/-! ### Stretches between ASCII bytes -/

/-- The text is not empty, and starts and ends with ASCII bytes. -/
structure Text.AsciiEnds (w : Text) : Prop where
  ne_nil : w ≠ []
  head : ∀ b ∈ w.head?, b < 0x80
  last : ∀ b ∈ w.getLast?, b < 0x80

theorem Text.asciiEnds_of_forall {w : Text} (hne : w ≠ []) (h : ∀ b ∈ w, b < 0x80) :
    w.AsciiEnds :=
  ⟨hne, fun b hb => h b (List.mem_of_mem_head? hb), fun b hb => h b (List.mem_of_getLast? hb)⟩

theorem Text.AsciiEnds.enclosed (b c : UInt8) (w : Text) (hb : b < 0x80) (hc : c < 0x80) :
    AsciiEnds (b :: (w ++ [c])) := by
  refine ⟨List.cons_ne_nil _ _, fun x hx => ?_, fun x hx => ?_⟩
  · cases hx
    exact hb
  · rw [← List.cons_append, List.getLast?_concat] at hx
    cases hx
    exact hc

/-- A stretch of a text that starts and ends with ASCII bytes is aligned. -/
theorem Text.AsciiEnds.aligned {w : Text} (h : w.AsciiEnds) (front rest : Text) :
    (Span.mk front.length (front.length + w.length : Nat)).Aligned (front ++ (w ++ rest)) := by
  refine ⟨_, _, rfl, Nat.le_add_right .., ?_, .inr ?_, .inl (.inl ?_)⟩
  · simp only [List.length_append]
    omega
  · rw [List.drop_left, List.head?_append_of_ne_nil _ h.ne_nil]
    exact h.head
  · rw [← List.append_assoc, ← List.length_append, List.take_left,
      List.getLast?_append_of_ne_nil _ h.ne_nil]
    exact h.last

/-- A single byte is aligned if it is an ASCII byte or stands behind one. -/
theorem Span.aligned_byte {front rest : Text} {b : UInt8}
    (h : b < 0x80 ∨ ∀ c ∈ front.getLast?, c < 0x80) :
    (Span.mk front.length (front.length + 1 : Nat)).Aligned (front ++ b :: rest) := by
  refine ⟨_, _, rfl, Nat.le_add_right .., ?_, ?_, .inr ⟨b, rest, List.drop_left, .inl rfl⟩⟩
  · simp only [List.length_append, List.length_cons]
    omega
  · rcases h with h | h
    · refine .inr fun c hc => ?_
      rw [List.drop_left] at hc
      cases hc
      exact h
    · refine .inl fun c hc => ?_
      rw [List.take_left] at hc
      exact h c hc

/-- A span over a stretch that starts and ends with ASCII bytes is aligned. -/
theorem Span.Inside.aligned {s : Span} {src : Text} (h : s.Inside src)
    (hw : (s.slice src).AsciiEnds) : s.Aligned src := by
  obtain ⟨front, rest, hsrc, hs⟩ := h.exists_append
  have haligned := hw.aligned front rest
  rwa [← hs, ← hsrc] at haligned

/-! ### Tokens -/

theorem lt_of_isIdentRest {b : UInt8} (h : isIdentRest b = true) : b < 0x80 := by
  simp only [isIdentRest, isIdentStart, isLower, Bool.or_eq_true, Bool.and_eq_true,
    decide_eq_true_eq, beq_iff_eq, UInt8.le_iff_toNat_le, UInt8.reduceToNat] at h
  rw [UInt8.lt_iff_toNat_lt]
  rcases h with ((h | h) | rfl) | h
  · exact Nat.lt_of_le_of_lt h.2 (by decide)
  · exact Nat.lt_of_le_of_lt h.2 (by decide)
  · decide
  · exact Nat.lt_of_le_of_lt h.2 (by decide)

theorem lt_of_isPunctuation {b : UInt8} (h : isPunctuation b = true) : b < 0x80 := by
  simp only [isPunctuation, Bool.or_eq_true, beq_iff_eq] at h
  rcases h with ((((rfl | rfl) | rfl) | rfl) | rfl) | rfl <;> decide

theorem IsMacroName.asciiEnds {w : Text} (h : IsMacroName w) : w.AsciiEnds := by
  obtain ⟨run, -, hrun, rfl⟩ := h
  refine asciiEnds_of_forall (by simp) fun b hb => ?_
  rcases List.mem_append.mp hb with hb | hb
  · exact lt_of_isIdentRest (isIdentRest_of_isIdentStart (isIdentStart_of_isLower (hrun b hb)))
  · cases List.mem_singleton.mp hb
    decide

theorem asciiEnds_inQuotes (body : Text) : (inQuotes body).AsciiEnds :=
  .enclosed quoteMark quoteMark body (by decide) (by decide)

theorem Token.Kind.Spells.asciiEnds {k : Token.Kind} {w : Text} (h : k.Spells w) :
    w.AsciiEnds := by
  cases k with
  | invalid => exact h.elim
  | endOfInput => exact h.elim
  | macroName => exact IsMacroName.asciiEnds h
  | identifier =>
    exact asciiEnds_of_forall h.ne_nil fun b hb => lt_of_isIdentRest (IsIdentifier.isIdentRest h hb)
  | literal =>
    obtain ⟨body, -, rfl⟩ := h
    exact asciiEnds_inQuotes body
  | punctuation =>
    obtain ⟨b, hb, rfl⟩ := h
    refine asciiEnds_of_forall (List.cons_ne_nil _ _) fun c hc => ?_
    cases List.mem_singleton.mp hc
    exact lt_of_isPunctuation hb

/-- Behind blanks there is an ASCII byte if there was one before them. -/
theorem lt_of_getLast?_blank {front g : Text} (hfront : ∀ b ∈ front.getLast?, b < 0x80)
    (hg : IsBlankRun g) : ∀ b ∈ (front ++ g).getLast?, b < 0x80 := by
  intro b hb
  rw [List.getLast?_append, Option.mem_def, Option.or_eq_some_iff] at hb
  rcases hb with hb | ⟨-, hb⟩
  · exact lt_of_isBlank (hg b (List.mem_of_getLast? hb))
  · exact hfront b hb

/-- **Tokens are aligned** in the text that they tile. -/
theorem Tiles.aligned {o : Nat} {t : Text} {ts : List Token} (h : Tiles o t ts) (front : Text)
    (hlen : front.length = o) (hfront : ∀ b ∈ front.getLast?, b < 0x80) :
    ∀ u ∈ ts, u.span.Aligned (front ++ t) := by
  induction h generalizing front with
  | @done o g hg =>
    intro u hu
    cases List.mem_singleton.mp hu
    have hend : o + g.length = (front ++ g).length := by rw [List.length_append, hlen]
    have hseam : (front ++ g).Seam (o + g.length) := .inr (by simp [hend])
    exact ⟨_, _, rfl, Nat.le_refl _, Nat.le_of_eq hend, hseam, .inl hseam⟩
  | @stuck o g rest b hg hb h =>
    intro u hu
    cases List.mem_singleton.mp hu
    have hend : o + g.length = (front ++ g).length := by rw [List.length_append, hlen]
    have hwidth : (Glyph.first b rest).bytes.length ≤ rest.length + 1 := Glyph.width_first_le b rest
    rw [Token.span, Token.stop, ← List.append_assoc]
    dsimp only
    rw [hend]
    refine ⟨_, _, rfl, Nat.le_add_right .., ?_, .inl ?_,
      .inr ⟨b, rest, List.drop_left, .inr rfl⟩⟩
    · simp only [List.length_append, List.length_cons]
      omega
    · rw [List.take_left]
      exact lt_of_getLast?_blank hfront hg
  | @token o g w rest k ts hg hw ha h ih =>
    have hend : o + g.length = (front ++ g).length := by rw [List.length_append, hlen]
    intro u hu
    rw [← List.append_assoc]
    rcases List.mem_cons.mp hu with rfl | hu
    · rw [Token.span, Token.stop]
      dsimp only
      rw [hend]
      exact hw.asciiEnds.aligned (front ++ g) rest
    · rw [← List.append_assoc]
      refine ih _ ?_ ?_ u hu
      · rw [List.length_append, hend]
      · rw [List.getLast?_append_of_ne_nil _ hw.ne_nil]
        exact hw.asciiEnds.last

theorem aligned_of_mem_tokens {src : Text} {t : Token} (h : t ∈ src.tokens) :
    t.span.Aligned src :=
  src.tiles_tokens.aligned [] rfl nofun t h

/-! ### Parts of a format string -/

theorem Literal.Fits.placeholder_aligned {a : Literal} {src : Text} (h : a.Fits src)
    (hsrc : src.Addressable) {ps : List Piece} (hps : a.pieces = .ok ps) {s : Span}
    (hs : s ∈ Piece.placeholders ps) : s.Aligned src := by
  obtain ⟨piece, hpiece, rfl⟩ := List.mem_map.mp hs
  obtain ⟨hmem, hkind⟩ := List.mem_filter.mp hpiece
  have hstands := FormatString.stands_pieces (a.span.start + 1) 0 a.val
  rw [← Literal.pieces, hps] at hstands
  obtain ⟨front, blanks, rest, hval, -, hspan⟩ := hstands piece hmem (of_decide_eq_true hkind)
  obtain ⟨before, behind, rfl, hstart, -⟩ := h.exists_append
  have hcut : before ++ (a.val ++ behind) =
      before ++ front ++ (openBrace :: (blanks ++ [closeBrace]) ++ (rest ++ behind)) := by
    rw [hval]
    simp only [List.append_assoc]
  have hlo : (before.length : Int) + (0 + front.length : Nat) = (before ++ front).length := by
    rw [List.length_append]
    omega
  have hhi : (before.length : Int) + (0 + front.length + (blanks.length + 2) : Nat) =
      ((before ++ front).length + (openBrace :: (blanks ++ [closeBrace])).length : Nat) := by
    simp only [List.length_append, List.length_cons, List.length_nil]
    omega
  have hroom : (before ++ front).length + (openBrace :: (blanks ++ [closeBrace])).length <
      0x8000000000000000 := by
    unfold Addressable at hsrc
    simp only [hcut, List.length_append] at hsrc ⊢
    omega
  rw [hspan, hstart, hlo, hhi, wrap64_eq (by omega) (by omega), wrap64_eq (by omega) (by omega),
    hcut]
  exact (AsciiEnds.enclosed openBrace closeBrace blanks (by decide) (by decide)).aligned _ _

theorem Literal.Fits.formatError_aligned {a : Literal} {src : Text} (h : a.Fits src)
    (hsrc : src.Addressable) {e : FormatError} (he : a.pieces = .error e) :
    (Span.mk e.offset (wrap64 (e.offset + 1))).Aligned src := by
  have hstands := FormatString.stands_pieces (a.span.start + 1) 0 a.val
  rw [← Literal.pieces, he] at hstands
  obtain ⟨front, b, rest, hval, hoffset, hb⟩ := hstands
  obtain ⟨before, behind, rfl, hstart, hquote⟩ := h.exists_append
  have hcut : before ++ (a.val ++ behind) = before ++ front ++ b :: (rest ++ behind) := by
    rw [hval]
    simp only [List.append_assoc, List.cons_append]
  have hlo : (before.length : Int) + (0 + front.length : Nat) = (before ++ front).length := by
    rw [List.length_append]
    omega
  have hroom := hsrc
  rw [Addressable, hcut, List.length_append, List.length_cons] at hroom
  rw [hoffset, hstart, hlo, wrap64_eq (by omega) (by omega), wrap64_eq (by omega) (by omega), hcut]
  refine Span.aligned_byte (hb.imp_right ?_)
  rintro ⟨c, hlast, hc⟩ c' hc'
  rw [List.getLast?_append, hlast] at hc'
  cases hc'
  exact hc

/-! ### Labels -/

/-- The labels of a call's problem are aligned. -/
theorem Call.Fits.labels_aligned {c : Call} {src : Text} (h : c.Fits src)
    (hsrc : src.Addressable) {q : Problem} (hq : c.problem? = some q) :
    ∀ l ∈ q.diagnostic.labels, l.span.Aligned src := by
  intro l hl
  rcases Call.label_cases hq hl with
    hspan | ⟨a, ha, hspan⟩ | ⟨format, hformat, ⟨ps, hps, hspan⟩ | ⟨e, he, hspan⟩⟩
  · rw [hspan]
    exact h.name.inside.aligned (h.name.slice_eq ▸ h.name.isMacroName.asciiEnds)
  · rw [hspan]
    exact (h.args a ha).inside.aligned ((h.args a ha).slice_eq ▸ asciiEnds_inQuotes a.val)
  · exact (h.args format hformat).placeholder_aligned hsrc hps hspan
  · exact hspan ▸ (h.args format hformat).formatError_aligned hsrc he

/-- **Reported labels are aligned** in their source. -/
theorem Text.Fails.exists_aligned {src : Text} (hsrc : src.Addressable) {e : Failure}
    (h : src.Fails e) :
    ∃ d, e.reported? = some d ∧ ∀ l ∈ d.labels, l.span.Aligned src := by
  cases h with
  | @syntaxError e he =>
    obtain ⟨us, t, vs, q, htok, -, -, rfl⟩ := parse_eq_error_iff.mp he
    refine ⟨_, rfl, fun l hl => ?_⟩
    cases List.mem_singleton.mp hl
    exact aligned_of_mem_tokens (t := t) (by rw [htok]; simp)
  | @diagnostic p ds d hp hds hd =>
    have hfits : p.Fits src := (parse_eq_ok_iff_derives.mp hp).fits rfl
    have hgap : none ∉ p.statementList := by
      rw [Program.statementList, hfits.hasStatements]
      simp
    rw [Program.check_eq, Program.calls?_of_no_gap hgap] at hds
    cases hds
    obtain ⟨q, hq, rfl⟩ := List.mem_map.mp hd
    obtain ⟨c, hc, hq⟩ := List.mem_filterMap.mp hq
    exact ⟨_, rfl, (hfits.calls c hc).labels_aligned hsrc hq⟩

end MacroCalls
