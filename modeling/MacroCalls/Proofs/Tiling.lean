import MacroCalls.Proofs.Lexemes

/-!
# Tilings

The tokens of a text tile it: runs of blanks and tokens alternate from the first byte on, up to the
end of the text or to the place where no rule takes anything. `Tiles o t ts` says so of a text `t`
whose first byte has offset `o`, without the scanner; `tokens_eq_iff` says that the scanner gives
exactly this tiling. Everything about spans is read off the tiling: tokens stand where their offsets
say (`Tiles.slice_eq`), one behind the other (`Tiles.pairwise_stop_le_start`), and only the last one
is final (`Tiles.exists_final`).
-/

namespace MacroCalls

open Text

/-- **A tiling** of the text from offset `o` on by blanks and tokens. -/
inductive Tiles : Nat → Text → List Token → Prop
  /-- Nothing but blanks is left. -/
  | done {o : Nat} {g : Text} (hg : IsBlankRun g) : Tiles o g [⟨.endOfInput, [], o + g.length⟩]
  /-- No rule takes anything behind the blanks. -/
  | stuck {o : Nat} {g rest : Text} {b : UInt8} (hg : IsBlankRun g) (hb : isBlank b = false)
      (h : Token.lexeme? (b :: rest) = none) :
      Tiles o (g ++ b :: rest) [⟨.invalid, (Glyph.first b rest).bytes, o + g.length⟩]
  /-- A token stands behind the blanks. -/
  | token {o : Nat} {g w rest : Text} {k : Token.Kind} {ts : List Token} (hg : IsBlankRun g)
      (hw : k.Spells w) (ha : k = .identifier → Apart w rest)
      (h : Tiles (o + g.length + w.length) rest ts) :
      Tiles o (g ++ (w ++ rest)) (⟨k, w, o + g.length⟩ :: ts)

theorem Token.Kind.Spells.not_isFinal {k : Token.Kind} {w : Text} {o : Nat} (h : k.Spells w) :
    (⟨k, w, o⟩ : Token).isFinal = false := by
  cases k with
  | endOfInput => exact h.elim
  | invalid => exact h.elim
  | _ => rfl

namespace Scanner

theorem skipBlank_eq (s : Scanner) :
    s.skipBlank =
      ⟨s.rest.dropWhile isBlank, s.offset + (s.rest.takeWhile isBlank).length⟩ := by
  obtain ⟨t, o⟩ := s
  cases t with
  | nil => rfl
  | cons b t =>
    by_cases hb : isBlank b = true
    · simp [skipBlank, LexicalRule.lexeme?, hb, advance, drop_length_takeWhile]
    · simp [skipBlank, LexicalRule.lexeme?, hb]

/-- Blanks do nothing but move the next token. -/
theorem next_blank_append {g t : Text} {o : Nat} (hg : IsBlankRun g)
    (ht : ∀ b, t.head? = some b → isBlank b = false) :
    next ⟨g ++ t, o⟩ = token ⟨t, o + g.length⟩ := by
  rw [next, skipBlank_eq]
  dsimp only
  rw [takeWhile_append_of_head? hg ht, dropWhile_append_of_head? hg ht]

theorem token_snd_of_isFinal {s : Scanner} (h : s.token.1.isFinal = true) : s.token.2 = s := by
  unfold token at h ⊢
  split at h
  · rename_i k w hl
    have := (Token.lexeme?_eq_some_iff.mp hl).1.not_isFinal (o := s.offset)
    rw [this] at h
    cases h
  · rfl
  · rfl

theorem next_skipBlank (s : Scanner) : s.skipBlank.next = s.next := by
  have hhead : ∀ b, (s.rest.dropWhile isBlank).head? = some b → isBlank b = false :=
    fun b hb => head?_dropWhile_eq_some hb
  have htake := takeWhile_append_of_head? (List.forall_mem_nil _) hhead
  have hdrop := dropWhile_append_of_head? (List.forall_mem_nil _) hhead
  rw [List.nil_append] at htake hdrop
  simp only [next, skipBlank_eq, htake, hdrop, List.length_nil, Nat.add_zero]

/-- Behind a final token the scanner gives it again. -/
theorem next_of_isFinal {s : Scanner} (h : s.next.1.isFinal = true) : s.next.2.next = s.next := by
  have hsnd : s.next.2 = s.skipBlank := token_snd_of_isFinal h
  rw [hsnd, next_skipBlank]

theorem tokens_blank {g : Text} {o : Nat} (hg : IsBlankRun g) :
    tokens ⟨g, o⟩ = [⟨.endOfInput, [], o + g.length⟩] := by
  have hnext : next ⟨g, o⟩ = token ⟨[], o + g.length⟩ := by
    rw [← next_blank_append hg (by simp), List.append_nil]
  rw [tokens_eq, hnext]
  rfl

theorem tokens_blank_append_invalid {g t : Text} {b : UInt8} {o : Nat} (hg : IsBlankRun g)
    (hb : isBlank b = false) (h : Token.lexeme? (b :: t) = none) :
    tokens ⟨g ++ b :: t, o⟩ = [⟨.invalid, (Glyph.first b t).bytes, o + g.length⟩] := by
  have hnext : (next ⟨g ++ b :: t, o⟩).1 = ⟨.invalid, (Glyph.first b t).bytes, o + g.length⟩ := by
    rw [next_blank_append hg (by intro c hc; cases hc; exact hb)]
    simp only [token, h]
  rw [tokens_eq, hnext]
  rfl

theorem tokens_blank_append_token {g w rest : Text} {k : Token.Kind} {o : Nat} (hg : IsBlankRun g)
    (hw : k.Spells w) (ha : k = .identifier → Apart w rest) :
    tokens ⟨g ++ (w ++ rest), o⟩ =
      ⟨k, w, o + g.length⟩ :: tokens ⟨rest, o + g.length + w.length⟩ := by
  have hhead : ∀ b, (w ++ rest).head? = some b → isBlank b = false := by
    intro b hb
    obtain ⟨a, v, rfl⟩ := List.exists_cons_of_ne_nil hw.ne_nil
    exact hw.head_not_blank hb
  have hnext : next ⟨g ++ (w ++ rest), o⟩ =
      (⟨k, w, o + g.length⟩, ⟨rest, o + g.length + w.length⟩) := by
    rw [next_blank_append hg hhead]
    simp [token, Token.lexeme?_eq_some_iff.mpr ⟨hw, rest, rfl, ha⟩, advance]
  rw [tokens_eq, hnext]
  simp only [hw.not_isFinal]
  rfl

theorem tiles_tokens (s : Scanner) : Tiles s.offset s.rest s.tokens := by
  induction hn : s.rest.length using Nat.strong_induction_on generalizing s with
  | _ n ih =>
    obtain ⟨t, o⟩ := s
    have hg := isBlankRun_takeWhile t
    have hhead : ∀ b, (t.dropWhile isBlank).head? = some b → isBlank b = false :=
      fun b hb => head?_dropWhile_eq_some hb
    have ht : t = t.takeWhile isBlank ++ t.dropWhile isBlank :=
      List.takeWhile_append_dropWhile.symm
    generalize t.takeWhile isBlank = g at hg ht
    generalize t.dropWhile isBlank = u at hhead ht
    subst ht
    cases hl : Token.lexeme? u with
    | some kw =>
      obtain ⟨k, w⟩ := kw
      obtain ⟨hw, rest, rfl, ha⟩ := Token.lexeme?_eq_some_iff.mp hl
      rw [tokens_blank_append_token hg hw ha]
      refine Tiles.token hg hw ha (ih rest.length ?_ ⟨rest, _⟩ rfl)
      have := List.length_pos_iff.mpr hw.ne_nil
      simp only [List.length_append] at hn
      omega
    | none =>
      cases u with
      | nil =>
        rw [List.append_nil, tokens_blank hg]
        exact Tiles.done hg
      | cons b u =>
        rw [tokens_blank_append_invalid hg (hhead b rfl) hl]
        exact Tiles.stuck hg (hhead b rfl) hl

/-- **The scanner gives the tiling** of the text. -/
theorem tokens_eq_iff {t : Text} {o : Nat} {ts : List Token} :
    tokens ⟨t, o⟩ = ts ↔ Tiles o t ts := by
  constructor
  · rintro rfl
    exact tiles_tokens ⟨t, o⟩
  · intro h
    induction h with
    | done hg => exact tokens_blank hg
    | stuck hg hb h => exact tokens_blank_append_invalid hg hb h
    | token hg hw ha _ ih => rw [tokens_blank_append_token hg hw ha, ih]

end Scanner

/-! ### Where the tokens stand -/

theorem Text.slice_append_of_length {a w c : Text} {n : Nat} (h : a.length = n) :
    Text.slice (a ++ (w ++ c)) n (n + w.length) = w ∧
      n + w.length ≤ (a ++ (w ++ c)).length := by
  subst h
  constructor
  · rw [Text.slice, ← List.append_assoc, ← List.length_append, List.take_left, List.drop_left]
  · simp only [List.length_append]
    omega

namespace Tiles

variable {o : Nat} {t : Text} {ts : List Token}

/-- Only the last token is final; each of the others is spelled as its kind demands. -/
theorem exists_final (h : Tiles o t ts) :
    ∃ us z, ts = us ++ [z] ∧ z.isFinal = true ∧ ∀ u ∈ us, u.kind.Spells u.text := by
  induction h with
  | done hg => exact ⟨[], _, rfl, rfl, by simp⟩
  | stuck hg hb h => exact ⟨[], _, rfl, rfl, by simp⟩
  | token hg hw ha h ih =>
    obtain ⟨us, z, rfl, hz, hus⟩ := ih
    refine ⟨_ :: us, z, rfl, hz, fun u hu => ?_⟩
    rcases List.mem_cons.mp hu with rfl | hu
    · exact hw
    · exact hus u hu

theorem le_start (h : Tiles o t ts) : ∀ u ∈ ts, o ≤ u.start := by
  induction h with
  | done hg => simp
  | stuck hg hb h => simp
  | token hg hw ha h ih =>
    intro u hu
    rcases List.mem_cons.mp hu with rfl | hu
    · exact Nat.le_add_right ..
    · have := ih u hu
      omega

theorem pairwise_stop_le_start (h : Tiles o t ts) :
    ts.Pairwise fun a b => a.stop ≤ b.start := by
  induction h with
  | done hg => simp
  | stuck hg hb h => simp
  | token hg hw ha h ih => exact List.pairwise_cons.mpr ⟨fun b hb => h.le_start b hb, ih⟩

/-- A token with another behind it is spelled as its kind demands. -/
theorem spells {us vs : List Token} {u : Token} (h : Tiles o t (us ++ u :: vs)) :
    ∀ v ∈ us, v.kind.Spells v.text := by
  obtain ⟨ws, z, heq, -, hws⟩ := h.exists_final
  intro v hv
  rcases List.append_eq_append_iff.mp heq with ⟨as, rfl, -⟩ | ⟨as, rfl, hz⟩
  · exact hws v (by simp [hv])
  · -- then `u` would stand behind the last token
    cases as with
    | nil => exact hws v (by simpa using hv)
    | cons a as => simp at hz

/-- The tokens that start before a token are those before it. -/
theorem filter_start_lt {us vs : List Token} {u : Token} (h : Tiles o t (us ++ u :: vs)) :
    (us ++ u :: vs).filter (fun v => (v.start : Int) < u.start) = us := by
  have hpair := h.pairwise_stop_le_start
  rw [List.pairwise_append, List.pairwise_cons] at hpair
  obtain ⟨-, ⟨hvs, -⟩, hus⟩ := hpair
  have hbefore : us.filter (fun v => (v.start : Int) < u.start) = us := by
    refine List.filter_eq_self.mpr fun v hv => ?_
    have hpos := List.length_pos_iff.mpr (h.spells v hv).ne_nil
    have hle := hus v hv u (by simp)
    rw [Token.stop] at hle
    simp only [decide_eq_true_eq]
    omega
  have hbehind : (u :: vs).filter (fun v => (v.start : Int) < u.start) = [] := by
    refine List.filter_eq_nil_iff.mpr fun v hv => ?_
    simp only [decide_eq_true_eq]
    rcases List.mem_cons.mp hv with rfl | hv
    · omega
    · have hle := hvs v hv
      rw [Token.stop] at hle
      omega
  rw [List.filter_append, hbefore, hbehind, List.append_nil]

/-- **Tokens stand where they say**: the text at the offsets of a token is the token's. -/
theorem slice_eq (h : Tiles o t ts) {front : Text} (hf : front.length = o) :
    ∀ u ∈ ts, (front ++ t).slice u.start u.stop = u.text ∧ u.stop ≤ (front ++ t).length := by
  induction h generalizing front with
  | @done o g hg =>
    intro u hu
    rw [List.mem_singleton] at hu
    subst hu
    simp [Token.stop, Text.slice, hf]
  | @stuck o g rest b hg hb h =>
    intro u hu
    rw [List.mem_singleton] at hu
    subst hu
    rw [← Glyph.bytes_first_append_drop b rest, ← List.append_assoc]
    exact Text.slice_append_of_length (by rw [List.length_append, hf])
  | @token o g w rest k ts hg hw ha h ih =>
    intro u hu
    rcases List.mem_cons.mp hu with rfl | hu
    · rw [← List.append_assoc]
      exact Text.slice_append_of_length (by rw [List.length_append, hf])
    · have hlen : (front ++ g ++ w).length = o + g.length + w.length := by
        rw [List.length_append, List.length_append, hf]
      have := ih hlen u hu
      rwa [List.append_assoc, List.append_assoc] at this

/-- The first token stands behind blanks. -/
theorem exists_blank_front {u : Token} (h : Tiles o t (u :: ts)) :
    ∃ g rest, t = g ++ rest ∧ IsBlankRun g ∧ u.start = o + g.length := by
  cases h with
  | done hg => exact ⟨t, [], (List.append_nil t).symm, hg, rfl⟩
  | stuck hg hb h => exact ⟨_, _, rfl, hg, rfl⟩
  | token hg hw ha h => exact ⟨_, _, rfl, hg, rfl⟩

/-- Before the end of the input there is nothing but blanks. -/
theorem isBlankRun_of_endOfInput {z : Token} (h : Tiles o t [z]) (hz : z.kind = .endOfInput) :
    IsBlankRun t := by
  cases h with
  | done hg => exact hg
  | stuck hg hb h => cases hz
  | token hg hw ha h => cases h

/-- A token that is not the last stands behind blanks, and the others tile what is behind it. -/
theorem exists_of_cons {u : Token} (h : Tiles o t (u :: ts)) (hts : ts ≠ []) :
    ∃ g rest, t = g ++ (u.text ++ rest) ∧ IsBlankRun g ∧ u.kind.Spells u.text ∧
      (u.kind = .identifier → Apart u.text rest) ∧ u.start = o + g.length ∧
      Tiles u.stop rest ts := by
  cases h with
  | done hg => exact absurd rfl hts
  | stuck hg hb h => exact absurd rfl hts
  | token hg hw ha h => exact ⟨_, _, rfl, hg, hw, ha, rfl, h⟩

/-- What stands behind a token is tiled by the tokens behind it. -/
theorem exists_behind {us vs : List Token} {u : Token} (hvs : vs ≠ [])
    (h : Tiles o t (us ++ u :: vs)) :
    ∃ a b, t = a ++ b ∧ o + a.length = u.stop ∧ Tiles u.stop b vs := by
  induction us generalizing o t with
  | nil =>
    obtain ⟨g, rest, rfl, -, -, -, hstart, h⟩ := h.exists_of_cons hvs
    refine ⟨g ++ u.text, rest, (List.append_assoc ..).symm, ?_, h⟩
    rw [List.length_append, Token.stop, hstart]
    omega
  | cons v us ih =>
    obtain ⟨g, rest, rfl, -, -, -, hstart, h⟩ := h.exists_of_cons (by simp)
    obtain ⟨a, b, rfl, hlen, hb⟩ := ih h
    refine ⟨g ++ v.text ++ a, b, by simp only [List.append_assoc], ?_, hb⟩
    rw [← hlen, Token.stop, hstart]
    simp only [List.length_append]
    omega

end Tiles

end MacroCalls
