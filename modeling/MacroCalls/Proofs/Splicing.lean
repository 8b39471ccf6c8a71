import MacroCalls.Proofs.Expectation

/-!
# Splicing texts between tokens

A token is decided by its own bytes and, if it is an identifier, by the byte behind it. So what
stands behind a token can be replaced without a change to the tokens up to it, as long as the
replacement neither goes on with an identifier nor makes a macro name of it (`Tiles.exists_splice`).
Blanks never do (`apart_of_head?_blank`). How the tokens of the replacement are read does not depend
on the offset at which they are read (`Tiles.exists_shift`), except for where they start.
-/

namespace MacroCalls

open Text

/-! ### What may follow an identifier -/

theorem Apart.of_head?_eq {w b b' : Text} (h : Apart w b) (hhead : b'.head? = b.head?) :
    Apart w b' := by
  intro c hc
  exact h c (hhead ▸ hc)

/-- What starts with a blank may follow any identifier. -/
theorem apart_of_head?_blank {w b : Text} (h : ∀ c, b.head? = some c → isBlank c = true) :
    Apart w b := by
  intro c hc
  have hblank := h c hc
  exact ⟨not_isIdentRest_of_isBlank hblank, fun hbang => absurd hbang (ne_bang_of_isBlank hblank)⟩

/-- What starts with a blank may be put behind what follows an identifier. -/
theorem Apart.append_blank {w b tail : Text} (h : Apart w b)
    (htail : ∀ c, tail.head? = some c → isBlank c = true) : Apart w (b ++ tail) := by
  rcases b with _ | ⟨c, b⟩
  · exact apart_of_head?_blank htail
  · exact h.of_head?_eq rfl

/-- Blanks may be put before what follows an identifier. -/
theorem Apart.blank_append {w b g : Text} (h : Apart w b) (hg : IsBlankRun g) :
    Apart w (g ++ b) := by
  rcases g with _ | ⟨c, g⟩
  · exact h
  · exact apart_blank_append hg (List.cons_ne_nil c g) w b

namespace Tiles

variable {o : Nat} {t : Text} {ts : List Token}

/-! ### The last token -/

/-- Behind a token that is not final there is another. -/
theorem ne_nil_behind {us vs : List Token} {u : Token} (h : Tiles o t (us ++ u :: vs))
    (hu : u.isFinal = false) : vs ≠ [] := by
  rintro rfl
  obtain ⟨ws, z, heq, hz, -⟩ := h.exists_final
  obtain ⟨-, hlast⟩ := List.append_inj' heq rfl
  cases hlast
  rw [hu] at hz
  cases hz

/-- Behind a final token there is none. -/
theorem eq_nil_behind {us vs : List Token} {u : Token} (h : Tiles o t (us ++ u :: vs))
    (hu : u.isFinal = true) : vs = [] := by
  rcases vs with _ | ⟨v, vs⟩
  · rfl
  · rw [List.append_cons] at h
    have hnot := (h.spells u (by simp)).not_isFinal (o := u.start)
    rw [hu] at hnot
    cases hnot

/-! ### Blanks before a text -/

/-- Blanks before a text do nothing to its tokens. -/
theorem blank_append {g : Text} (hg : IsBlankRun g) (h : Tiles (o + g.length) t ts) :
    Tiles o (g ++ t) ts := by
  have hrun : ∀ {g' : Text}, IsBlankRun g' → IsBlankRun (g ++ g') := fun hg' b hb =>
    (List.mem_append.mp hb).elim (hg b) (hg' b)
  have hlen : ∀ g' : Text, o + g.length + g'.length = o + (g ++ g').length := fun g' => by
    rw [List.length_append, Nat.add_assoc]
  cases h with
  | done hg' =>
    rw [hlen]
    exact .done (hrun hg')
  | stuck hg' hb h =>
    rw [hlen, ← List.append_assoc]
    exact .stuck (hrun hg') hb h
  | token hg' hw ha h =>
    rw [hlen] at h ⊢
    rw [← List.append_assoc]
    exact .token (hrun hg') hw ha h

/-- Tokens are the same apart from where they start, whatever the offset of the text. -/
theorem exists_shift (h : Tiles o t ts) (o' : Nat) :
    ∃ us, Tiles o' t us ∧ us.map Token.word = ts.map Token.word := by
  induction h generalizing o' with
  | done hg => exact ⟨_, .done hg, rfl⟩
  | stuck hg hb h => exact ⟨_, .stuck hg hb h, rfl⟩
  | @token o g w rest k ts hg hw ha h ih =>
    obtain ⟨us, hus, hword⟩ := ih (o' + g.length + w.length)
    exact ⟨_, .token hg hw ha hus, congrArg ((k, w) :: ·) hword⟩

/-- Blanks before a text only move its tokens. -/
theorem exists_blank_append {g : Text} (hg : IsBlankRun g) (h : Tiles o t ts) (o' : Nat) :
    ∃ us, Tiles o' (g ++ t) us ∧ us.map Token.word = ts.map Token.word := by
  obtain ⟨us, hus, hword⟩ := h.exists_shift (o' + g.length)
  exact ⟨us, hus.blank_append hg, hword⟩

/-! ### Replacing what stands behind a token -/

/-- A token behind blanks, with the tokens of what stands behind it. -/
theorem cons {g rest : Text} {u : Token} (hg : IsBlankRun g) (hw : u.kind.Spells u.text)
    (ha : u.kind = .identifier → Apart u.text rest) (hstart : u.start = o + g.length)
    (h : Tiles u.stop rest ts) : Tiles o (g ++ (u.text ++ rest)) (u :: ts) := by
  obtain ⟨k, w, start⟩ := u
  subst hstart
  exact .token hg hw ha h

/-- **What stands behind a token can be replaced** by anything that may follow the token. -/
theorem exists_splice {us vs : List Token} {u : Token} (h : Tiles o t (us ++ u :: vs))
    (hvs : vs ≠ []) :
    ∃ a b, t = a ++ b ∧ o + a.length = u.stop ∧ Tiles u.stop b vs ∧
      ∀ b' vs', (∀ w, Apart w b → Apart w b') → Tiles u.stop b' vs' →
        Tiles o (a ++ b') (us ++ u :: vs') := by
  induction us generalizing o t with
  | nil =>
    obtain ⟨g, rest, rfl, hg, hw, ha, hstart, h⟩ := h.exists_of_cons hvs
    refine ⟨g ++ u.text, rest, (List.append_assoc ..).symm, ?_, h, fun b' vs' hb' h' => ?_⟩
    · rw [List.length_append, Token.stop, hstart]
      omega
    · rw [List.append_assoc]
      exact .cons hg hw (fun hk => hb' _ (ha hk)) hstart h'
  | cons v us ih =>
    obtain ⟨g, rest, rfl, hg, hw, ha, hstart, h⟩ := h.exists_of_cons (by simp)
    obtain ⟨a, b, rfl, hlen, hb, hreplace⟩ := ih h
    refine ⟨g ++ v.text ++ a, b, by simp only [List.append_assoc], ?_, hb, fun b' vs' hb' h' => ?_⟩
    · rw [← hlen, Token.stop, hstart]
      simp only [List.length_append]
      omega
    · -- behind `v` stands `a`, or the replacement itself where `a` is empty
      have hapart : v.kind = .identifier → Apart v.text (a ++ b') := by
        intro hk
        rcases a with _ | ⟨c, a⟩
        · exact hb' _ (ha hk)
        · exact (ha hk).of_head?_eq rfl
      rw [List.append_assoc, List.append_assoc]
      exact .cons hg hw hapart hstart (hreplace b' vs' hb' h')

/-- **Where only blanks are left**, anything that starts with a blank can be put behind the text. -/
theorem append_blank {us : List Token} {z : Token} (h : Tiles o t (us ++ [z]))
    (hz : z.kind = .endOfInput) {tail : Text} {vs : List Token}
    (htail : ∀ c, tail.head? = some c → isBlank c = true) (hvs : Tiles (o + t.length) tail vs) :
    Tiles o (t ++ tail) (us ++ vs) := by
  induction us generalizing o t with
  | nil => exact hvs.blank_append (h.isBlankRun_of_endOfInput hz)
  | cons u us ih =>
    obtain ⟨g, rest, rfl, hg, hw, ha, hstart, h⟩ := h.exists_of_cons (by simp)
    have hlen : o + (g ++ (u.text ++ rest)).length = u.stop + rest.length := by
      rw [Token.stop, hstart]
      simp only [List.length_append]
      omega
    rw [hlen] at hvs
    rw [List.append_assoc, List.append_assoc]
    exact .cons hg hw (fun hk => (ha hk).append_blank htail) hstart (ih h hvs)

end Tiles

end MacroCalls
