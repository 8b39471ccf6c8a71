import MacroCalls.Proofs.Lexemes

/-!
# Maximal munch

The scanner asks its rules in order and takes the first lexeme that it is offered. Still no rule
matches more at that place. Each rule offers its longest text (`LexicalRule.exists_lexeme?`), and
two rules match at the same place only if they are the same, or if one is for macro names and the
other for identifiers; then the macro name is the longer one by its `!`, and its rule comes first.

Main statements: `Token.length_le_of_lexeme?` and `Token.exists_first_rule`.
-/

namespace MacroCalls

open Text

namespace LexicalRule

/-- The texts of a rule. -/
def Matches : LexicalRule → Text → Prop
  | blank, w => w ≠ [] ∧ IsBlankRun w
  | macroName, w => IsMacroName w
  | identifier, w => IsIdentifier w
  | literal, w => IsLiteral w
  | punctuation, w => IsMark w

/-- No text of the rule stands at the start of `t`. -/
def Fails (r : LexicalRule) (t : Text) : Prop := ∀ w, w <+: t → ¬ r.Matches w

/-- All rules, in the order in which they are tried. -/
def ordered : List LexicalRule := blank :: significant.map Prod.fst

/-- The bytes with which the texts of a rule start. -/
def starts : LexicalRule → UInt8 → Bool
  | blank => isBlank
  | macroName => isLower
  | identifier => isIdentStart
  | literal => (· == quoteMark)
  | punctuation => isPunctuation

variable {r r' : LexicalRule} {t v w : Text} {b : UInt8}

/-! ### First bytes -/

theorem Matches.exists_starts (h : r.Matches w) : ∃ b v, w = b :: v ∧ r.starts b = true := by
  cases r with
  | blank =>
    obtain ⟨b, v, rfl⟩ := List.exists_cons_of_ne_nil h.1
    exact ⟨b, v, rfl, h.2 b (by simp)⟩
  | macroName =>
    obtain ⟨run, hne, hrun, rfl⟩ := h
    obtain ⟨b, run, rfl⟩ := List.exists_cons_of_ne_nil hne
    exact ⟨b, _, rfl, hrun b (by simp)⟩
  | identifier =>
    obtain ⟨b, v, hb, -, rfl⟩ := h
    exact ⟨b, v, rfl, hb⟩
  | literal =>
    obtain ⟨body, -, rfl⟩ := h
    exact ⟨quoteMark, _, rfl, by simp [starts]⟩
  | punctuation =>
    obtain ⟨b, hb, rfl⟩ := h
    exact ⟨b, [], rfl, hb⟩

theorem mem_ordered (r : LexicalRule) : r ∈ ordered := by
  cases r <;> decide

/-- A byte belongs to one rule at most, or starts both macro names and identifiers. -/
theorem filter_starts_mem (b : UInt8) :
    ordered.filter (·.starts b) ∈
      [[], [blank], [macroName, identifier], [identifier], [literal], [punctuation]] := by
  have hbyte : ∀ n < 256, ordered.filter (·.starts (UInt8.ofNat n)) ∈
      [[], [blank], [macroName, identifier], [identifier], [literal], [punctuation]] := by
    decide +kernel
  have := hbyte b.toNat b.toNat_lt
  rwa [UInt8.ofNat_toNat] at this

theorem eq_or_of_starts (h : r.starts b = true) (h' : r'.starts b = true) :
    r = r' ∨ r = macroName ∧ r' = identifier ∨ r = identifier ∧ r' = macroName := by
  have hr : r ∈ ordered.filter (·.starts b) := List.mem_filter.mpr ⟨mem_ordered r, h⟩
  have hr' : r' ∈ ordered.filter (·.starts b) := List.mem_filter.mpr ⟨mem_ordered r', h'⟩
  have hmem := filter_starts_mem b
  generalize ordered.filter (·.starts b) = rules at hr hr' hmem
  simp only [List.mem_cons, List.not_mem_nil, or_false] at hmem
  rcases hmem with rfl | rfl | rfl | rfl | rfl | rfl <;>
    simp only [List.mem_cons, List.not_mem_nil, or_false] at hr hr'
  · exact .inl (hr.trans hr'.symm)
  · rcases hr with rfl | rfl <;> rcases hr' with rfl | rfl <;> simp
  · exact .inl (hr.trans hr'.symm)
  · exact .inl (hr.trans hr'.symm)
  · exact .inl (hr.trans hr'.symm)

/-- Two rules match at the same place only if one is for macro names and one for identifiers. -/
theorem eq_or_of_matches (hw : w <+: t) (h : r.Matches w) (hv : v <+: t) (h' : r'.Matches v) :
    r = r' ∨ r = macroName ∧ r' = identifier ∨ r = identifier ∧ r' = macroName := by
  obtain ⟨b, w', rfl, hb⟩ := h.exists_starts
  obtain ⟨c, v', rfl, hc⟩ := h'.exists_starts
  obtain ⟨rest, rfl⟩ := hw
  obtain rfl : c = b := (List.cons_prefix_cons.mp hv).1
  exact eq_or_of_starts hb hc

/-! ### Each rule offers its longest text -/

/-- A run of a class does not reach past a byte outside the class. -/
theorem length_le_of_isPrefix {p : UInt8 → Bool} {run rest : Text} (hv : ∀ b ∈ v, p b = true)
    (hrest : ∀ b, rest.head? = some b → p b = false) (h : v <+: run ++ rest) :
    v.length ≤ run.length := by
  obtain ⟨tail, ht⟩ := h
  rcases List.append_eq_append_iff.mp ht with ⟨u, rfl, -⟩ | ⟨u, rfl, rfl⟩
  · simp
  · cases u with
    | nil => simp
    | cons b u =>
      have hb := hrest b rfl
      rw [hv b (by simp)] at hb
      cases hb

theorem lexeme?_blank_iff :
    blank.lexeme? t = some w ↔
      (w ≠ [] ∧ IsBlankRun w) ∧
        ∃ rest, t = w ++ rest ∧ ∀ b, rest.head? = some b → isBlank b = false := by
  constructor
  · intro h
    cases t with
    | nil => simp [lexeme?] at h
    | cons b t =>
      simp only [lexeme?] at h
      split_ifs at h with hb
      cases h
      refine ⟨⟨by simp, ?_⟩, t.dropWhile isBlank, ?_, fun c hc => head?_dropWhile_eq_some hc⟩
      · exact List.forall_mem_cons.mpr ⟨hb, isBlankRun_takeWhile t⟩
      · rw [List.cons_append, List.takeWhile_append_dropWhile]
  · rintro ⟨⟨hne, hw⟩, rest, rfl, hrest⟩
    obtain ⟨b, run, rfl⟩ := List.exists_cons_of_ne_nil hne
    obtain ⟨hb, hrun⟩ := List.forall_mem_cons.mp hw
    simp only [List.cons_append, lexeme?, hb, if_true]
    rw [takeWhile_append_of_head? hrun hrest]

theorem matches_of_lexeme? (h : r.lexeme? t = some w) : r.Matches w := by
  cases r with
  | blank => exact (lexeme?_blank_iff.mp h).1
  | macroName => exact (lexeme?_macroName_iff.mp h).1
  | identifier => exact (lexeme?_identifier_iff.mp h).1
  | literal => exact (lexeme?_literal_iff.mp h).1
  | punctuation => exact (lexeme?_punctuation_iff.mp h).1

/-- Where a text of the rule stands, the rule offers one, and none that is shorter. -/
theorem exists_lexeme? (hv : v <+: t) (h : r.Matches v) :
    ∃ w, r.lexeme? t = some w ∧ v.length ≤ w.length := by
  obtain ⟨rest, rfl⟩ := hv
  cases r with
  | blank =>
    obtain ⟨b, u, rfl, hb⟩ := Matches.exists_starts h
    have hl : blank.lexeme? (b :: u ++ rest) = some (b :: (u ++ rest).takeWhile isBlank) := by
      simp only [List.cons_append, lexeme?, if_pos (show isBlank b = true from hb)]
    obtain ⟨-, rest', ht, hrest'⟩ := lexeme?_blank_iff.mp hl
    exact ⟨_, hl, length_le_of_isPrefix h.2 hrest' (ht ▸ List.prefix_append ..)⟩
  | macroName => exact ⟨v, lexeme?_macroName_iff.mpr ⟨h, rest, rfl⟩, Nat.le_refl _⟩
  | identifier =>
    obtain ⟨b, u, rfl, hb⟩ := Matches.exists_starts h
    have hl : identifier.lexeme? (b :: u ++ rest) =
        some (b :: (u ++ rest).takeWhile isIdentRest) := by
      simp only [List.cons_append, lexeme?, if_pos (show isIdentStart b = true from hb)]
    obtain ⟨-, rest', ht, hrest'⟩ := lexeme?_identifier_iff.mp hl
    exact ⟨_, hl, length_le_of_isPrefix (fun c hc => IsIdentifier.isIdentRest h hc) hrest'
      (ht ▸ List.prefix_append ..)⟩
  | literal => exact ⟨v, lexeme?_literal_iff.mpr ⟨h, rest, rfl⟩, Nat.le_refl _⟩
  | punctuation => exact ⟨v, lexeme?_punctuation_iff.mpr ⟨h, rest, rfl⟩, Nat.le_refl _⟩

theorem lexeme?_eq_none_iff : r.lexeme? t = none ↔ r.Fails t := by
  constructor
  · intro h v hv hm
    obtain ⟨w, hw, -⟩ := exists_lexeme? hv hm
    rw [h] at hw
    cases hw
  · intro h
    rw [Option.eq_none_iff_forall_ne_some]
    exact fun w hw => h w (lexeme?_isPrefix hw) (matches_of_lexeme? hw)

end LexicalRule

open LexicalRule

/-! ### The first rule offers the longest text of all -/

/-- **No rule matches more** than the first that matches. -/
theorem Token.length_le_of_lexeme? {t v w : Text} {k : Token.Kind} {r : LexicalRule}
    (h : Token.lexeme? t = some (k, w)) (hv : v <+: t) (hm : r.Matches v) :
    v.length ≤ w.length := by
  obtain ⟨first, -, hfirst⟩ := Scanner.exists_rule_of_lexeme? h
  have hw := matches_of_lexeme? hfirst
  rcases eq_or_of_matches (lexeme?_isPrefix hfirst) hw hv hm with rfl | ⟨rfl, rfl⟩ | ⟨rfl, rfl⟩
  · obtain ⟨u, hu, hle⟩ := exists_lexeme? hv hm
    rw [hfirst] at hu
    cases hu
    exact hle
  · -- the letters of the macro name are all that an identifier can take of it
    obtain ⟨run, -, hrun, heq⟩ := hw
    obtain ⟨rest, rfl⟩ := lexeme?_isPrefix hfirst
    rw [heq, List.append_assoc] at hv
    have hbang : ∀ d, ([bang] ++ rest).head? = some d → isIdentRest d = false := by
      intro d hd
      cases hd
      decide
    have hrunLe := length_le_of_isPrefix (fun d hd => IsIdentifier.isIdentRest hm hd) hbang hv
    rw [heq, List.length_append]
    omega
  · -- a macro name would have been found first
    obtain ⟨rest, hrest⟩ := hv
    have hname : Token.lexeme? t = some (.macroName, v) :=
      Token.lexeme?_eq_some_iff.mpr ⟨hm, rest, hrest.symm, by rintro ⟨⟩⟩
    rw [h] at hname
    cases hname
    exact Nat.le_refl _

theorem Token.fails_blank_of_lexeme? {t w : Text} {k : Token.Kind}
    (h : Token.lexeme? t = some (k, w)) : blank.Fails t := by
  obtain ⟨r, hmem, hr⟩ := Scanner.exists_rule_of_lexeme? h
  intro v hv hm
  have hw := matches_of_lexeme? hr
  rcases eq_or_of_matches (lexeme?_isPrefix hr) hw hv hm with rfl | ⟨-, heq⟩ | ⟨-, heq⟩
  · revert hmem
    cases k <;> decide
  · cases heq
  · cases heq

/-- **The rule of a token** is the first of all that matches. -/
theorem Token.exists_first_rule {t w : Text} {k : Token.Kind} (h : Token.lexeme? t = some (k, w)) :
    ∃ front r back, ordered = front ++ r :: back ∧ (r, k) ∈ significant ∧ r.Matches w ∧
      ∀ s ∈ front, s.Fails t := by
  obtain ⟨front, ⟨r, k'⟩, back, hsplit, hr, hfront⟩ := List.findSome?_eq_some_iff.mp h
  obtain ⟨w', hw, heq⟩ := Option.map_eq_some_iff.mp hr
  cases heq
  refine ⟨blank :: front.map Prod.fst, r, back.map Prod.fst, ?_, ?_, matches_of_lexeme? hw, ?_⟩
  · simp [ordered, hsplit]
  · simp [hsplit]
  · simp only [List.forall_mem_cons, List.forall_mem_map]
    refine ⟨fails_blank_of_lexeme? h, fun s hs => ?_⟩
    exact lexeme?_eq_none_iff.mp (Option.map_eq_none_iff.mp (hfront s hs))

/-- Where no significant rule offers anything and no blank stands, no rule matches. -/
theorem Token.fails_of_lexeme?_eq_none {b : UInt8} {t : Text} (hb : isBlank b = false)
    (h : Token.lexeme? (b :: t) = none) (r : LexicalRule) : r.Fails (b :: t) := by
  rw [← lexeme?_eq_none_iff]
  have hnone := List.findSome?_eq_none_iff.mp h
  cases r with
  | blank => exact lexeme?_eq_none_of_head (r := .blank) hb
  | macroName => exact Option.map_eq_none_iff.mp (hnone (.macroName, .macroName) (by decide))
  | identifier => exact Option.map_eq_none_iff.mp (hnone (.identifier, .identifier) (by decide))
  | literal => exact Option.map_eq_none_iff.mp (hnone (.literal, .literal) (by decide))
  | punctuation => exact Option.map_eq_none_iff.mp (hnone (.punctuation, .punctuation) (by decide))

end MacroCalls
