import MacroCalls.Token.Scanner
import Mathlib.Data.List.TakeWhile

/-!
# Lexemes

The texts of each kind of token, said without the rules: a macro name is a run of lower-case
letters with a closing `!`, a literal holds no quote but the two around it, and so on
(`Token.Kind.Spells`). A rule that takes as many bytes as it can is told by what it takes and by
what comes behind.

* `closedRun?_eq_some_iff`: what a run with a closing byte takes.
* `lexeme?_eq_some_iff`: the first significant lexeme of a text is a text of its kind at the start,
  and if it is an identifier, then what follows does not go on with it (`Apart`).
-/

namespace MacroCalls

open Text

/-- A run of blanks, possibly empty. -/
def IsBlankRun (g : Text) : Prop := ∀ b ∈ g, isBlank b = true

/-- One lower-case letter or more and a closing `!`. -/
def IsMacroName (w : Text) : Prop :=
  ∃ run, run ≠ [] ∧ (∀ b ∈ run, isLower b = true) ∧ w = run ++ [bang]

/-- A letter or underscore, then letters, digits and underscores. -/
def IsIdentifier (w : Text) : Prop :=
  ∃ b rest, isIdentStart b = true ∧ (∀ c ∈ rest, isIdentRest c = true) ∧ w = b :: rest

/-- A body between quotes. -/
def Text.inQuotes (body : Text) : Text := quoteMark :: (body ++ [quoteMark])

/-- Any bytes but a quote, between quotes. -/
def IsLiteral (w : Text) : Prop := ∃ body, quoteMark ∉ body ∧ w = inQuotes body

/-- A single punctuation byte. -/
def IsMark (w : Text) : Prop := ∃ b, isPunctuation b = true ∧ w = [b]

/-- The texts of the tokens of a kind; final tokens have none of their own. -/
def Token.Kind.Spells : Token.Kind → Text → Prop
  | macroName, w => IsMacroName w
  | identifier, w => IsIdentifier w
  | literal, w => IsLiteral w
  | punctuation, w => IsMark w
  | endOfInput, _ | invalid, _ => False

/-- The text `rest` neither goes on with the identifier `w` nor makes a macro name of it. -/
def Apart (w rest : Text) : Prop :=
  ∀ b, rest.head? = some b → isIdentRest b = false ∧ (b = bang → ¬ ∀ c ∈ w, isLower c = true)

/-! ### Bytes of different classes -/

theorem isIdentStart_of_isLower {b : UInt8} (h : isLower b = true) : isIdentStart b = true := by
  simp [isIdentStart, h]

theorem isIdentRest_of_isIdentStart {b : UInt8} (h : isIdentStart b = true) :
    isIdentRest b = true := by
  simp [isIdentRest, h]

theorem not_isIdentRest_of_isBlank {b : UInt8} (h : isBlank b = true) : isIdentRest b = false := by
  simp only [isBlank, Bool.or_eq_true, beq_iff_eq] at h
  rcases h with (((rfl | rfl) | rfl) | rfl) | rfl <;> decide

theorem ne_bang_of_isBlank {b : UInt8} (h : isBlank b = true) : b ≠ bang := by
  rintro rfl
  exact absurd h (by decide)

theorem not_isIdentRest_of_isPunctuation {b : UInt8} (h : isPunctuation b = true) :
    isIdentRest b = false := by
  simp only [isPunctuation, Bool.or_eq_true, beq_iff_eq] at h
  rcases h with ((((rfl | rfl) | rfl) | rfl) | rfl) | rfl <;> decide

theorem not_isBlank_of_isPunctuation {b : UInt8} (h : isPunctuation b = true) :
    isBlank b = false := by
  simp only [isPunctuation, Bool.or_eq_true, beq_iff_eq] at h
  rcases h with ((((rfl | rfl) | rfl) | rfl) | rfl) | rfl <;> decide

theorem not_isIdentStart_of_not_isIdentRest {b : UInt8} (h : isIdentRest b = false) :
    isIdentStart b = false := by
  rw [Bool.eq_false_iff] at h ⊢
  exact fun hs => h (isIdentRest_of_isIdentStart hs)

theorem not_isLower_of_not_isIdentRest {b : UInt8} (h : isIdentRest b = false) :
    isLower b = false := by
  rw [Bool.eq_false_iff] at h ⊢
  exact fun hs => h (isIdentRest_of_isIdentStart (isIdentStart_of_isLower hs))

/-! ### Runs -/

theorem isBlankRun_takeWhile (t : Text) : IsBlankRun (t.takeWhile isBlank) :=
  fun _ hb => List.mem_takeWhile_imp hb

/-- A run ends where a byte outside the class comes. -/
theorem takeWhile_append_of_head? {p : UInt8 → Bool} {run rest : Text}
    (hrun : ∀ b ∈ run, p b = true)
    (hrest : ∀ b, rest.head? = some b → p b = false) : (run ++ rest).takeWhile p = run := by
  rw [List.takeWhile_append_of_pos hrun]
  cases rest with
  | nil => simp
  | cons b rest =>
    have hb : ¬ p b = true := by rw [hrest b rfl]; simp
    rw [List.takeWhile_cons_of_neg hb, List.append_nil]

theorem dropWhile_append_of_head? {p : UInt8 → Bool} {run rest : Text}
    (hrun : ∀ b ∈ run, p b = true)
    (hrest : ∀ b, rest.head? = some b → p b = false) : (run ++ rest).dropWhile p = rest := by
  rw [List.dropWhile_append_of_pos hrun]
  cases rest with
  | nil => simp
  | cons b rest =>
    have hb : ¬ p b = true := by rw [hrest b rfl]; simp
    rw [List.dropWhile_cons_of_neg hb]

theorem drop_length_takeWhile (p : UInt8 → Bool) (t : Text) :
    t.drop (t.takeWhile p).length = t.dropWhile p := by
  have hsplit := List.takeWhile_append_dropWhile (p := p) (l := t)
  calc t.drop (t.takeWhile p).length
      = (t.takeWhile p ++ t.dropWhile p).drop (t.takeWhile p).length := by rw [hsplit]
    _ = t.dropWhile p := List.drop_left

theorem head?_dropWhile_eq_some {p : UInt8 → Bool} {t : Text} {b : UInt8}
    (h : (t.dropWhile p).head? = some b) : p b = false := by
  have := List.head?_dropWhile_not p t
  rw [h] at this
  simpa using this

/-- **A run with a closing byte**: the bytes of the class up to the closing byte, and that byte. -/
theorem closedRun?_eq_some_iff {p : UInt8 → Bool} {last : UInt8} (hlast : p last = false)
    {t w : Text} :
    closedRun? p last t = some w ↔
      ∃ run rest, (∀ b ∈ run, p b = true) ∧ w = run ++ [last] ∧ t = run ++ last :: rest := by
  unfold closedRun?
  constructor
  · intro h
    split_ifs at h with hl
    obtain ⟨rest, hrest⟩ := List.head?_eq_some_iff.mp hl
    refine ⟨t.takeWhile p, rest, ?_, (Option.some.inj h).symm, ?_⟩
    · exact fun b hb => List.mem_takeWhile_imp hb
    rw [← hrest, List.takeWhile_append_dropWhile]
  · rintro ⟨run, rest, hrun, rfl, rfl⟩
    have hhead : ∀ b, (last :: rest).head? = some b → p b = false := by
      intro b hb
      cases hb
      exact hlast
    rw [takeWhile_append_of_head? hrun hhead, dropWhile_append_of_head? hrun hhead]
    simp

/-! ### The lexeme of each rule -/

namespace LexicalRule

theorem lexeme?_macroName_iff {t w : Text} :
    macroName.lexeme? t = some w ↔ IsMacroName w ∧ ∃ rest, t = w ++ rest := by
  constructor
  · intro h
    cases t with
    | nil => simp [lexeme?] at h
    | cons b t =>
      simp only [lexeme?] at h
      split_ifs at h with hb
      obtain ⟨run, rest, hrun, rfl, ht⟩ := (closedRun?_eq_some_iff (by decide)).mp h
      refine ⟨⟨run, ?_, hrun, rfl⟩, rest, by rw [ht]; simp⟩
      rintro rfl
      rw [List.nil_append, List.cons.injEq] at ht
      rw [ht.1] at hb
      exact absurd hb (by decide)
  · rintro ⟨⟨run, hne, hrun, rfl⟩, rest, rfl⟩
    obtain ⟨b, run, rfl⟩ := List.exists_cons_of_ne_nil hne
    have hb : isLower b = true := hrun b (by simp)
    simp only [List.cons_append, lexeme?, hb, if_true]
    exact (closedRun?_eq_some_iff (by decide)).mpr ⟨b :: run, rest, hrun, rfl, by simp⟩

theorem lexeme?_identifier_iff {t w : Text} :
    identifier.lexeme? t = some w ↔
      IsIdentifier w ∧
        ∃ rest, t = w ++ rest ∧ ∀ b, rest.head? = some b → isIdentRest b = false := by
  constructor
  · intro h
    cases t with
    | nil => simp [lexeme?] at h
    | cons b t =>
      simp only [lexeme?] at h
      split_ifs at h with hb
      cases h
      refine ⟨⟨b, _, hb, fun c hc => List.mem_takeWhile_imp hc, rfl⟩, t.dropWhile isIdentRest, ?_,
        fun c hc => head?_dropWhile_eq_some hc⟩
      rw [List.cons_append, List.takeWhile_append_dropWhile]
  · rintro ⟨⟨b, run, hb, hrun, rfl⟩, rest, rfl, hrest⟩
    simp only [List.cons_append, lexeme?, hb, if_true]
    rw [takeWhile_append_of_head? hrun hrest]

theorem lexeme?_literal_iff {t w : Text} :
    literal.lexeme? t = some w ↔ IsLiteral w ∧ ∃ rest, t = w ++ rest := by
  have hrun {t w : Text} := closedRun?_eq_some_iff (p := (· != quoteMark)) (t := t) (w := w)
    (show (quoteMark != quoteMark) = false by decide)
  constructor
  · intro h
    cases t with
    | nil => simp [lexeme?] at h
    | cons b t =>
      simp only [lexeme?] at h
      split_ifs at h with hb
      obtain ⟨v, hv, rfl⟩ := Option.map_eq_some_iff.mp h
      obtain ⟨body, rest, hbody, rfl, rfl⟩ := hrun.mp hv
      refine ⟨⟨body, fun hmem => absurd (hbody _ hmem) (by simp), rfl⟩, rest, ?_⟩
      rw [hb]; simp
  · rintro ⟨⟨body, hbody, rfl⟩, rest, rfl⟩
    simp only [inQuotes, List.cons_append, lexeme?, if_true]
    refine Option.map_eq_some_iff.mpr ⟨body ++ [quoteMark], hrun.mpr ⟨body, rest, ?_, rfl, ?_⟩, rfl⟩
    · intro b hb
      rw [bne_iff_ne]
      rintro rfl
      exact hbody hb
    · simp

theorem lexeme?_punctuation_iff {t w : Text} :
    punctuation.lexeme? t = some w ↔ IsMark w ∧ ∃ rest, t = w ++ rest := by
  constructor
  · intro h
    cases t with
    | nil => simp [lexeme?] at h
    | cons b t =>
      simp only [lexeme?] at h
      split_ifs at h with hb
      cases h
      exact ⟨⟨b, hb, rfl⟩, t, rfl⟩
  · rintro ⟨⟨b, hb, rfl⟩, rest, rfl⟩
    simp only [List.cons_append, lexeme?, hb, if_true]

end LexicalRule

/-! ### The first significant lexeme -/

/-- The first byte of a text decides which rules can take something from it. -/
theorem LexicalRule.lexeme?_eq_none_of_head {r : LexicalRule} {b : UInt8} {t : Text}
    (h : match r with
      | blank => isBlank b = false
      | macroName => isLower b = false
      | identifier => isIdentStart b = false
      | literal => b ≠ quoteMark
      | punctuation => isPunctuation b = false) : r.lexeme? (b :: t) = none := by
  cases r <;> simp_all [lexeme?]

theorem IsIdentifier.isIdentRest {w : Text} (h : IsIdentifier w) {b : UInt8} (hb : b ∈ w) :
    isIdentRest b = true := by
  obtain ⟨a, rest, ha, hrest, rfl⟩ := h
  rcases List.mem_cons.mp hb with rfl | hb
  · exact isIdentRest_of_isIdentStart ha
  · exact hrest b hb

/-- An identifier is not the start of a macro name exactly if no letters and no `!` follow. -/
theorem lexeme?_macroName_eq_none_of_apart {w rest : Text} (hw : IsIdentifier w)
    (h : Apart w rest) : LexicalRule.macroName.lexeme? (w ++ rest) = none := by
  rw [Option.eq_none_iff_forall_ne_some]
  intro v hv
  obtain ⟨⟨run, hne, hrun, rfl⟩, tail, ht⟩ := LexicalRule.lexeme?_macroName_iff.mp hv
  have hbang : bang ∉ w := fun hmem => absurd (hw.isIdentRest hmem) (by decide)
  rcases List.append_eq_append_iff.mp ht with ⟨a, ha, rfl⟩ | ⟨c, rfl, -⟩
  · rcases List.eq_nil_or_concat a with rfl | ⟨a, l, rfl⟩
    · exact hbang (by rw [List.append_nil] at ha; rw [← ha]; simp)
    · rw [List.concat_eq_append, ← List.append_assoc] at ha
      obtain ⟨rfl, hl⟩ := List.append_inj' ha rfl
      cases hl
      -- the letters of the run that are not in `w` come first behind it
      cases a with
      | nil => exact (h bang (by simp)).2 rfl fun c hc => hrun c (by simp [hc])
      | cons c a =>
        have hc := not_isLower_of_not_isIdentRest (h c (by simp)).1
        rw [hrun c (by simp)] at hc
        exact absurd hc (by simp)
  · exact hbang (by simp)

theorem apart_of_lexeme? {w rest : Text} (hw : IsIdentifier w)
    (hm : LexicalRule.macroName.lexeme? (w ++ rest) = none)
    (hrest : ∀ b, rest.head? = some b → isIdentRest b = false) : Apart w rest := by
  intro b hb
  refine ⟨hrest b hb, ?_⟩
  rintro rfl hlow
  obtain ⟨tail, rfl⟩ := List.head?_eq_some_iff.mp hb
  have hname : IsMacroName (w ++ [bang]) := by
    obtain ⟨a, run, -, -, rfl⟩ := hw
    exact ⟨_, by simp, hlow, rfl⟩
  have := LexicalRule.lexeme?_macroName_iff.mpr ⟨hname, tail, rfl⟩
  rw [List.append_assoc, List.singleton_append, hm] at this
  cases this

theorem Token.lexeme?_eq (t : Text) :
    Token.lexeme? t =
      ((LexicalRule.macroName.lexeme? t).map (Kind.macroName, ·)).or
        (((LexicalRule.identifier.lexeme? t).map (Kind.identifier, ·)).or
          (((LexicalRule.literal.lexeme? t).map (Kind.literal, ·)).or
            ((LexicalRule.punctuation.lexeme? t).map (Kind.punctuation, ·)))) := by
  simp only [Token.lexeme?, LexicalRule.significant, List.findSome?_cons, List.findSome?_nil]
  cases LexicalRule.macroName.lexeme? t <;> cases LexicalRule.identifier.lexeme? t <;>
    cases LexicalRule.literal.lexeme? t <;> cases LexicalRule.punctuation.lexeme? t <;> rfl

/-- **The first significant lexeme** is a text of its kind at the start of the text; an identifier
is not cut short. -/
theorem Token.lexeme?_eq_some_iff {t w : Text} {k : Token.Kind} :
    Token.lexeme? t = some (k, w) ↔
      k.Spells w ∧ ∃ rest, t = w ++ rest ∧ (k = .identifier → Apart w rest) := by
  rw [Token.lexeme?_eq]
  constructor
  · intro h
    cases hm : LexicalRule.macroName.lexeme? t with
    | some v =>
      rw [hm] at h
      cases h
      obtain ⟨hw, rest, rfl⟩ := LexicalRule.lexeme?_macroName_iff.mp hm
      exact ⟨hw, rest, rfl, fun hk => by cases hk⟩
    | none =>
      cases hi : LexicalRule.identifier.lexeme? t with
      | some v =>
        rw [hm, hi] at h
        cases h
        obtain ⟨hw, rest, rfl, hrest⟩ := LexicalRule.lexeme?_identifier_iff.mp hi
        exact ⟨hw, rest, rfl, fun _ => apart_of_lexeme? hw hm hrest⟩
      | none =>
        cases hl : LexicalRule.literal.lexeme? t with
        | some v =>
          rw [hm, hi, hl] at h
          cases h
          obtain ⟨hw, rest, rfl⟩ := LexicalRule.lexeme?_literal_iff.mp hl
          exact ⟨hw, rest, rfl, fun hk => by cases hk⟩
        | none =>
          cases hp : LexicalRule.punctuation.lexeme? t with
          | some v =>
            rw [hm, hi, hl, hp] at h
            cases h
            obtain ⟨hw, rest, rfl⟩ := LexicalRule.lexeme?_punctuation_iff.mp hp
            exact ⟨hw, rest, rfl, fun hk => by cases hk⟩
          | none => rw [hm, hi, hl, hp] at h; cases h
  · rintro ⟨hw, rest, rfl, hapart⟩
    cases k with
    | macroName => rw [LexicalRule.lexeme?_macroName_iff.mpr ⟨hw, rest, rfl⟩]; rfl
    | identifier =>
      have ha := hapart rfl
      rw [lexeme?_macroName_eq_none_of_apart hw ha,
        LexicalRule.lexeme?_identifier_iff.mpr ⟨hw, rest, rfl, fun b hb => (ha b hb).1⟩]
      rfl
    | literal =>
      rw [LexicalRule.lexeme?_literal_iff.mpr ⟨hw, rest, rfl⟩]
      obtain ⟨body, -, rfl⟩ := hw
      rw [inQuotes, List.cons_append,
        LexicalRule.lexeme?_eq_none_of_head (r := .macroName) (by decide),
        LexicalRule.lexeme?_eq_none_of_head (r := .identifier) (by decide)]
      rfl
    | punctuation =>
      rw [LexicalRule.lexeme?_punctuation_iff.mpr ⟨hw, rest, rfl⟩]
      obtain ⟨b, hb, rfl⟩ := hw
      have hi := not_isIdentRest_of_isPunctuation hb
      have hq : b ≠ quoteMark := by rintro rfl; exact absurd hb (by decide)
      rw [List.singleton_append,
        LexicalRule.lexeme?_eq_none_of_head (r := .macroName) (not_isLower_of_not_isIdentRest hi),
        LexicalRule.lexeme?_eq_none_of_head (r := .identifier)
          (not_isIdentStart_of_not_isIdentRest hi),
        LexicalRule.lexeme?_eq_none_of_head (r := .literal) hq]
      rfl
    | endOfInput => exact hw.elim
    | invalid => exact hw.elim

/-! ### First bytes -/

theorem Token.Kind.Spells.ne_nil {k : Token.Kind} {w : Text} (h : k.Spells w) : w ≠ [] := by
  have hapart : Apart w [] := fun b hb => by simp at hb
  have hl := Token.lexeme?_eq_some_iff.mpr ⟨h, [], (List.append_nil w).symm, fun _ => hapart⟩
  rintro rfl
  rw [show Token.lexeme? [] = none from rfl] at hl
  cases hl

/-- No token starts with a blank. -/
theorem Token.Kind.Spells.head_not_blank {k : Token.Kind} {w : Text} (h : k.Spells w) {b : UInt8}
    (hb : w.head? = some b) : isBlank b = false := by
  rw [Bool.eq_false_iff]
  intro hblank
  have hrest := not_isIdentRest_of_isBlank hblank
  cases k with
  | macroName =>
    obtain ⟨run, hne, hrun, rfl⟩ := h
    obtain ⟨a, run, rfl⟩ := List.exists_cons_of_ne_nil hne
    cases hb
    exact absurd (hrun b (by simp)) (by rw [not_isLower_of_not_isIdentRest hrest]; simp)
  | identifier =>
    have := h.isIdentRest (List.mem_of_mem_head? hb)
    rw [hrest] at this
    cases this
  | literal =>
    obtain ⟨body, -, rfl⟩ := h
    cases hb
    exact absurd hblank (by decide)
  | punctuation =>
    obtain ⟨a, ha, rfl⟩ := h
    cases hb
    rw [not_isBlank_of_isPunctuation ha] at hblank
    cases hblank
  | endOfInput => exact h
  | invalid => exact h

theorem Token.body_eq {t : Token} {b : Text} (h : t.text = inQuotes b) : t.body = b := by
  simp [Token.body, h, inQuotes]

/-- A literal token is its body between quotes. -/
theorem Token.text_eq_inQuotes {t : Token} (hk : t.kind = .literal) (h : t.kind.Spells t.text) :
    t.text = inQuotes t.body ∧ quoteMark ∉ t.body := by
  rw [hk] at h
  obtain ⟨b, hb, ht⟩ := h
  rw [Token.body_eq ht]
  exact ⟨ht, hb⟩

end MacroCalls
