import MacroCalls.Proofs.Pieces

/-!
# What is wrong with a format string

A text that is no format string goes wrong at exactly one index: a format string stands before it,
and at it a brace with which no placeholder starts (`Offends`). The error of the text is about this
brace. A closing brace has nothing to close. An opening brace is not closed when the next brace is
another opening one, or when there is none; else a byte that is not blank stands between the two.
More text behind can only mend a brace that is not closed, and only if nothing but blanks follow it.

Main statement: `formatError_blames`.
-/

namespace MacroCalls

open Text

/-- The error is at an offset, which has 64 bits, and says these words. -/
structure FormatError.Says (e : FormatError) (offset : Int) (words : String) : Prop where
  offset_eq : e.offset = wrap64 offset
  message_eq : e.reason.message = ascii words

namespace FormatString

/-- **The brace to blame** in a text: a format string stands before it, and no placeholder starts
with it. -/
structure Offends (t : Text) (i : Nat) : Prop where
  isFormat_take : IsFormat (t.take i)
  brace : t[i]? = some openBrace ∨ t[i]? = some closeBrace
  not_placeholder : ∀ blanks rest, IsBlankRun blanks →
    t.drop i ≠ openBrace :: (blanks ++ closeBrace :: rest)

/-- **What an error says** of a text from the brace to blame on, which has index `i`. -/
inductive Blames (base : Int) (i : Nat) (e : FormatError) : Text → Prop
  | unmatched {rest : Text} (he : e.Says (base + i) "unmatched '\x7d' in format string") :
      Blames base i e (closeBrace :: rest)
  /-- No brace follows, or an opening one does. -/
  | unclosed {inner rest : Text} (hinner : ∀ b ∈ inner, isPlain b = true)
      (hrest : rest = [] ∨ rest.head? = some openBrace)
      (he : e.Says (base + i) "unclosed '\x7b' in format string") :
      Blames base i e (openBrace :: (inner ++ rest))
  /-- A closing brace follows, and the first byte between the two that is not blank is `c`. -/
  | invalid {blanks inner rest : Text} {c : UInt8} (hblanks : IsBlankRun blanks)
      (hc : isPlain c = true) (hblank : isBlank c = false) (hinner : ∀ b ∈ inner, isPlain b = true)
      (he : e.Says (base + (i + 1 + blanks.length : Nat)) "invalid character in format argument") :
      Blames base i e (openBrace :: (blanks ++ c :: (inner ++ closeBrace :: rest)))

/-! ### One brace to blame -/

theorem isFormat_placeholder_iff {blanks t : Text} (hblanks : IsBlankRun blanks) :
    IsFormat (openBrace :: (blanks ++ closeBrace :: t)) ↔ IsFormat t := by
  constructor
  · intro h
    have hplain : ∀ b ∈ blanks, isPlain b = true := fun b hb => isPlain_of_isBlank (hblanks b hb)
    obtain ⟨after, hdrop, -, hafter⟩ := isFormat_open_iff.mp h
    rw [List.dropWhile_append_of_pos hplain] at hdrop
    cases hdrop
    exact hafter
  · exact .placeholder hblanks

/-- A format string at the front does not change what is one behind it. -/
theorem isFormat_append_iff {s t : Text} (hs : IsFormat s) : IsFormat (s ++ t) ↔ IsFormat t := by
  induction hs with
  | nil => rfl
  | plain hopen hclose _ ih =>
    rw [List.cons_append, isFormat_cons_plain (isPlain_iff.mpr ⟨hopen, hclose⟩), ih]
  | placeholder hblanks _ ih =>
    rw [List.cons_append, List.append_assoc, List.cons_append, isFormat_placeholder_iff hblanks, ih]

namespace Offends

variable {t : Text} {i j : Nat}

/-- Behind a brace to blame no text is a format string up to some index. -/
theorem not_lt (hi : Offends t i) (hj : Offends t j) : ¬ i < j := by
  intro hlt
  -- the text between the two indices would be a format string that starts with the first brace
  obtain ⟨n, rfl⟩ := Nat.exists_eq_add_of_lt hlt
  have hbetween : IsFormat ((t.drop i).take (n + 1)) := by
    have hformat := hj.isFormat_take
    rw [Nat.add_assoc, List.take_add] at hformat
    exact (isFormat_append_iff hi.isFormat_take).mp hformat
  have hbrace := hi.brace
  have hnot := hi.not_placeholder
  rw [← List.head?_drop] at hbrace
  generalize t.drop i = w at hbetween hbrace hnot
  cases w with
  | nil => simp at hbrace
  | cons b w =>
    rw [List.take_succ_cons] at hbetween
    rcases hbrace with hb | hb
    · cases hb
      obtain ⟨after, hdrop, hblanks, -⟩ := isFormat_open_iff.mp hbetween
      have hw : w = (w.take n).takeWhile isPlain ++ closeBrace :: (after ++ w.drop n) := by
        rw [← List.cons_append, ← hdrop, ← List.append_assoc, List.takeWhile_append_dropWhile,
          List.take_append_drop]
      exact hnot _ _ hblanks (congrArg (openBrace :: ·) hw)
    · cases hb
      exact not_isFormat_close hbetween

/-- **Only one brace is to blame.** -/
theorem eq (hi : Offends t i) (hj : Offends t j) : i = j := by
  have := hi.not_lt hj
  have := hj.not_lt hi
  omega

end Offends

/-! ### What an error is about -/

/-- A text is cut in one way into plain bytes and what follows them. -/
theorem plain_append_inj {s s' t t' : Text} (hs : ∀ b ∈ s, isPlain b = true)
    (hs' : ∀ b ∈ s', isPlain b = true) (ht : ∀ b, t.head? = some b → isPlain b = false)
    (ht' : ∀ b, t'.head? = some b → isPlain b = false) (h : s ++ t = s' ++ t') :
    s = s' ∧ t = t' := by
  have htake := congrArg (List.takeWhile isPlain) h
  have hdrop := congrArg (List.dropWhile isPlain) h
  rw [takeWhile_append_of_head? hs ht, takeWhile_append_of_head? hs' ht'] at htake
  rw [dropWhile_append_of_head? hs ht, dropWhile_append_of_head? hs' ht'] at hdrop
  exact ⟨htake, hdrop⟩

/-- The plain bytes behind an opening brace of a format string are blank. -/
theorem isBlankRun_of_isFormat {inner rest : Text} (hinner : ∀ b ∈ inner, isPlain b = true)
    (h : IsFormat (openBrace :: (inner ++ rest))) : IsBlankRun inner := by
  obtain ⟨-, -, hblanks, -⟩ := isFormat_open_iff.mp h
  rw [List.takeWhile_append_of_pos hinner] at hblanks
  exact fun b hb => hblanks b (List.mem_append_left _ hb)

theorem plain_of_invalid {blanks inner : Text} {c : UInt8} (hblanks : IsBlankRun blanks)
    (hc : isPlain c = true) (hinner : ∀ b ∈ inner, isPlain b = true) :
    ∀ b ∈ blanks ++ c :: inner, isPlain b = true := by
  intro b hb
  rcases List.mem_append.mp hb with hb | hb
  · exact isPlain_of_isBlank (hblanks b hb)
  · rcases List.mem_cons.mp hb with rfl | hb
    · exact hc
    · exact hinner b hb

theorem not_isBlankRun_of_invalid {blanks inner : Text} {c : UInt8} (hblank : isBlank c = false) :
    ¬ IsBlankRun (blanks ++ c :: inner) := by
  intro h
  have := h c (by simp)
  rw [hblank] at this
  cases this

namespace Blames

variable {base : Int} {i : Nat} {e : FormatError} {w : Text}

theorem brace (h : Blames base i e w) : w.head? = some openBrace ∨ w.head? = some closeBrace := by
  cases h with
  | unmatched _ => exact .inr rfl
  | unclosed _ _ _ => exact .inl rfl
  | invalid _ _ _ _ _ => exact .inl rfl

/-- No placeholder starts with the brace that an error blames. -/
theorem not_placeholder (h : Blames base i e w) (blanks rest : Text) (hblanks : IsBlankRun blanks) :
    w ≠ openBrace :: (blanks ++ closeBrace :: rest) := by
  intro hw
  have hplain : ∀ b ∈ blanks, isPlain b = true := fun b hb => isPlain_of_isBlank (hblanks b hb)
  cases h with
  | unmatched _ => exact absurd (List.cons.inj hw).1 (by decide)
  | @unclosed inner rest' hinner hrest _ =>
    have hhead : ∀ b, rest'.head? = some b → isPlain b = false := by
      intro b hb
      rcases hrest with rfl | hopen
      · cases hb
      · rw [hopen] at hb
        cases hb
        decide
    obtain ⟨-, rfl⟩ := plain_append_inj hinner hplain hhead not_isPlain_of_head?_close
      (List.cons.inj hw).2
    rcases hrest with h | h
    · cases h
    · cases h
  | @invalid blanks' inner rest' c hblanks' hc hblank hinner _ =>
    have hsplit := (List.cons.inj hw).2
    rw [← List.cons_append, ← List.append_assoc] at hsplit
    obtain ⟨rfl, -⟩ := plain_append_inj (plain_of_invalid hblanks' hc hinner) hplain
      not_isPlain_of_head?_close not_isPlain_of_head?_close hsplit
    exact not_isBlankRun_of_invalid hblank hblanks

/-- Behind a format string the error blames the one brace to blame. -/
theorem offends {front : Text} (hfront : IsFormat front) (h : Blames base i e w) :
    Offends (front ++ w) front.length := by
  have htake : (front ++ w).take front.length = front := List.take_left
  have hdrop : (front ++ w).drop front.length = w := List.drop_left
  constructor
  · rwa [htake]
  · rw [← List.head?_drop, hdrop]
    exact h.brace
  · rw [hdrop]
    exact h.not_placeholder

/-- **More text mends** only a brace that is not closed, with nothing but blanks behind it. -/
theorem exists_isFormat_append_iff (h : Blames base i e w) :
    (∃ more, IsFormat (w ++ more)) ↔
      e.Says (base + i) "unclosed '\x7b' in format string" ∧ IsBlankRun (w.drop 1) := by
  cases h with
  | unmatched he =>
    refine iff_of_false (fun ⟨more, hmore⟩ => not_isFormat_close hmore) ?_
    rintro ⟨hunclosed, -⟩
    have hwords := he.message_eq.symm.trans hunclosed.message_eq
    revert hwords
    decide
  | @unclosed inner rest hinner hrest he =>
    rw [List.drop_succ_cons, List.drop_zero]
    rcases hrest with rfl | hopen
    · rw [List.append_nil]
      constructor
      · rintro ⟨more, hmore⟩
        exact ⟨he, isBlankRun_of_isFormat hinner hmore⟩
      · rintro ⟨-, hblanks⟩
        exact ⟨[closeBrace], .placeholder hblanks .nil⟩
    · obtain ⟨rest, rfl⟩ : ∃ r, rest = openBrace :: r := List.head?_eq_some_iff.mp hopen
      refine iff_of_false ?_ ?_
      · -- the next brace opens as well
        rintro ⟨more, hmore⟩
        rw [List.cons_append, List.append_assoc, List.cons_append] at hmore
        obtain ⟨after, hdrop, -⟩ := isFormat_open_iff.mp hmore
        rw [List.dropWhile_append_of_pos hinner] at hdrop
        cases hdrop
      · rintro ⟨-, hblanks⟩
        have hblank := hblanks openBrace (by simp)
        revert hblank
        decide
  | @invalid blanks inner rest c hblanks hc hblank hinner he =>
    have hsplit : blanks ++ c :: (inner ++ closeBrace :: rest) =
        (blanks ++ c :: inner) ++ closeBrace :: rest := by simp
    rw [hsplit]
    refine iff_of_false ?_ ?_
    · rintro ⟨more, hmore⟩
      rw [List.cons_append, List.append_assoc] at hmore
      exact not_isBlankRun_of_invalid hblank
        (isBlankRun_of_isFormat (plain_of_invalid hblanks hc hinner) hmore)
    · rintro ⟨-, hblanks'⟩
      exact not_isBlankRun_of_invalid hblank fun b hb => hblanks' b (List.mem_append_left _ hb)

end Blames

/-! ### Errors of a text -/

theorem map_eq_error {r : Except FormatError (List Piece)} {p : Piece} {e : FormatError}
    (h : r.map (p :: ·) = .error e) : r = .error e := by
  cases r with
  | error e' =>
    cases h
    rfl
  | ok ps => cases h

/-- The first glyph that is not blank has nothing but blanks before it. -/
theorem exists_blanks_of_offset? {t : Text} {j : Nat}
    (h : Glyph.offset? (!·.isBlank) t.glyphs = some j) :
    ∃ blanks c rest, t = blanks ++ c :: rest ∧ blanks.length = j ∧ IsBlankRun blanks ∧
      isBlank c = false := by
  rw [offset?_not_isBlank] at h
  obtain ⟨hlt, hnot, hbefore⟩ := List.findIdx?_eq_some_iff_getElem.mp h
  refine ⟨t.take j, t.get ⟨j, hlt⟩, t.drop (j + 1), ?_, ?_, ?_, ?_⟩
  · rw [List.get_eq_getElem, ← List.drop_eq_getElem_cons hlt, List.take_append_drop]
  · rw [List.length_take, Nat.min_eq_left hlt.le]
  · intro b hb
    obtain ⟨k, hk, rfl⟩ := List.mem_take_iff_getElem.mp hb
    simpa using hbefore k (by omega)
  · simpa using hnot

/-- **The error of a text** blames a brace that a format string stands before. -/
theorem exists_blames {base : Int} {i : Nat} {t : Text} :
    ∀ e, pieces base i t = .error e →
      ∃ front w, t = front ++ w ∧ IsFormat front ∧ Blames base (i + front.length) e w := by
  fun_induction pieces base i t with
  | case1 i => rintro e ⟨⟩
  | case2 i rest =>
    rintro e ⟨⟩
    exact ⟨[], _, rfl, .nil, .unmatched ⟨rfl, rfl⟩⟩
  | case3 i rest hdrop =>
    rintro e ⟨⟩
    have hplain : ∀ b ∈ rest, isPlain b = true := List.dropWhile_eq_nil_iff.mp hdrop
    refine ⟨[], _, rfl, .nil, ?_⟩
    rw [← List.append_nil rest]
    exact .unclosed hplain (.inl rfl) ⟨rfl, rfl⟩
  | case4 i rest after hne hdrop =>
    rintro e ⟨⟩
    refine ⟨[], _, rfl, .nil, ?_⟩
    rw [← List.takeWhile_append_dropWhile (p := isPlain) (l := rest), hdrop]
    exact .unclosed (fun b hb => List.mem_takeWhile_imp hb) (.inr rfl) ⟨rfl, rfl⟩
  | case5 i rest inner c after hdrop hc j hj =>
    rintro e ⟨⟩
    obtain ⟨blanks, b, tail, hinner, rfl, hblanks, hb⟩ := exists_blanks_of_offset? hj
    have hplain : ∀ a ∈ inner, isPlain a = true := fun a ha => List.mem_takeWhile_imp ha
    rw [hinner] at hplain
    have hrest : rest = blanks ++ b :: (tail ++ closeBrace :: after) := by
      rw [← eq_closeBrace_of_dropWhile hdrop hc, ← hdrop, ← List.cons_append, ← List.append_assoc,
        ← hinner, List.takeWhile_append_dropWhile]
    rw [hrest]
    exact ⟨[], _, rfl, .nil, .invalid hblanks (hplain b (by simp)) hb
      (fun a ha => hplain a (by simp [ha])) ⟨rfl, rfl⟩⟩
  | case6 i rest inner c after hdrop hc hinner hlen next hne ih =>
    intro e h
    obtain ⟨front, w, hafter, hfront, hblames⟩ := ih e (map_eq_error h)
    rw [offset?_not_isBlank] at hinner
    have hblanks : IsBlankRun inner := fun b hb => by
      simpa using List.findIdx?_eq_none_iff.mp hinner b hb
    have hrest : rest = inner ++ closeBrace :: after := by
      rw [← eq_closeBrace_of_dropWhile hdrop hc, ← hdrop, List.takeWhile_append_dropWhile]
    have hnext : next + front.length =
        i + (openBrace :: (inner ++ closeBrace :: front)).length := by
      simp only [List.length_cons, List.length_append]
      omega
    rw [hnext] at hblames
    exact ⟨_, w, by simp [hrest, hafter], .placeholder hblanks hfront, hblames⟩
  | case7 i b rest hclose hopen stretch hlen next ih =>
    intro e h
    obtain ⟨front, w, hafter, hfront, hblames⟩ := ih e (map_eq_error h)
    have hplain : ∀ c ∈ stretch, isPlain c = true := by
      intro c hc
      rcases List.mem_cons.mp hc with rfl | hc
      · exact isPlain_iff.mpr ⟨hopen, hclose⟩
      · exact List.mem_takeWhile_imp hc
    have hsplit : b :: rest = stretch ++ front ++ w := by
      rw [List.append_assoc, ← hafter, List.cons_append, List.takeWhile_append_dropWhile]
    have hnext : next + front.length = i + (stretch ++ front).length := by
      rw [List.length_append]
      omega
    rw [hnext] at hblames
    exact ⟨_, w, hsplit, (isFormat_plain_append hplain).mpr hfront, hblames⟩

end FormatString

open FormatString

/-- **The error of a format string points at the byte to blame**: there is one brace to blame, the
error is about it, and more text behind mends the string only if the brace is not closed and blanks
follow it. -/
theorem formatError_blames (lit : Literal) (e : FormatError) (h : lit.pieces = .error e) :
    ∃ i, Offends lit.val i ∧ (∀ j, Offends lit.val j → j = i) ∧
      Blames (lit.span.start + 1) i e (lit.val.drop i) ∧
      ((∃ more ps, Literal.pieces { lit with val := lit.val ++ more } = .ok ps) ↔
        e.Says (lit.span.start + 1 + i) "unclosed '\x7b' in format string" ∧
          IsBlankRun (lit.val.drop (i + 1))) := by
  obtain ⟨front, w, hval, hfront, hblames⟩ := exists_blames e h
  rw [Nat.zero_add] at hblames
  have hoffends := hblames.offends hfront
  rw [← hval] at hoffends
  have hdrop : lit.val.drop front.length = w := by rw [hval, List.drop_left]
  refine ⟨front.length, hoffends, fun j hj => hj.eq hoffends, hdrop.symm ▸ hblames, ?_⟩
  -- what stands before the brace plays no part in what can follow
  have hmore : ∀ more, (∃ ps, Literal.pieces { lit with val := lit.val ++ more } = .ok ps) ↔
      IsFormat (w ++ more) := by
    intro more
    rw [Literal.pieces, exists_pieces_iff, hval, List.append_assoc, isFormat_append_iff hfront]
  simp only [hmore]
  rw [hblames.exists_isFormat_append_iff, ← hdrop, List.drop_drop]

/-- Three things are wrong with this text, and the first of them counts: a letter between two
braces, a closing brace by itself and an opening one. The text starts at the last offset that has 64
bits. -/
theorem formatError_blames_letter :
    let lit : Literal := ⟨⟨0x7FFFFFFFFFFFFFFE, 0⟩, ascii "\x7b\x7da\x7b " ++ 0xC3 :: 0xA9 ::
      ascii "\x7d\x7d\x7b"⟩
    let e : FormatError := ⟨-0x7FFFFFFFFFFFFFFC, .invalidCharacter⟩
    lit.pieces = .error e ∧ Offends lit.val 3 ∧ (∀ j, Offends lit.val j → j = 3) ∧
      Blames 0x7FFFFFFFFFFFFFFF 3 e (lit.val.drop 3) ∧
      ¬ ∃ more ps, Literal.pieces { lit with val := lit.val ++ more } = .ok ps := by
  intro lit e
  have h : lit.pieces = .error e := by decide +kernel
  have hfront : IsFormat (ascii "\x7b\x7da") := by decide +kernel
  have hletter : Blames 0x7FFFFFFFFFFFFFFF 3 e
      (openBrace :: ([0x20] ++ 0xC3 :: ([0xA9] ++ closeBrace :: ascii "\x7d\x7b"))) := by
    refine .invalid (List.forall_mem_singleton.mpr ?_) (by decide) (by decide)
      (List.forall_mem_singleton.mpr ?_) ⟨by decide, rfl⟩
    · decide
    · decide
  have hthree : Offends lit.val 3 := hletter.offends hfront
  obtain ⟨i, hoffends, honly, hblames, hmore⟩ := formatError_blames lit e h
  obtain rfl := honly 3 hthree
  refine ⟨h, hoffends, honly, hblames, fun hex => ?_⟩
  have hblank := (hmore.mp hex).2 0xC3 (by decide)
  revert hblank
  decide

end MacroCalls
