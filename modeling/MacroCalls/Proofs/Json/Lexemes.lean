import MacroCalls.Json.Token
import MacroCalls.Proofs.Utf8

/-!
# JSON lexemes that are read back

What is written for a string, an integer or a word is read as one token, with the rest of the text
behind it (`Token.first?_stringText`, `Token.first?_integer`, `Token.first?_word`). A string comes
back repaired, since stray bytes are written as the replacement character. An integer needs
something behind it that does not continue a number.
-/

namespace MacroCalls

open Text

namespace Text

/-! ### Decimal numbers -/

theorem decimal_of_lt {n : Nat} (h : n < 10) : decimal n = [(0x30 + n).toUInt8] := by
  have hdigit : ∀ d < 10, (Nat.digitChar d).toUInt8 = (0x30 + d).toUInt8 := by decide
  rw [decimal, Nat.toDigits_of_lt_base h, List.map_singleton, hdigit n h]

theorem decimal_of_le {n : Nat} (h : 10 ≤ n) :
    decimal n = decimal (n / 10) ++ [(0x30 + n % 10).toUInt8] := by
  have hlast := decimal_of_lt (Nat.mod_lt n (by decide : 0 < 10))
  rw [← hlast, decimal, Nat.toDigits_of_base_le (by decide) h, List.map_append, decimal, decimal,
    Nat.toDigits_of_lt_base (Nat.mod_lt n (by decide : 0 < 10))]

/-- Numbers grow by one digit at a time. -/
theorem decimal_induction {motive : Nat → Prop} (digit : ∀ n < 10, motive n)
    (more : ∀ n, 10 ≤ n → motive (n / 10) → motive n) (n : Nat) : motive n := by
  induction n using Nat.strongRecOn with
  | ind n ih =>
    by_cases h : n < 10
    · exact digit n h
    · exact more n (by omega) (ih _ (by omega))

theorem decimal_ne_nil (n : Nat) : decimal n ≠ [] := by
  by_cases h : n < 10
  · simp [decimal_of_lt h]
  · simp [decimal_of_le (Nat.le_of_not_lt h)]

end Text

namespace Json

/-! ### Integers and words -/

theorem isDigit_toUInt8 {n : Nat} (h : n < 10) : isDigit (0x30 + n).toUInt8 := by
  revert h; revert n; decide

theorem isDigit_of_mem_decimal (n : Nat) : ∀ b ∈ decimal n, isDigit b := by
  induction n using decimal_induction with
  | digit n h =>
    rw [decimal_of_lt h]
    simpa using isDigit_toUInt8 h
  | more n h ih =>
    rw [decimal_of_le h]
    intro b hb
    rcases List.mem_append.mp hb with hb | hb
    · exact ih b hb
    · cases List.mem_singleton.mp hb
      exact isDigit_toUInt8 (Nat.mod_lt n (by decide))

/-- No number but zero starts with a zero. -/
theorem head?_decimal_ne {n : Nat} (h : 0 < n) : (decimal n).head? ≠ some 0x30 := by
  induction n using decimal_induction with
  | digit n hn =>
    rw [decimal_of_lt hn]
    revert hn h; revert n; decide
  | more n hn ih =>
    obtain ⟨b, r, hbr⟩ := List.exists_cons_of_ne_nil (decimal_ne_nil (n / 10))
    have hhead := ih (by omega)
    rw [hbr] at hhead
    rwa [decimal_of_le hn, hbr]

/-- Bytes that continue a number: digits, the point and the letter of an exponent. -/
def continuesNumber (b : UInt8) : Bool := isDigit b || b == 0x2E || b == 0x65 || b == 0x45

/-- Nothing that would continue a number comes next. -/
def EndsNumber (t : Text) : Prop := ∀ b ∈ t.head?, continuesNumber b = false

theorem EndsNumber.head {b : UInt8} {t : Text} (h : EndsNumber (b :: t)) :
    ¬ isDigit b ∧ b ≠ 0x2E ∧ ¬ (b = 0x65 ∨ b = 0x45) := by
  have hb := h b rfl
  simp only [continuesNumber, Bool.or_eq_false_iff, beq_eq_false_iff_ne] at hb
  obtain ⟨⟨⟨hdigit, hpoint⟩, he⟩, hE⟩ := hb
  exact ⟨by simp [hdigit], hpoint, by simp [he, hE]⟩

theorem digits?_append {ds t : Text} (hds : ∀ b ∈ ds, isDigit b) (hne : ds ≠ [])
    (ht : EndsNumber t) : digits? (ds ++ t) = some (ds, t) := by
  have hhead : t.takeWhile isDigit = [] := by
    cases t with
    | nil => rfl
    | cons b t => exact List.takeWhile_cons_of_neg ht.head.1
  have htake : (ds ++ t).takeWhile isDigit = ds := by
    rw [List.takeWhile_append_of_pos hds, hhead, List.append_nil]
  have hdrop : (ds ++ t).dropWhile isDigit = t := by
    have := List.takeWhile_append_dropWhile (p := isDigit) (l := ds ++ t)
    rwa [htake, List.append_cancel_left_eq] at this
  rw [digits?, htake, hdrop, if_neg (by simpa using hne)]

theorem unsigned?_decimal (n : Nat) {t : Text} (ht : EndsNumber t) :
    unsigned? (decimal n ++ t) = some (decimal n, t) := by
  have hwhole : whole? (decimal n ++ t) = some (decimal n, t) := by
    by_cases h : n = 0
    · subst h
      rfl
    · have hdigits := digits?_append (isDigit_of_mem_decimal n) (decimal_ne_nil n) ht
      have hzero := head?_decimal_ne (Nat.pos_of_ne_zero h)
      obtain ⟨b, r, hbr⟩ := List.exists_cons_of_ne_nil (decimal_ne_nil n)
      rw [hbr] at hdigits hzero ⊢
      rw [List.cons_append, whole?, if_neg (by rintro rfl; exact hzero rfl)]
      exact hdigits
  have hfraction : fraction? t = some ([], t) := by
    cases t with
    | nil => rfl
    | cons b t => rw [fraction?, if_neg ht.head.2.1]
  have hexponent : exponent? t = some ([], t) := by
    cases t with
    | nil => rfl
    | cons b t => rw [exponent?, if_neg ht.head.2.2]
  simp [unsigned?, hwhole, hfraction, hexponent]

theorem number?_integer (n : Int) {t : Text} (ht : EndsNumber t) :
    number? (integer n ++ t) = some (integer n, t) := by
  have hdecimal := unsigned?_decimal n.natAbs ht
  rw [integer]
  split
  · rw [List.cons_append, number?, if_pos rfl, hdecimal]
    rfl
  · obtain ⟨b, r, hbr⟩ := List.exists_cons_of_ne_nil (decimal_ne_nil n.natAbs)
    have hb := isDigit_of_mem_decimal n.natAbs b (by simp [hbr])
    rw [hbr] at hdecimal ⊢
    rw [List.cons_append, number?, if_neg (by rintro rfl; cases hb)]
    exact hdecimal

theorem not_isBlank_of_isDigit {b : UInt8} (h : isDigit b) : isBlank b = false := by
  rw [Bool.eq_false_iff]
  intro hblank
  simp only [isBlank, Bool.or_eq_true, beq_iff_eq] at hblank
  rcases hblank with ((rfl | rfl) | rfl) | rfl <;> cases h

/-- Integers start with a digit or the minus sign. -/
theorem exists_integer_eq_cons (n : Int) :
    ∃ b t, integer n = b :: t ∧ (b = 0x2D ∨ isDigit b) := by
  rw [integer]
  split
  · exact ⟨_, _, rfl, .inl rfl⟩
  · obtain ⟨b, r, hbr⟩ := List.exists_cons_of_ne_nil (decimal_ne_nil n.natAbs)
    exact ⟨b, r, hbr, .inr (isDigit_of_mem_decimal n.natAbs b (by simp [hbr]))⟩

/-- **A written integer** is read back. -/
theorem Token.first?_integer (n : Int) {t : Text} (ht : EndsNumber t) :
    Token.first? (integer n ++ t) = some (.atom (.number (integer n)), t) := by
  obtain ⟨b, r, hbr, hb⟩ := exists_integer_eq_cons n
  -- what starts an integer starts neither a mark nor a string nor a word
  have hne : ∀ x, ¬ (x = 0x2D ∨ isDigit x) → b ≠ x := fun x hx h => hx (h ▸ hb)
  have hmark : mark? b = none := by
    rw [mark?, if_neg (hne _ (by decide)), if_neg (hne _ (by decide)), if_neg (hne _ (by decide)),
      if_neg (hne _ (by decide)), if_neg (hne _ (by decide)), if_neg (hne _ (by decide))]
  have hstring : Token.string? (b :: (r ++ t)) = none := by
    rw [Token.string?, if_neg (hne _ (by decide))]
  have hword : Token.word? (b :: (r ++ t)) = none := by
    refine List.findSome?_eq_none_iff.mpr ?_
    rintro ⟨word, j⟩ hmem
    refine if_neg ?_
    rintro ⟨t', ht'⟩
    simp only [words, List.mem_cons, Prod.mk.injEq, List.not_mem_nil, or_false] at hmem
    rcases hmem with ⟨rfl, -⟩ | ⟨rfl, -⟩ | ⟨rfl, -⟩
    · exact hne 0x6E (by decide) (List.cons.inj ht').1.symm
    · exact hne 0x74 (by decide) (List.cons.inj ht').1.symm
    · exact hne 0x66 (by decide) (List.cons.inj ht').1.symm
  have hnumber := number?_integer n ht
  rw [hbr] at hnumber ⊢
  rw [List.cons_append, Token.first?, hmark, hstring, hword, Token.number?, ← List.cons_append,
    hnumber]
  rfl

/-- **The words** are read back. -/
theorem Token.first?_word {word : Text} {j : Json} (h : (word, j) ∈ words) (t : Text) :
    Token.first? (word ++ t) = some (.atom j, t) := by
  simp only [words, List.mem_cons, Prod.mk.injEq, List.not_mem_nil, or_false] at h
  rcases h with ⟨rfl, rfl⟩ | ⟨rfl, rfl⟩ | ⟨rfl, rfl⟩ <;> rfl

/-! ### Strings -/

/-- Bytes that stand for themselves in a string. -/
def isVerbatim (b : UInt8) : Bool := 0x20 ≤ b && b != quoteMark && b != backslash

theorem stringBody?_verbatim {w : Text} (h : ∀ b ∈ w, isVerbatim b) (t : Text) :
    stringBody? (w ++ t) = (stringBody? t).map fun (body, after) => (w ++ body, after) := by
  induction w with
  | nil => simp
  | cons b w ih =>
    have hb := h b (by simp)
    simp only [isVerbatim, Bool.and_eq_true, decide_eq_true_eq, bne_iff_ne] at hb
    rw [List.cons_append, stringBody?.eq_def]
    simp only [hb, if_false, UInt8.not_lt.mpr hb.1.1, ih fun b hb => h b (by simp [hb])]
    cases stringBody? t <;> simp

theorem isVerbatim_hexDigit : ∀ n < 16, isVerbatim (hexDigit n) := by decide

theorem isVerbatim_of_mem_hex (width n : Nat) : ∀ b ∈ hex width n, isVerbatim b := by
  induction width generalizing n with
  | zero => simp [hex]
  | succ width ih =>
    intro b hb
    rw [hex, List.mem_append, List.mem_singleton] at hb
    rcases hb with hb | rfl
    · exact ih _ b hb
    · exact isVerbatim_hexDigit _ (Nat.mod_lt _ (by decide))

theorem hexValue?_hexDigit : ∀ n < 16, hexValue? (hexDigit n) = some n := by decide

theorem hex4?_hex {n : Nat} (h : n < 0x10000) (t : Text) : hex4? (hex 4 n ++ t) = some n := by
  have hdigit : ∀ k, hexValue? (hexDigit (k % 16)) = some (k % 16) := fun k =>
    hexValue?_hexDigit _ (Nat.mod_lt k (by decide))
  simp only [hex, List.nil_append, List.cons_append, hex4?, hdigit, Option.pure_def,
    Option.bind_eq_bind, Option.bind_some, Option.some.injEq]
  omega

theorem length_hex (width n : Nat) : (hex width n).length = width := by
  induction width generalizing n with
  | zero => rfl
  | succ width ih => rw [hex, List.length_append, ih, List.length_singleton]

theorem isVerbatim_of_mem_encode {c : Char} (h : 0x20 ≤ c.toNat) (hq : c.toNat ≠ 0x22)
    (hs : c.toNat ≠ 0x5C) : ∀ b ∈ Glyph.encode c, isVerbatim b := by
  have hc := Glyph.toNat_lt c
  have hbyte : ∀ n < 256, 0x20 ≤ n → n ≠ 0x22 → n ≠ 0x5C → isVerbatim n.toUInt8 := by
    intro n hn hlow hquote hslash
    have hval := Glyph.toNat_toUInt8 hn
    simp only [isVerbatim, Bool.and_eq_true, decide_eq_true_eq, bne_iff_ne, UInt8.le_iff_toNat_le,
      ne_eq, ← UInt8.toNat_inj, hval]
    exact ⟨⟨hlow, hquote⟩, hslash⟩
  intro b hb
  rw [Glyph.encode] at hb
  generalize c.toNat = n at hc h hq hs hb
  by_cases h1 : n < 0x80
  · rw [if_pos h1, List.mem_singleton] at hb
    exact hb ▸ hbyte n (by omega) h hq hs
  by_cases h2 : n < 0x800
  · simp only [if_neg h1, if_pos h2, List.mem_cons, List.not_mem_nil, or_false] at hb
    rcases hb with rfl | rfl <;> exact hbyte _ (by omega) (by omega) (by omega) (by omega)
  by_cases h3 : n < 0x10000
  · simp only [if_neg h1, if_neg h2, if_pos h3, List.mem_cons, List.not_mem_nil, or_false] at hb
    rcases hb with rfl | rfl | rfl <;> exact hbyte _ (by omega) (by omega) (by omega) (by omega)
  · simp only [if_neg h1, if_neg h2, if_neg h3, List.mem_cons, List.not_mem_nil, or_false] at hb
    rcases hb with rfl | rfl | rfl | rfl <;>
      exact hbyte _ (by omega) (by omega) (by omega) (by omega)

/-- How a scalar value is written in a string: by a letter behind a backslash, by its number, or as
it is. -/
theorem escaped_cases (c : Char) :
    (∃ b, escaped c = [backslash, b] ∧ ∀ t, escape? (b :: t) = some (c, 1)) ∨
      (escaped c = backslash :: 0x75 :: hex 4 c.toNat ∧ c.toNat < 0xD800) ∨
      (escaped c = Glyph.encode c ∧ 0x20 ≤ c.toNat ∧ c.toNat ≠ 0x22 ∧ c.toNat ≠ 0x5C) := by
  have hof : ∀ n, c.toNat = n → c = Char.ofNat n := fun n h => by rw [← h, Char.ofNat_toNat]
  rw [escaped]
  split
  · rename_i h
    refine .inl ⟨_, rfl, fun t => ?_⟩
    rcases h with h | h
    · rw [hof _ h]; rfl
    · rw [hof _ h]; rfl
  rename_i hquote
  split
  · rename_i letter hletter
    refine .inl ⟨letter, rfl, fun t => ?_⟩
    unfold controlLetter? at hletter
    split at hletter <;> cases hletter
    all_goals rename_i h; rw [hof _ h]; rfl
  · split
    · rename_i h
      refine .inr (.inl ⟨rfl, ?_⟩)
      simp [isGuarded] at h
      omega
    · rename_i h
      refine .inr (.inr ⟨rfl, ?_⟩)
      simp at h
      omega

theorem stringBody?_escaped (c : Char) (t : Text) :
    stringBody? (escaped c ++ t) =
      (stringBody? t).map fun (body, after) => (escaped c ++ body, after) := by
  have hpair : ∀ b w, stringBody? (backslash :: b :: w) =
      (stringBody? w).map fun (body, after) => (backslash :: b :: body, after) := by
    intro b w
    rw [stringBody?.eq_def]
    rfl
  rcases escaped_cases c with ⟨b, hc, -⟩ | ⟨hc, -⟩ | ⟨hc, hlow, hquote, hslash⟩
  · rw [hc]
    exact hpair b t
  · rw [hc, List.cons_append, List.cons_append, hpair,
      stringBody?_verbatim (isVerbatim_of_mem_hex 4 c.toNat), Option.map_map]
    rfl
  · rw [hc]
    exact stringBody?_verbatim (isVerbatim_of_mem_encode hlow hquote hslash) t

theorem stringBody?_flatMap_escaped (cs : List Char) (t : Text) :
    stringBody? (cs.flatMap escaped ++ quoteMark :: t) = some (cs.flatMap escaped, t) := by
  induction cs with
  | nil =>
    rw [List.flatMap_nil, List.nil_append, stringBody?.eq_def]
    rfl
  | cons c cs ih =>
    rw [List.flatMap_cons, List.append_assoc, stringBody?_escaped, ih]
    rfl

theorem unescape?_backslash {t : Text} {c : Char} {n : Nat} (h : escape? t = some (c, n)) :
    unescape? (backslash :: t) = (unescape? (t.drop n)).map (Glyph.encode c ++ ·) := by
  rw [unescape?, if_pos rfl, h]

theorem unescape?_escaped (c : Char) (t : Text) :
    unescape? (escaped c ++ t) = (unescape? t).map (Glyph.encode c ++ ·) := by
  rcases escaped_cases c with ⟨b, hc, hescape⟩ | ⟨hc, hlt⟩ | ⟨hc, hlow, hquote, hslash⟩
  · rw [hc]
    exact unescape?_backslash (hescape t)
  · have hunit : unitScalar c.toNat t = (c, 0) := by
      rw [unitScalar, if_neg (by simp [isHighSurrogate]; omega),
        if_neg (by simp [isLowSurrogate]; omega), Char.ofNat_toNat]
    have hlen : (hex 4 c.toNat).length = 4 := length_hex 4 c.toNat
    have hescape : escape? (0x75 :: (hex 4 c.toNat ++ t)) = some (c, 5) := by
      have hu : ∀ w, escape? (0x75 :: w) = (hex4? w).map fun unit =>
          ((unitScalar unit (w.drop 4)).1, 5 + (unitScalar unit (w.drop 4)).2) := fun _ => rfl
      rw [hu, hex4?_hex (by omega), List.drop_left' hlen, Option.map_some, hunit, Nat.add_zero]
    rw [hc, List.cons_append, List.cons_append, unescape?_backslash hescape, List.drop_succ_cons,
      List.drop_left' hlen]
  · -- the first byte is no backslash, and the first glyph is the character
    obtain ⟨b, r, hbr⟩ := List.exists_cons_of_ne_nil (Glyph.encode_ne_nil c)
    have hb := isVerbatim_of_mem_encode hlow hquote hslash b (by simp [hbr])
    simp only [isVerbatim, Bool.and_eq_true, bne_iff_ne] at hb
    obtain ⟨hfirst, hdrop⟩ := Glyph.first_of_encode_eq hbr t
    rw [hc, hbr, List.cons_append, unescape?, if_neg hb.2, hfirst]
    dsimp only
    rw [hdrop, ← hbr]
    rfl

theorem unescape?_flatMap_escaped (cs : List Char) :
    unescape? (cs.flatMap escaped) = some (cs.flatMap Glyph.encode) := by
  induction cs with
  | nil => rw [List.flatMap_nil, unescape?, List.flatMap_nil]
  | cons c cs ih =>
    rw [List.flatMap_cons, unescape?_escaped, ih, List.flatMap_cons, Option.map_some]

/-- **A written string** is read back, repaired. -/
theorem Token.first?_stringText (s t : Text) :
    Token.first? (stringText s ++ t) = some (.string s.repaired, t) := by
  have htext : stringText s ++ t =
      quoteMark :: ((s.glyphs.map Glyph.char).flatMap escaped ++ quoteMark :: t) := by
    simp [stringText, List.flatMap_map]
  have hrepaired : (s.glyphs.map Glyph.char).flatMap Glyph.encode = s.repaired := by
    rw [List.flatMap_map, repaired]
  rw [htext, Token.first?, (by rfl : mark? quoteMark = none), Token.string?, if_pos rfl,
    stringBody?_flatMap_escaped]
  simp [unescape?_flatMap_escaped, hrepaired]

end Json

end MacroCalls
