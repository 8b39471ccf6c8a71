import Mathlib.Algebra.Group.Nat.Defs
import MacroCalls.Proofs.Codes
import MacroCalls.Proofs.Painting
import MacroCalls.Text.Quoted

/-!
# Quoted texts can be told apart

Between quotes a glyph is written as itself, or as a backslash, a letter and as many hexadecimal
digits as the letter asks for. The letter and the digits say which glyph it was (`escapedGlyph`), so
no quoted glyph is the front of another one, and texts that look the same between quotes are the
same (`quoted_inj`). This needs that the stray bytes of a text are no ASCII bytes, since the escapes
of bytes and of control characters look alike.

Quoting leaves no control character in a text (`not_mem_quoted`): neither a line feed nor the
start of a terminal sequence.
-/

namespace MacroCalls

/-- A stray byte of a text is no ASCII byte. -/
def Glyph.IsProper : Glyph → Prop
  | scalar _ => True
  | stray b => 0x80 ≤ b

/-- No encoding is the front of another one. -/
theorem Glyph.eq_of_encode_isPrefix {c d : Char} (h : encode c <+: encode d) : c = d := by
  obtain ⟨b, r, hbr⟩ := List.exists_cons_of_ne_nil (encode_ne_nil d)
  rw [hbr] at h
  have hc := first_eq_scalar_iff.mpr h
  rw [first_eq_scalar_iff.mpr (hbr ▸ List.prefix_rfl : encode d <+: b :: r)] at hc
  exact (Glyph.scalar.inj hc).symm

namespace Text

theorem isProper_of_mem_glyphs (t : Text) : ∀ x ∈ t.glyphs, x.IsProper := by
  induction t using glyph_induction with
  | nil => simp
  | scalar c t ih =>
    rw [glyphs_encode_append]
    exact List.forall_mem_cons.mpr ⟨trivial, ih⟩
  | stray b t hb ih =>
    rw [glyphs_cons_of_stray hb]
    refine List.forall_mem_cons.mpr ⟨UInt8.not_lt.mp fun hlt => ?_, ih⟩
    exact hb _ ⟨t, by rw [Glyph.encode_ascii hlt, List.singleton_append]⟩

/-! ### Escapes -/

/-- The number of hexadecimal digits behind a backslash and a letter. -/
def escapeWidth (letter : UInt8) : Nat :=
  if letter = 0x78 then 2 else if letter = 0x75 then 4 else if letter = 0x55 then 8 else 0

/-- The control character, quote or backslash that a letter alone stands for. -/
def namedBy (letter : UInt8) : Nat :=
  match letter.toNat with
  | 0x61 => 0x07
  | 0x62 => 0x08
  | 0x74 => 0x09
  | 0x6E => 0x0A
  | 0x76 => 0x0B
  | 0x66 => 0x0C
  | 0x72 => 0x0D
  | n => n

/-- The glyph that a letter and the number behind it stand for. -/
def escapedGlyph (letter : UInt8) (n : Nat) : Glyph :=
  if escapeWidth letter = 0 then .scalar (Char.ofNat (namedBy letter))
  else if letter = 0x78 ∧ 0x80 ≤ n then .stray n.toUInt8
  else .scalar (Char.ofNat n)

/-- An escape is a backslash, a letter and a number in hexadecimal digits. -/
def escapeText (letter : UInt8) (n : Nat) : Text :=
  backslash :: letter :: hex (escapeWidth letter) n

/-- The glyph stands between quotes as the escape of a letter and a number. -/
structure IsEscape (x : Glyph) (letter : UInt8) (n : Nat) : Prop where
  quotedGlyph_eq : quotedGlyph x = escapeText letter n
  lt : n < 16 ^ escapeWidth letter
  glyph_eq : x = escapedGlyph letter n
  le_letter : 0x20 ≤ letter

theorem le_toNat_of_isPrintable {c : Char} (h : isPrintable c = true) : 0x20 ≤ c.toNat := by
  have hlow : ∀ r ∈ printableRanges, 0x20 ≤ r.1 := by decide +kernel
  obtain ⟨r, hr, hc⟩ := List.any_eq_true.mp h
  simp only [Bool.and_eq_true, decide_eq_true_eq] at hc
  exact Nat.le_trans (hlow r hr) hc.1

theorem isEscape_mark {c : Char} (h : c.toNat = 0x22 ∨ c.toNat = 0x5C) :
    IsEscape (.scalar c) c.toUInt8 0 := by
  obtain rfl | rfl : c = Char.ofNat 0x22 ∨ c = Char.ofNat 0x5C := by
    rw [← c.ofNat_toNat]
    exact h.imp (congrArg Char.ofNat) (congrArg Char.ofNat)
  · exact ⟨by decide, by decide, by decide, by decide⟩
  · exact ⟨by decide, by decide, by decide, by decide⟩

/-- The letters of the control characters stand for those characters. -/
theorem escape_controlLetter {c : Char} {letter : UInt8} (h : controlLetter? c = some letter) :
    escapeWidth letter = 0 ∧ Char.ofNat (namedBy letter) = c ∧ 0x20 ≤ letter := by
  have hc := c.ofNat_toNat
  unfold controlLetter? at h
  split at h <;> cases h
  all_goals
    rename_i hn
    rw [hn] at hc
    exact ⟨by decide, hc, by decide⟩

/-- **A glyph between quotes** stands for itself or is an escape. -/
theorem quotedGlyph_cases {x : Glyph} (hx : x.IsProper) :
    (∃ c, x = .scalar c ∧ quotedGlyph x = Glyph.encode c ∧ 0x20 ≤ c.toNat ∧ c.toNat ≠ 0x22 ∧
        c.toNat ≠ 0x5C) ∨
      ∃ letter n, IsEscape x letter n := by
  cases x with
  | stray b =>
    have hb : 0x80 ≤ b.toNat := UInt8.le_iff_toNat_le.mp hx
    refine .inr ⟨0x78, b.toNat, rfl, b.toNat_lt, ?_, by decide⟩
    rw [escapedGlyph, if_neg (by decide), if_pos ⟨rfl, hb⟩, Nat.toUInt8, UInt8.ofNat_toNat]
  | scalar c =>
    have hmax := Glyph.toNat_lt c
    by_cases hmark : c.toNat = 0x22 ∨ c.toNat = 0x5C
    · exact .inr ⟨_, _, isEscape_mark hmark⟩
    by_cases hprint : isPrintable c = true
    · refine .inl ⟨c, rfl, ?_, le_toNat_of_isPrintable hprint, by omega, by omega⟩
      rw [quotedGlyph, quotedScalar, if_neg hmark, if_pos hprint]
    cases hletter : controlLetter? c with
    | some letter =>
      obtain ⟨hwidth, hnamed, hle⟩ := escape_controlLetter hletter
      refine .inr ⟨letter, 0, ?_, by simp [hwidth], ?_, hle⟩
      · rw [quotedGlyph, quotedScalar, if_neg hmark, if_neg hprint, hletter, escapeText, hwidth]
        rfl
      · rw [escapedGlyph, if_pos hwidth, hnamed]
    | none =>
      by_cases hlow : c.toNat < 0x20 ∨ c.toNat = 0x7F
      · refine .inr ⟨0x78, c.toNat, ?_, ?_, ?_, by decide⟩
        · simp only [quotedGlyph, quotedScalar, if_neg hmark, if_neg hprint, hletter, if_pos hlow]
          rfl
        · exact Nat.lt_trans (by omega : c.toNat < 0x80) (by decide)
        · rw [escapedGlyph, if_neg (by decide), if_neg (by omega), Char.ofNat_toNat]
      by_cases hshort : c.toNat < 0x10000
      · refine .inr ⟨0x75, c.toNat, ?_, hshort, ?_, by decide⟩
        · simp only [quotedGlyph, quotedScalar, if_neg hmark, if_neg hprint, hletter, if_neg hlow,
            if_pos hshort]
          rfl
        · rw [escapedGlyph, if_neg (by decide), if_neg (by simp), Char.ofNat_toNat]
      · refine .inr ⟨0x55, c.toNat, ?_, Nat.lt_trans hmax (by decide), ?_, by decide⟩
        · simp only [quotedGlyph, quotedScalar, if_neg hmark, if_neg hprint, hletter, if_neg hlow,
            if_neg hshort]
          rfl
        · rw [escapedGlyph, if_neg (by decide), if_neg (by simp), Char.ofNat_toNat]

theorem quotedGlyph_ne_nil {x : Glyph} (hx : x.IsProper) : quotedGlyph x ≠ [] := by
  rcases quotedGlyph_cases hx with ⟨c, -, hq, -⟩ | ⟨letter, n, h⟩
  · rw [hq]
    exact Glyph.encode_ne_nil c
  · rw [h.quotedGlyph_eq]
    exact List.cons_ne_nil _ _

/-! ### Telling quoted glyphs apart -/

/-- Numbers with no more than so many digits are told apart by their digits. -/
theorem hex_inj {width n m : Nat} (hn : n < 16 ^ width) (hm : m < 16 ^ width)
    (h : hex width n = hex width m) : n = m := by
  induction width generalizing n m with
  | zero => omega
  | succ width ih =>
    have hdigit : ∀ i < 16, ∀ j < 16, hexDigit i = hexDigit j → i = j := by decide
    rw [hex, hex] at h
    obtain ⟨hfront, hlast⟩ := List.append_inj' h rfl
    have hquot : n / 16 = m / 16 := ih (by rw [Nat.pow_succ] at hn; omega)
      (by rw [Nat.pow_succ] at hm; omega) hfront
    have hmod : n % 16 = m % 16 := hdigit _ (Nat.mod_lt _ (by decide)) _ (Nat.mod_lt _ (by decide))
      (List.cons.inj hlast).1
    omega

theorem IsEscape.eq_of_isPrefix {x y : Glyph} {a b : UInt8} {n m : Nat} (hx : IsEscape x a n)
    (hy : IsEscape y b m) (h : quotedGlyph x <+: quotedGlyph y) : x = y := by
  rw [hx.quotedGlyph_eq, hy.quotedGlyph_eq, escapeText, escapeText, List.cons_prefix_cons,
    List.cons_prefix_cons] at h
  obtain ⟨-, rfl, hdigits⟩ := h
  have heq := hdigits.eq_of_length (by rw [Json.length_hex, Json.length_hex])
  rw [hx.glyph_eq, hy.glyph_eq, hex_inj hx.lt hy.lt heq]

/-- A character that stands for itself does not start like an escape. -/
theorem head?_encode_ne {c : Char} (hlow : 0x20 ≤ c.toNat) (hquote : c.toNat ≠ 0x22)
    (hslash : c.toNat ≠ 0x5C) : (Glyph.encode c).head? ≠ some backslash := by
  intro h
  have hb := Json.isVerbatim_of_mem_encode hlow hquote hslash _ (List.mem_of_head? h)
  exact absurd hb (by decide)

/-- **No quoted glyph is the front of another one.** -/
theorem eq_of_quotedGlyph_isPrefix {x y : Glyph} (hx : x.IsProper) (hy : y.IsProper)
    (h : quotedGlyph x <+: quotedGlyph y) : x = y := by
  have hhead : (quotedGlyph y).head? = (quotedGlyph x).head? := by
    obtain ⟨b, r, hbr⟩ := List.exists_cons_of_ne_nil (quotedGlyph_ne_nil hx)
    obtain ⟨t, ht⟩ := h
    rw [← ht, hbr, List.cons_append, List.head?_cons, List.head?_cons]
  rcases quotedGlyph_cases hx with ⟨c, rfl, hqx, hc⟩ | ⟨a, n, hex⟩ <;>
    rcases quotedGlyph_cases hy with ⟨d, rfl, hqy, hd⟩ | ⟨b, m, hey⟩
  · rw [hqx, hqy] at h
    rw [Glyph.eq_of_encode_isPrefix h]
  · rw [hqx, hey.quotedGlyph_eq] at hhead
    exact absurd hhead.symm (head?_encode_ne hc.1 hc.2.1 hc.2.2)
  · rw [hqy, hex.quotedGlyph_eq] at hhead
    exact absurd hhead (head?_encode_ne hd.1 hd.2.1 hd.2.2)
  · exact hex.eq_of_isPrefix hey h

/-- **Quoting loses nothing**: texts that are quoted alike are the same. -/
theorem quoted_inj {s t : Text} (h : s.quoted = t.quoted) : s = t := by
  have hbody := List.append_cancel_right (List.cons.inj h).2
  have hglyphs : s.glyphs = t.glyphs :=
    flatMap_inj_of_isPrefix (fun _ => quotedGlyph_ne_nil)
      (fun _ _ => eq_of_quotedGlyph_isPrefix) s.isProper_of_mem_glyphs t.isProper_of_mem_glyphs
      hbody
  rw [← flatMap_bytes_glyphs s, hglyphs, flatMap_bytes_glyphs]

/-! ### Control characters -/

theorem le_of_isVerbatim {b : UInt8} (h : Json.isVerbatim b = true) : 0x20 ≤ b := by
  simp only [Json.isVerbatim, Bool.and_eq_true, decide_eq_true_eq] at h
  exact h.1.1

theorem le_of_mem_quotedGlyph {x : Glyph} (hx : x.IsProper) : ∀ b ∈ quotedGlyph x, 0x20 ≤ b := by
  intro b hb
  rcases quotedGlyph_cases hx with ⟨c, rfl, hq, hlow, hquote, hslash⟩ | ⟨letter, n, h⟩
  · rw [hq] at hb
    exact le_of_isVerbatim (Json.isVerbatim_of_mem_encode hlow hquote hslash b hb)
  · rw [h.quotedGlyph_eq, escapeText, List.mem_cons, List.mem_cons] at hb
    rcases hb with rfl | rfl | hb
    · decide
    · exact h.le_letter
    · exact le_of_isVerbatim (Json.isVerbatim_of_mem_hex _ _ b hb)

/-- **Quoting leaves no control character.** -/
theorem not_mem_quoted {b : UInt8} (hlow : b < 0x20) (t : Text) : b ∉ t.quoted := by
  refine not_mem_of_forall_le hlow fun b hb => ?_
  rw [quoted, List.mem_append, List.mem_cons, List.mem_singleton, List.mem_flatMap] at hb
  rcases hb with (rfl | ⟨x, hx, hb⟩) | rfl
  · decide
  · exact le_of_mem_quotedGlyph (t.isProper_of_mem_glyphs x hx) b hb
  · decide

end Text

end MacroCalls
