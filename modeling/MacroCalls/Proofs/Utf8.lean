import MacroCalls.Text.Glyph

/-!
# Glyphs and UTF-8

The encoding of a scalar value is the one of the standard library, so its bytes behind the first
never start an encoding. A text therefore starts with the glyph of a scalar value exactly if the
encoding of that value stands at its start (`Glyph.first_eq_scalar_iff`), and a text can be cut
into glyphs in two parts wherever the second one starts an encoding, in particular with an ASCII
byte (`Text.glyphs_append`).

A text is repaired by writing the replacement character for every stray byte. `Text.Repair` says
this without decoding, `Text.repair_iff` that the two agree, and `Text.repaired_eq_self_iff` that
exactly the valid texts are left as they are.

Blanks are ASCII bytes, so looking for them among the glyphs is looking for them among the bytes
(`Text.offset?_not_isBlank`).
-/

namespace MacroCalls

open Text

namespace Glyph

/-! ### Encodings -/

theorem toNat_lt (c : Char) : c.toNat < 0x110000 := by
  have hvalid := c.valid
  unfold Char.toNat
  rcases hvalid with h | h <;> omega

theorem toNat_toUInt8 {n : Nat} (h : n < 256) : n.toUInt8.toNat = n := by
  rw [Nat.toUInt8, UInt8.toNat_ofNat', Nat.mod_eq_of_lt h]

/-- Scalar values are encoded as in the standard library. -/
theorem encode_eq_utf8EncodeChar (c : Char) : encode c = String.utf8EncodeChar c := by
  have hc := toNat_lt c
  have hval : c.val.toNat = c.toNat := rfl
  rw [String.utf8EncodeChar.eq_1, hval, encode]
  generalize c.toNat = n at hc
  dsimp only [Nat.toUInt8]
  by_cases h1 : n < 0x80
  · rw [if_pos h1, if_pos (by omega)]
  by_cases h2 : n < 0x800
  · rw [if_neg h1, if_pos h2, if_neg (by omega), if_pos (by omega),
      (by omega : 0xC0 + n / 64 = n / 64 % 32 + 192), Nat.add_comm 0x80]
  by_cases h3 : n < 0x10000
  · rw [if_neg h1, if_neg h2, if_pos h3, if_neg (by omega), if_neg (by omega), if_pos (by omega),
      (by omega : 0xE0 + n / 4096 = n / 4096 % 16 + 224), Nat.add_comm 0x80, Nat.add_comm 0x80]
  · rw [if_neg h1, if_neg h2, if_neg h3, if_neg (by omega), if_neg (by omega), if_neg (by omega),
      (by omega : 0xF0 + n / 262144 = n / 262144 % 8 + 240), Nat.add_comm 0x80, Nat.add_comm 0x80,
      Nat.add_comm 0x80]

theorem not_isUTF8FirstByte_of_mem_tail {c : Char} {b : UInt8} (h : b ∈ (encode c).tail) :
    ¬ b.IsUTF8FirstByte := by
  rw [encode_eq_utf8EncodeChar] at h
  obtain ⟨i, hi, rfl⟩ := List.getElem_of_mem h
  rw [List.getElem_tail, UInt8.isUTF8FirstByte_getElem_utf8EncodeChar]
  exact Nat.succ_ne_zero i

theorem encode_ascii {b : UInt8} (h : b < 0x80) : encode (Char.ofNat b.toNat) = [b] := by
  have hlt : b.toNat < 0x80 := UInt8.lt_iff_toNat_lt.mp h
  have hchar : (Char.ofNat b.toNat).toNat = b.toNat := by
    rw [Char.ofNat, dif_pos (.inl (by omega))]
    rfl
  rw [encode, hchar, if_pos hlt, Nat.toUInt8, UInt8.ofNat_toNat]

theorem isUTF8FirstByte_of_ascii {b : UInt8} (h : b < 0x80) : b.IsUTF8FirstByte := by
  have hchar := encode_ascii h
  rw [encode_eq_utf8EncodeChar] at hchar
  have hfirst := UInt8.isUTF8FirstByte_getElem_zero_utf8EncodeChar (c := Char.ofNat b.toNat)
  simpa only [hchar, List.getElem_cons_zero] using hfirst

/-! ### The first glyph of a text -/

/-- An encoding at the start of a text is the candidate of its first byte. -/
theorem candidate_of_isPrefix {c : Char} {b : UInt8} {rest : Text} (h : encode c <+: b :: rest) :
    candidate b rest = c.toNat := by
  have hc := toNat_lt c
  obtain ⟨t, ht⟩ := h
  rw [encode] at ht
  generalize c.toNat = n at hc ht
  simp only [candidate, UInt8.lt_iff_toNat_lt, UInt8.reduceToNat]
  have hlow := toNat_toUInt8 (by omega : 0x80 + n % 64 < 256)
  have hmid := toNat_toUInt8 (by omega : 0x80 + n / 64 % 64 < 256)
  have hhigh := toNat_toUInt8 (by omega : 0x80 + n / 4096 % 64 < 256)
  by_cases h1 : n < 0x80
  · rw [if_pos h1] at ht
    obtain ⟨rfl, rfl⟩ := List.cons.inj ht
    rw [toNat_toUInt8 (by omega), if_pos h1]
  by_cases h2 : n < 0x800
  · rw [if_neg h1, if_pos h2] at ht
    obtain ⟨rfl, rfl⟩ := List.cons.inj ht
    rw [toNat_toUInt8 (by omega), if_neg (by omega), if_pos (by omega)]
    simp only [List.append_eq, List.cons_append, List.getD_cons_zero, hlow]
    omega
  by_cases h3 : n < 0x10000
  · rw [if_neg h1, if_neg h2, if_pos h3] at ht
    obtain ⟨rfl, rfl⟩ := List.cons.inj ht
    rw [toNat_toUInt8 (by omega), if_neg (by omega), if_neg (by omega), if_pos (by omega)]
    simp only [List.append_eq, List.cons_append, List.getD_cons_zero, List.getD_cons_succ, hmid,
      hlow]
    omega
  · rw [if_neg h1, if_neg h2, if_neg h3] at ht
    obtain ⟨rfl, rfl⟩ := List.cons.inj ht
    rw [toNat_toUInt8 (by omega), if_neg (by omega), if_neg (by omega), if_neg (by omega)]
    simp only [List.append_eq, List.cons_append, List.getD_cons_zero, List.getD_cons_succ, hhigh,
      hmid, hlow]
    omega

/-- **The first glyph** is a scalar value exactly if its encoding stands there. -/
theorem first_eq_scalar_iff {b : UInt8} {rest : Text} {c : Char} :
    first b rest = scalar c ↔ encode c <+: b :: rest := by
  rw [first]
  constructor
  · intro h
    split at h
    · rename_i hprefix
      cases h
      exact hprefix
    · cases h
  · intro h
    rw [candidate_of_isPrefix h, Char.ofNat_toNat, if_pos h]

theorem first_eq_stray_iff {b : UInt8} {rest : Text} :
    first b rest = stray b ↔ ∀ c, ¬ encode c <+: b :: rest := by
  constructor
  · intro h c hc
    rw [first_eq_scalar_iff.mpr hc] at h
    cases h
  · intro h
    rw [first, if_neg (h _)]

/-- A byte of ASCII is no part of a longer encoding. -/
theorem eq_of_encode_cons {c : Char} {b : UInt8} {r : Text} (h : encode c = b :: r)
    (hb : b < 0x80) : c = Char.ofNat b.toNat ∧ r = [] := by
  have hone := encode_ascii hb
  have hc : encode c <+: b :: r := h ▸ List.prefix_refl _
  have hb : encode (Char.ofNat b.toNat) <+: b :: r := hone ▸ ⟨r, rfl⟩
  have heq := (first_eq_scalar_iff.mpr hc).symm.trans (first_eq_scalar_iff.mpr hb)
  cases heq
  rw [hone] at h
  exact ⟨rfl, (List.cons.inj h).2.symm⟩

theorem first_congr {b : UInt8} {s t : Text}
    (h : ∀ c, encode c <+: b :: s ↔ encode c <+: b :: t) : first b s = first b t := by
  by_cases hc : ∃ c, encode c <+: b :: s
  · obtain ⟨c, hc⟩ := hc
    rw [first_eq_scalar_iff.mpr hc, first_eq_scalar_iff.mpr ((h c).mp hc)]
  · have hs : ∀ c, ¬ encode c <+: b :: s := fun c h' => hc ⟨c, h'⟩
    rw [first_eq_stray_iff.mpr hs, first_eq_stray_iff.mpr fun c h' => hs c ((h c).mpr h')]

/-- An encoding is taken off the start of a text as a whole. -/
theorem first_of_encode_eq {c : Char} {b : UInt8} {r : Text} (h : encode c = b :: r) (t : Text) :
    first b (r ++ t) = scalar c ∧ (r ++ t).drop ((scalar c).width - 1) = t := by
  constructor
  · rw [first_eq_scalar_iff, ← List.cons_append, ← h]
    exact List.prefix_append ..
  · rw [width, bytes, h, List.length_cons, Nat.add_sub_cancel, List.drop_left]

theorem width_first_le (b : UInt8) (rest : Text) : (first b rest).width ≤ rest.length + 1 := by
  have hlen := congrArg List.length (bytes_first_append_drop b rest)
  rw [List.length_append, List.length_cons] at hlen
  exact Nat.le.intro hlen

end Glyph

namespace Text

open Glyph

/-! ### Cutting a text into glyphs -/

@[simp] theorem glyphs_nil : glyphs [] = [] := by
  rw [glyphs]

theorem glyphs_encode_append (c : Char) (t : Text) :
    (encode c ++ t).glyphs = scalar c :: t.glyphs := by
  obtain ⟨b, r, hbr⟩ := List.exists_cons_of_ne_nil (encode_ne_nil c)
  obtain ⟨hfirst, hdrop⟩ := first_of_encode_eq hbr t
  rw [hbr, List.cons_append, glyphs, hfirst, hdrop]

theorem glyphs_cons_of_stray {b : UInt8} {t : Text} (h : ∀ c, ¬ encode c <+: b :: t) :
    glyphs (b :: t) = stray b :: t.glyphs := by
  rw [glyphs, first_eq_stray_iff.mpr h]
  rfl

theorem glyphs_cons_ascii {b : UInt8} (h : b < 0x80) (t : Text) :
    glyphs (b :: t) = scalar (Char.ofNat b.toNat) :: t.glyphs := by
  rw [← glyphs_encode_append, encode_ascii h, List.singleton_append]

theorem glyphs_flatMap_encode (cs : List Char) :
    glyphs (cs.flatMap encode) = cs.map scalar := by
  induction cs with
  | nil => exact glyphs_nil
  | cons c cs ih => rw [List.flatMap_cons, glyphs_encode_append, ih, List.map_cons]

/-- A text is empty, starts with an encoding or starts with a stray byte. -/
theorem glyph_induction {motive : Text → Prop} (nil : motive [])
    (scalar : ∀ c t, motive t → motive (encode c ++ t))
    (stray : ∀ b t, (∀ c, ¬ encode c <+: b :: t) → motive t → motive (b :: t)) (t : Text) :
    motive t := by
  fun_induction glyphs t with
  | case1 => exact nil
  | case2 b rest ih =>
    by_cases hc : ∃ c, encode c <+: b :: rest
    · obtain ⟨c, hc⟩ := hc
      have hcut := bytes_first_append_drop b rest
      rw [first_eq_scalar_iff.mpr hc] at hcut ih
      rw [← hcut]
      exact scalar c _ ih
    · have hb : ∀ c, ¬ encode c <+: b :: rest := fun c h => hc ⟨c, h⟩
      rw [first_eq_stray_iff.mpr hb] at ih
      exact stray b rest hb ih

/-- No encoding reaches over the start of another. -/
theorem first_append {x : UInt8} {s t : Text} (h : ∀ b ∈ t.head?, b.IsUTF8FirstByte) :
    first x (s ++ t) = first x s := by
  refine first_congr fun c => ⟨fun hc => ?_, fun hc => ?_⟩
  · rcases List.prefix_or_prefix_of_prefix hc (List.prefix_append (x :: s) t) with hc' | ⟨r, hr⟩
    · exact hc'
    cases r with
    | nil => exact ⟨[], by rw [← hr]; simp⟩
    | cons b r =>
      rw [← hr, ← List.cons_append, List.prefix_append_right_inj] at hc
      obtain ⟨t', rfl⟩ := hc
      refine absurd (h b rfl) (not_isUTF8FirstByte_of_mem_tail (c := c) ?_)
      rw [← hr]
      simp
  · exact hc.trans (List.prefix_append (x :: s) t)

/-- **A text can be cut** where an encoding may start. -/
theorem glyphs_append {s t : Text} (h : ∀ b ∈ t.head?, b.IsUTF8FirstByte) :
    (s ++ t).glyphs = s.glyphs ++ t.glyphs := by
  fun_induction glyphs s with
  | case1 => rfl
  | case2 x s ih =>
    have hwidth := width_first_le x s
    rw [List.cons_append, glyphs, first_append h, List.drop_append_of_le_length (by omega), ih,
      List.cons_append]

/-- A text can be cut behind an ASCII byte. -/
theorem glyphs_append_of_getLast? {s t : Text} (h : ∀ b ∈ s.getLast?, b < 0x80) :
    (s ++ t).glyphs = s.glyphs ++ t.glyphs := by
  rcases List.eq_nil_or_concat s with rfl | ⟨s, b, rfl⟩
  · rw [List.nil_append, glyphs_nil, List.nil_append]
  have hb : b < 0x80 := h b (by simp)
  have hfirst : ∀ t : Text, ∀ x ∈ (b :: t).head?, x.IsUTF8FirstByte := fun _ x hx => by
    cases hx
    exact isUTF8FirstByte_of_ascii hb
  rw [List.concat_eq_append, List.append_assoc, List.singleton_append, glyphs_append (hfirst t),
    glyphs_append (hfirst []), glyphs_cons_ascii hb t, glyphs_cons_ascii hb [], glyphs_nil,
    List.append_assoc, List.singleton_append]

/-! ### Valid texts and repaired texts -/

/-- The text is valid UTF-8. -/
def IsUtf8 (t : Text) : Prop := t.toByteArray.IsValidUTF8

instance (t : Text) : Decidable t.IsUtf8 :=
  inferInstanceAs (Decidable t.toByteArray.IsValidUTF8)

theorem isUtf8_iff {t : Text} : t.IsUtf8 ↔ ∃ cs : List Char, t = cs.flatMap encode := by
  have hencode : encode = String.utf8EncodeChar := funext encode_eq_utf8EncodeChar
  rw [hencode]
  constructor
  · rintro ⟨cs, hcs⟩
    exact ⟨cs, List.toByteArray_inj.mp hcs⟩
  · rintro ⟨cs, rfl⟩
    exact ⟨cs, rfl⟩

/-- The text with the replacement character for every stray byte. -/
def repaired (t : Text) : Text := t.glyphs.flatMap fun x => encode x.char

/-- A text and the same text with the replacement character for every byte that is part of no
encoding. -/
inductive Repair : Text → Text → Prop where
  | nil : Repair [] []
  | scalar (c : Char) {s t : Text} (h : Repair s t) :
    Repair (String.utf8EncodeChar c ++ s) (String.utf8EncodeChar c ++ t)
  | stray {b : UInt8} {s t : Text} (hb : ∀ c, ¬ String.utf8EncodeChar c <+: b :: s)
    (h : Repair s t) : Repair (b :: s) (String.utf8EncodeChar replacement ++ t)

@[simp] theorem repaired_nil : repaired [] = [] := by
  rw [repaired, glyphs_nil, List.flatMap_nil]

theorem repaired_encode_append (c : Char) (t : Text) :
    (encode c ++ t).repaired = encode c ++ t.repaired := by
  rw [repaired, glyphs_encode_append, List.flatMap_cons]
  rfl

theorem repaired_cons_of_stray {b : UInt8} {t : Text} (h : ∀ c, ¬ encode c <+: b :: t) :
    repaired (b :: t) = encode replacement ++ t.repaired := by
  rw [repaired, glyphs_cons_of_stray h, List.flatMap_cons]
  rfl

/-- **Repair** is what decoding and encoding again does. -/
theorem repair_iff {s t : Text} : Repair s t ↔ t = s.repaired := by
  constructor
  · intro h
    induction h with
    | nil => exact repaired_nil.symm
    | @scalar c s t _ ih =>
      rw [← encode_eq_utf8EncodeChar, repaired_encode_append, ih]
    | @stray b s t hb _ ih =>
      simp only [← encode_eq_utf8EncodeChar] at hb ⊢
      rw [repaired_cons_of_stray hb, ih]
  · rintro rfl
    induction s using glyph_induction with
    | nil =>
      rw [repaired_nil]
      exact .nil
    | scalar c s ih =>
      rw [repaired_encode_append, encode_eq_utf8EncodeChar]
      exact .scalar c ih
    | stray b s hb ih =>
      rw [repaired_cons_of_stray hb, encode_eq_utf8EncodeChar]
      exact .stray (fun c => encode_eq_utf8EncodeChar c ▸ hb c) ih

/-- All bytes are ASCII. -/
def isAscii (t : Text) : Bool := t.all (· < 0x80)

theorem isAscii_cons {b : UInt8} {t : Text} :
    isAscii (b :: t) = true ↔ b < 0x80 ∧ t.isAscii = true := by
  rw [isAscii, List.all_cons, Bool.and_eq_true, decide_eq_true_eq, isAscii]

theorem repaired_of_ascii {t : Text} (h : t.isAscii = true) : t.repaired = t := by
  induction t with
  | nil => exact repaired_nil
  | cons b t ih =>
    obtain ⟨hb, ht⟩ := isAscii_cons.mp h
    rw [← List.singleton_append, ← encode_ascii hb, repaired_encode_append, ih ht]

/-- **Exactly the valid texts need no repair.** -/
theorem repaired_eq_self_iff {t : Text} : t.repaired = t ↔ t.IsUtf8 := by
  rw [isUtf8_iff]
  constructor
  · intro h
    exact ⟨t.glyphs.map char, by rw [List.flatMap_map]; exact h.symm⟩
  · rintro ⟨cs, rfl⟩
    rw [repaired, glyphs_flatMap_encode, List.flatMap_map]
    rfl

/-! ### Blanks -/

theorem isBlank_iff {b : UInt8} :
    isBlank b = true ↔ b = 0x20 ∨ b = 0x09 ∨ b = 0x0A ∨ b = 0x0C ∨ b = 0x0D := by
  simp [isBlank, or_assoc]

theorem lt_of_isBlank {b : UInt8} (h : isBlank b = true) : b < 0x80 := by
  rcases isBlank_iff.mp h with rfl | rfl | rfl | rfl | rfl <;> decide

theorem isBlank_scalar_iff {c : Char} {b : UInt8} {r : Text} (h : encode c = b :: r) :
    (Glyph.scalar c).isBlank = true ↔ Text.isBlank b = true := by
  constructor
  · intro hc
    have hmem : c = ' ' ∨ c = '\t' ∨ c = '\n' ∨ c = '\x0c' ∨ c = '\r' := by
      simpa [Glyph.isBlank, char] using hc
    have hhead : (encode c).head?.all Text.isBlank = true := by
      rcases hmem with rfl | rfl | rfl | rfl | rfl <;> decide
    simpa [h] using hhead
  · intro hb
    rw [(eq_of_encode_cons h (lt_of_isBlank hb)).1]
    rcases isBlank_iff.mp hb with rfl | rfl | rfl | rfl | rfl <;> decide

/-- **The first glyph that is no blank** starts with the first byte that is none. -/
theorem offset?_not_isBlank (t : Text) :
    Glyph.offset? (!·.isBlank) t.glyphs = t.findIdx? (!isBlank ·) := by
  induction t using glyph_induction with
  | nil => rw [glyphs_nil]; rfl
  | scalar c t ih =>
    cases hc : encode c with
    | nil => exact absurd hc (encode_ne_nil c)
    | cons b r =>
      rw [← hc, glyphs_encode_append, hc, offset?, List.cons_append, List.findIdx?_cons,
        Bool.eq_iff_iff.mpr (isBlank_scalar_iff hc)]
      cases hb : Text.isBlank b with
      | false => rfl
      | true =>
        obtain ⟨-, rfl⟩ := eq_of_encode_cons hc (lt_of_isBlank hb)
        simp [ih, width, bytes, hc, Nat.add_comm]
  | stray b t hb ih =>
    have hblank : Text.isBlank b = false := by
      refine Bool.eq_false_iff.mpr fun h => hb (Char.ofNat b.toNat) ?_
      rw [encode_ascii (lt_of_isBlank h)]
      exact ⟨t, rfl⟩
    rw [glyphs_cons_of_stray hb, offset?, List.findIdx?_cons, hblank]
    rfl

end Text

end MacroCalls
