import MacroCalls.Proofs.Counting
import MacroCalls.Proofs.Lines

/-!
# Positions identify offsets

Between runes, a later offset has a later position: its line is no earlier, and on one line its
column is larger. Inside a rune this may fail, because the bytes of a rune that is cut count one by
one. A cut between runes of the whole text is one between runes of the line too: what stands before
the start of a line ends with a line feed, so both are decoded alike from there on
(`SourceFile.glyphCount_take`).

Main statement: `positions_identify_offsets`.
-/

namespace MacroCalls

open Text

/-! ### Rune boundaries -/

/-- Some runes of the text, from its front on, end at the offset. -/
def Text.IsBoundary (t : Text) (o : Nat) : Prop :=
  ∃ front back : List Text, Runes t (front ++ back) ∧ front.flatten.length = o

theorem Text.Runes.flatten_eq {t : Text} {ws : List Text} (h : Runes t ws) : ws.flatten = t := by
  induction h with
  | nil => rfl
  | cons _ _ ih => rw [List.flatten_cons, ih]

/-- A rune is decoded alike where less follows it. -/
theorem Text.IsFirstRune.of_append {w s t : Text} (h : IsFirstRune (w ++ (s ++ t)) w) :
    IsFirstRune (w ++ s) w := by
  obtain ⟨-, hrune⟩ := h
  refine ⟨List.prefix_append .., hrune.imp_right fun ⟨hlen, hnone⟩ => ⟨hlen, fun c hc => ?_⟩⟩
  refine hnone c (hc.trans ?_)
  rw [← List.append_assoc]
  exact List.prefix_append ..

/-- **The runes before a cut** between runes are those of the part before it. -/
theorem Text.Runes.of_append {t : Text} {front back : List Text} (h : Runes t (front ++ back)) :
    Runes front.flatten front := by
  induction front generalizing t with
  | nil => exact .nil
  | cons w front ih =>
    cases h with
    | @cons _ t _ hw hrest =>
      have hflatten : front.flatten ++ back.flatten = t := by
        rw [← List.flatten_append]
        exact hrest.flatten_eq
      rw [← hflatten] at hw
      exact .cons hw.of_append (ih hrest)

theorem Text.IsBoundary.exists_runes {t : Text} {o : Nat} (h : t.IsBoundary o) :
    ∃ front, front <+: t.glyphs.map Glyph.bytes ∧ front.flatten = t.take o ∧
      front.flatten.length = o ∧ front.length = glyphCount (t.take o) := by
  obtain ⟨front, back, hrunes, hlength⟩ := h
  have hfront : front.flatten = t.take o := by
    rw [← hrunes.flatten_eq, List.flatten_append, ← hlength, List.take_left]
  have hcount := congrArg List.length (runes_iff.mp hrunes.of_append)
  rw [hfront, List.length_map] at hcount
  exact ⟨front, ⟨back, runes_iff.mp hrunes⟩, hfront, hlength, hcount⟩

theorem Text.IsBoundary.le_length {t : Text} {o : Nat} (h : t.IsBoundary o) : o ≤ t.length := by
  obtain ⟨front, -, hfront, hlength, -⟩ := h.exists_runes
  rw [hfront, List.length_take] at hlength
  omega

/-- **Counts of runes grow** from one boundary to the next. -/
theorem Text.IsBoundary.glyphCount_lt {t : Text} {o o' : Nat} (ho : t.IsBoundary o)
    (ho' : t.IsBoundary o') (hlt : o < o') : glyphCount (t.take o) < glyphCount (t.take o') := by
  obtain ⟨front, hfront, -, hlength, hcount⟩ := ho.exists_runes
  obtain ⟨front', hfront', -, hlength', hcount'⟩ := ho'.exists_runes
  rw [← hcount, ← hcount']
  refine Nat.lt_of_not_le fun hle => ?_
  obtain ⟨rest, rfl⟩ := List.prefix_of_prefix_length_le hfront' hfront hle
  rw [List.flatten_append, List.length_append] at hlength
  omega

/-! ### From the front of the file to the front of the line -/

namespace SourceFile

variable (f : SourceFile)

/-- A line feed stands before each line but the first. -/
theorem seam_lineStart {n : Nat} (h : f.HasLine n) : f.text.Seam (f.lineStart n) := by
  refine .inl fun b hb => ?_
  rcases mem_lineStarts_iff.mp (f.lineStart_mem h) with hzero | ⟨i, hi, hbyte⟩
  · rw [hzero] at hb
    simp at hb
  · rw [hi, List.take_add_one, hbyte, Option.toList_some, List.getLast?_concat] at hb
    obtain rfl : newline = b := Option.some.inj hb
    decide

/-- What stands before an offset has the runes before its line and those before its column. -/
theorem glyphCount_take {o : Nat} (ho : o ≤ f.text.length) :
    glyphCount (f.text.take o) =
      glyphCount (f.text.take (f.lineStart (f.position o).line)) +
        ((f.position o).column - 1) := by
  obtain ⟨hstart, -, hcolumn⟩ := f.bounds_of_position ho
  have hsum := (f.seam_lineStart (f.hasLine_position o)).glyphs_slice (Nat.zero_le _) hstart
  simp only [Text.slice, List.drop_zero] at hsum
  rw [hcolumn, Nat.add_sub_cancel, glyphCount, hsum, List.length_append]
  rfl

end SourceFile

/-- The position is on an earlier line, or further left on the same line. -/
def Position.Precedes (p q : Position) : Prop :=
  p.line < q.line ∨ p.line = q.line ∧ p.column < q.column

theorem Position.Precedes.ne {p q : Position} (h : p.Precedes q) : p ≠ q := by
  rintro rfl
  unfold Precedes at h
  omega

/-- **Between runes, positions go up with offsets.** -/
theorem SourceFile.precedes_of_lt (f : SourceFile) {o o' : Nat} (ho : f.text.IsBoundary o)
    (ho' : f.text.IsBoundary o') (hlt : o < o') : (f.position o).Precedes (f.position o') := by
  have hline := f.line_position_mono (Int.ofNat_le.mpr (Nat.le_of_lt hlt))
  rcases Nat.lt_or_eq_of_le hline with hline | hline
  · exact .inl hline
  · -- on one line, the runes before it count for both
    have hcount := ho.glyphCount_lt ho' hlt
    rw [f.glyphCount_take ho.le_length, f.glyphCount_take ho'.le_length, hline] at hcount
    exact .inr ⟨hline, by omega⟩

/-- **Positions identify offsets**: of two rune boundaries the later one has the later position, so
the position says which boundary it is; and no offset is on a later line than one behind it, whether
at a boundary or not. -/
theorem positions_identify_offsets (f : SourceFile) :
    (∀ o o' : Nat, f.text.IsBoundary o → f.text.IsBoundary o' →
        (o < o' → (f.position o).Precedes (f.position o')) ∧
        (f.position o = f.position o' → o = o')) ∧
      ∀ o o' : Int, o ≤ o' → (f.position o).line ≤ (f.position o').line := by
  refine ⟨fun o o' ho ho' => ⟨f.precedes_of_lt ho ho', fun heq => ?_⟩,
    fun o o' => f.line_position_mono⟩
  rcases Nat.lt_trichotomy o o' with hlt | rfl | hlt
  · exact absurd heq (f.precedes_of_lt ho ho' hlt).ne
  · rfl
  · exact absurd heq.symm (f.precedes_of_lt ho' ho hlt).ne

/-- An accented letter and, on the next line, a stray byte: there is a boundary on either side of
it. -/
theorem positions_identify_offsets_at_stray_byte :
    let f := SourceFile.ofText [] [0xC3, 0xA9, 0x0A, 0xFF, 0x61]
    f.text.IsBoundary 3 ∧ f.text.IsBoundary 4 ∧ (f.position 3).Precedes (f.position 4) := by
  intro f
  have hrunes : Runes f.text [[0xC3, 0xA9], [0x0A], [0xFF], [0x61]] :=
    runes_iff.mpr (by decide +kernel)
  have hbefore : f.text.IsBoundary 3 := ⟨[[0xC3, 0xA9], [0x0A]], [[0xFF], [0x61]], hrunes, rfl⟩
  have hbehind : f.text.IsBoundary 4 := ⟨[[0xC3, 0xA9], [0x0A], [0xFF]], [[0x61]], hrunes, rfl⟩
  exact ⟨hbefore, hbehind, ((positions_identify_offsets f).1 3 4 hbefore hbehind).1 (by decide)⟩

/-- Inside the three bytes of a euro sign, columns go up to the third and back behind it. -/
example :
    let f := SourceFile.ofText [] [0xE2, 0x82, 0xAC]
    (f.position 2).column = 3 ∧ (f.position 3).column = 2 := by
  decide +kernel

end MacroCalls
