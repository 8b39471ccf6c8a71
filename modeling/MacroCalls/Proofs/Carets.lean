import MacroCalls.Proofs.Columns

/-!
# Carets under a line

The carets for a span go from the column of its start, one for each glyph of the part that it covers
of its line. Columns and carets are counted in separate parts of the line, so they only add up for
spans that are cut between glyphs (`Span.Aligned`). For these the first caret stands under the glyph
at the start of the part and the last one under the glyph that holds its last byte
(`Span.Aligned.underlines`). They stay under the line as it is shown unless a carriage return ends
the line and the span reaches over it (`Span.Aligned.reach_le_iff`).
-/

namespace MacroCalls

open Text

/-- The span starts and ends between glyphs of the text, or covers just one glyph or the first byte
of one. -/
def Span.Aligned (s : Span) (t : Text) : Prop :=
  ∃ lo hi : Nat, s = ⟨lo, hi⟩ ∧ lo ≤ hi ∧ hi ≤ t.length ∧ t.Seam lo ∧
    (t.Seam hi ∨ ∃ b rest, t.drop lo = b :: rest ∧
      (hi = lo + 1 ∨ hi = lo + (Glyph.first b rest).width))

namespace SourceFile

/-- Glyph `k` of line `n`, counted from zero, starts at an offset. -/
def GlyphStartsAt (f : SourceFile) (n k : Nat) (offset : Int) : Prop :=
  k < (f.rawLine n).glyphCount ∧ (f.lineStart n + (f.rawLine n).glyphStart k : Nat) = offset

/-- Glyph `k` of line `n`, counted from zero, holds the byte at an offset. -/
def GlyphHolds (f : SourceFile) (n k : Nat) (offset : Int) : Prop :=
  ∃ i : Nat, (f.lineStart n + i : Nat) = offset ∧ (f.rawLine n).Holds k i

/-- **Carets under a span**: `width` carets from a column of line `n` on, the first under the glyph
at the start of the span, the last under the glyph that holds the last byte that the span covers of
the line; or a single caret if it covers nothing of the line. -/
structure Underlines (f : SourceFile) (n : Nat) (s : Span) (column width : Nat) : Prop where
  first : s.start < min s.stop (f.lineEnd n) → f.GlyphStartsAt n (column - 1) s.start
  last : s.start < min s.stop (f.lineEnd n) →
    0 < width ∧ f.GlyphHolds n (column - 1 + (width - 1)) (min s.stop (f.lineEnd n) - 1)
  empty : min s.stop (f.lineEnd n) ≤ s.start → width = 1

/-- The number of columns of line `n` that the carets for a span which starts there reach over, or,
if the span covers nothing of the line, that stand before its caret. -/
def reach (f : SourceFile) (n : Nat) (s : Span) (width : Nat) : Nat :=
  let column := (f.position s.start).column
  if s.start < min s.stop (f.lineEnd n) then column - 1 + width else column - 1

end SourceFile

/-- The bytes that a span covers of the first `n` bytes of a text. -/
theorem Span.slice_take {t : Text} {lo hi n : Nat} (hlo : lo ≤ n) (hn : n ≤ hi)
    (hlen : n ≤ t.length) : (Span.mk lo hi).slice (t.take n) = t.slice lo n := by
  have hstart : clamp (t.take n) lo = lo := by
    rw [clamp, List.length_take, Int.toNat_natCast]
    omega
  have hstop : clamp (t.take n) hi = n := by
    rw [clamp, List.length_take, Int.toNat_natCast]
    omega
  rw [Span.slice, hstart, hstop, Text.slice, Text.slice, List.take_take, Nat.min_self]

theorem Excerpt.caretCount_natCast (f : SourceFile) (n lo hi : Nat) :
    caretCount f n ⟨lo, hi⟩ = .ok (if min hi (f.lineEnd n) ≤ lo then 1
      else (f.text.slice lo (min hi (f.lineEnd n))).glyphCount) := by
  have hmin : min (hi : Int) (f.lineEnd n) = (min hi (f.lineEnd n) : Nat) := by omega
  have hend := f.lineEnd_le n
  rw [caretCount]
  simp only [hmin]
  by_cases hle : min hi (f.lineEnd n) ≤ lo
  · rw [if_pos (by omega), if_pos hle]
  · rw [if_neg (by omega), if_neg (by omega), if_neg hle, Int.toNat_natCast,
      Span.slice_take (by omega) (by omega) (by omega)]

/-! ### Where the carets stand -/

section Line

variable {f : SourceFile} {n lo hi : Nat}

theorem SourceFile.glyphs_rawLine (hseam : f.text.Seam lo) (hlo : f.lineStart n ≤ lo)
    (hhi : lo ≤ f.lineEnd n) :
    (f.rawLine n).glyphs =
      (f.text.slice (f.lineStart n) lo).glyphs ++ (f.text.slice lo (f.lineEnd n)).glyphs :=
  hseam.glyphs_slice hlo hhi

theorem SourceFile.length_slice_lineStart (hlen : lo ≤ f.text.length) :
    (f.text.slice (f.lineStart n) lo).length = lo - f.lineStart n := by
  rw [length_slice]
  omega

/-- The glyph behind a seam starts there. -/
theorem SourceFile.glyphStartsAt_of_seam (hseam : f.text.Seam lo) (hlo : f.lineStart n ≤ lo)
    (hlt : lo < f.lineEnd n) :
    f.GlyphStartsAt n (f.text.slice (f.lineStart n) lo).glyphCount lo := by
  have hend := f.lineEnd_le n
  have hraw := glyphs_rawLine hseam hlo (by omega)
  have hstart := glyphStart_glyphCount hraw
  rw [length_slice_lineStart (by omega)] at hstart
  constructor
  · have hpos : 0 < (f.text.slice lo (f.lineEnd n)).glyphCount := by
      refine glyphCount_pos (List.length_pos_iff.mp ?_)
      rw [length_slice]
      omega
    have hcount := congrArg List.length hraw
    rw [List.length_append] at hcount
    unfold glyphCount at hpos ⊢
    omega
  · rw [hstart]
    omega

/-- The glyph before a seam holds the byte before it. -/
theorem SourceFile.glyphHolds_of_seam (hseam : f.text.Seam hi) (hlo : f.lineStart n < hi)
    (hle : hi ≤ f.lineEnd n) :
    f.GlyphHolds n ((f.text.slice (f.lineStart n) hi).glyphCount - 1) ((hi : Int) - 1) := by
  have hend := f.lineEnd_le n
  have hraw := glyphs_rawLine hseam (by omega) hle
  have hstop := glyphStart_glyphCount hraw
  have hlen := length_slice_lineStart (f := f) (n := n) (by omega : hi ≤ f.text.length)
  have hpos : 0 < (f.text.slice (f.lineStart n) hi).glyphCount :=
    glyphCount_pos (List.length_pos_iff.mp (by omega))
  have hlast := glyphStart_strictMono (Nat.sub_lt hpos Nat.one_pos) (glyphCount_le_of_append hraw)
  refine ⟨hi - 1 - f.lineStart n, by omega, ?_⟩
  rw [Holds, Nat.sub_add_cancel hpos]
  omega

/-- The glyph behind a seam holds all of its bytes. -/
theorem SourceFile.glyphHolds_of_first (hseam : f.text.Seam lo) (hlo : f.lineStart n ≤ lo)
    (hlt : lo < f.lineEnd n) {b : UInt8} {rest : Text} (hdrop : f.text.drop lo = b :: rest)
    {i : Nat} (hi : i < (Glyph.first b rest).width) :
    lo + i < f.lineEnd n ∧
      f.GlyphHolds n (f.text.slice (f.lineStart n) lo).glyphCount ((lo + i : Nat) : Int) := by
  have hend := f.lineEnd_le n
  -- the rest of the line starts with the same glyph as the rest of the file
  have hcut : f.text.drop lo = f.text.slice lo (f.lineEnd n) ++ f.text.drop (f.lineEnd n) :=
    (slice_append_drop (Nat.le_of_lt hlt)).symm
  have hlen : (f.text.slice lo (f.lineEnd n)).length = f.lineEnd n - lo := by
    rw [length_slice]
    omega
  obtain ⟨c, r, hcr⟩ := List.exists_cons_of_ne_nil
    (List.length_pos_iff.mp (by omega) : f.text.slice lo (f.lineEnd n) ≠ [])
  rw [hdrop, hcr, List.cons_append, List.cons.injEq] at hcut
  obtain ⟨rfl, rfl⟩ := hcut
  have hfirst : Glyph.first b (r ++ f.text.drop (f.lineEnd n)) = Glyph.first b r :=
    first_append fun c hc => Glyph.isUTF8FirstByte_of_ascii (f.head?_drop_lineEnd n c hc)
  rw [hfirst] at hi
  have hwidth := Glyph.width_first_le b r
  rw [hcr, List.length_cons] at hlen
  refine ⟨by omega, lo + i - f.lineStart n, by omega, ?_⟩
  have hraw := glyphs_rawLine hseam hlo (by omega)
  have hstart := glyphStart_glyphCount hraw
  have hnext : (f.rawLine n).glyphStart ((f.text.slice (f.lineStart n) lo).glyphCount + 1) =
      lo - f.lineStart n + (Glyph.first b r).width := by
    rw [glyphStart, hraw, hcr, glyphs, glyphCount, List.take_length_add_append,
      List.flatMap_append, flatMap_bytes_glyphs, List.length_append,
      length_slice_lineStart (by omega)]
    simp [Glyph.width]
  rw [length_slice_lineStart (by omega)] at hstart
  rw [Holds, hstart, hnext]
  omega

end Line

/-- One glyph, or the first byte of one, is counted as one glyph. -/
theorem Text.glyphCount_slice_first {t : Text} {lo hi : Nat} {b : UInt8} {rest : Text}
    (hdrop : t.drop lo = b :: rest)
    (h : hi = lo + 1 ∨ hi = lo + (Glyph.first b rest).width) : (t.slice lo hi).glyphCount = 1 := by
  rw [slice, List.drop_take, hdrop]
  rcases h with rfl | rfl
  · rw [Nat.add_sub_cancel_left, List.take_succ_cons, List.take_zero]
    exact glyphCount_bytes (.stray b)
  · rw [Nat.add_sub_cancel_left, ← Glyph.bytes_first_append_drop b rest, Glyph.width,
      List.take_left]
    exact glyphCount_bytes _

/-- The last caret: as many carets as the part of the line has glyphs, from the glyph at its start
on, end under the glyph that holds its last byte. -/
theorem SourceFile.glyphHolds_last {f : SourceFile} {n lo hi : Nat} (hstart : f.lineStart n ≤ lo)
    (hlt : lo < min hi (f.lineEnd n)) (hseam : f.text.Seam lo)
    (hstop : f.text.Seam hi ∨ ∃ b rest, f.text.drop lo = b :: rest ∧
      (hi = lo + 1 ∨ hi = lo + (Glyph.first b rest).width)) :
    let width := (f.text.slice lo (min hi (f.lineEnd n))).glyphCount
    0 < width ∧ f.GlyphHolds n ((f.text.slice (f.lineStart n) lo).glyphCount + (width - 1))
      ((min hi (f.lineEnd n) : Nat) - 1) := by
  have hend := f.lineEnd_le n
  by_cases hseam' : f.text.Seam (min hi (f.lineEnd n))
  · -- the carets are under the glyphs between two seams
    have hsum := congrArg List.length (hseam.glyphs_slice hstart (Nat.le_of_lt hlt))
    have hholds := glyphHolds_of_seam hseam' (by omega : f.lineStart n < _) (Nat.min_le_right ..)
    have hpos : 0 < (f.text.slice lo (min hi (f.lineEnd n))).glyphCount := by
      refine glyphCount_pos (List.length_pos_iff.mp ?_)
      rw [length_slice]
      omega
    refine ⟨hpos, ?_⟩
    rw [List.length_append] at hsum
    unfold glyphCount at hpos hholds ⊢
    rwa [hsum, Nat.add_sub_assoc hpos] at hholds
  · -- there is but one caret
    rcases hstop with hhi | ⟨b, rest, hdrop, hone⟩
    · rcases Nat.le_total hi (f.lineEnd n) with hle | hle
      · rw [Nat.min_eq_left hle] at hseam'
        exact absurd hhi hseam'
      · rw [Nat.min_eq_right hle] at hseam'
        exact absurd (f.seam_lineEnd n) hseam'
    · have hwidth := (Glyph.first b rest).width_pos
      obtain ⟨hin, hholds⟩ := glyphHolds_of_first hseam hstart (by omega) hdrop
        (by omega : hi - 1 - lo < (Glyph.first b rest).width)
      rw [Nat.min_eq_left (by omega), glyphCount_slice_first hdrop hone]
      refine ⟨Nat.one_pos, ?_⟩
      rwa [(by omega : ((lo + (hi - 1 - lo) : Nat) : Int) = hi - 1)] at hholds

namespace Span.Aligned

variable {f : SourceFile} {s : Span}

/-- **Carets for an aligned span** stand under what it covers of its line. -/
theorem underlines (h : s.Aligned f.text) :
    ∃ width, Excerpt.caretCount f (f.position s.start).line s = .ok width ∧
      f.Underlines (f.position s.start).line s (f.position s.start).column width := by
  obtain ⟨lo, hi, rfl, hle, hlen, hseam, hstop⟩ := h
  obtain ⟨hstart, hend, hcolumn⟩ := f.bounds_of_position (by omega : lo ≤ f.text.length)
  dsimp only
  rw [hcolumn]
  generalize (f.position lo).line = n at hstart hend
  refine ⟨_, Excerpt.caretCount_natCast f n lo hi, ?_⟩
  by_cases hempty : min hi (f.lineEnd n) ≤ lo
  · have hnone : ¬ (lo : Int) < min (hi : Int) (f.lineEnd n) := by omega
    rw [if_pos hempty]
    exact ⟨fun h => absurd h hnone, fun h => absurd h hnone, fun _ => rfl⟩
  · have hsome : ¬ min (hi : Int) (f.lineEnd n) ≤ lo := by omega
    have hmin : min (hi : Int) (f.lineEnd n) = (min hi (f.lineEnd n) : Nat) := by omega
    have hlast := SourceFile.glyphHolds_last hstart (by omega) hseam hstop
    rw [← hmin] at hlast
    rw [if_neg hempty]
    exact ⟨fun _ => SourceFile.glyphStartsAt_of_seam hseam hstart (by omega), fun _ => hlast,
      fun h => absurd h hsome⟩

theorem bounds (h : s.Aligned f.text) :
    (f.lineStart (f.position s.start).line : Int) ≤ s.start ∧
      s.start ≤ f.lineEnd (f.position s.start).line ∧ s.start ≤ s.stop := by
  obtain ⟨lo, hi, rfl, hle, hlen, -⟩ := h
  obtain ⟨hstart, hend, -⟩ := f.bounds_of_position (by omega : lo ≤ f.text.length)
  dsimp only
  omega

/-- The carets reach as far into the glyphs of the line as the span does into its bytes. -/
theorem reach_le_glyphCount_iff (h : s.Aligned f.text) {n width : Nat}
    (hn : n = (f.position s.start).line) (hwidth : Excerpt.caretCount f n s = .ok width)
    {t : Text} {gs : List Glyph} (ht : (f.rawLine n).glyphs = t.glyphs ++ gs) :
    f.reach n s width ≤ t.glyphCount ↔
      max s.start (min s.stop (f.lineEnd n)) ≤ f.lineStart n + t.length := by
  rw [SourceFile.reach]
  split
  · rename_i hpart
    obtain ⟨width', hwidth', hunder⟩ := h.underlines
    rw [← hn, hwidth] at hwidth'
    cases hwidth'
    rw [← hn] at hunder
    obtain ⟨hpos, i, hi, hholds⟩ := hunder.last hpart
    have hlast := hholds.lt_glyphCount_iff ht
    omega
  · rename_i hempty
    obtain ⟨lo, hi, rfl, hle, hlen, hseam, -⟩ := h
    obtain ⟨hstart, hend, hcolumn⟩ := f.bounds_of_position (by omega : lo ≤ f.text.length)
    dsimp only at hn hempty ⊢
    rw [hcolumn, Nat.add_sub_cancel]
    rw [← hn] at hstart hend ⊢
    have hfront := glyphCount_le_iff (SourceFile.glyphs_rawLine hseam hstart hend) ht
    rw [SourceFile.length_slice_lineStart (by omega)] at hfront
    omega

/-- **Carets stay under the shown line** unless it leaves out a carriage return that the span
reaches over, and then they go one column too far. -/
theorem reach_le_iff (h : s.Aligned f.text) {n width : Nat} (hn : n = (f.position s.start).line)
    (hwidth : Excerpt.caretCount f n s = .ok width) :
    (f.reach n s width ≤ (f.line n).glyphCount ↔
        ¬ ((f.rawLine n).getLast? = some carriageReturn ∧ f.lineEnd n ≤ s.stop)) ∧
      f.reach n s width ≤ (f.line n).glyphCount + 1 := by
  have hbounds := h.bounds
  rw [← hn] at hbounds
  obtain ⟨gs, hgs, hone⟩ := glyphs_dropCarriageReturn (f.rawLine n)
  have hshown := length_dropCarriageReturn (f.rawLine n)
  rw [← f.line_eq_dropCarriageReturn] at hgs hshown
  have hline := h.reach_le_glyphCount_iff hn hwidth hgs
  have hraw := h.reach_le_glyphCount_iff hn hwidth (List.append_nil (f.rawLine n).glyphs).symm
  have hlength := f.length_rawLine n
  have hcount : (f.rawLine n).glyphCount ≤ (f.line n).glyphCount + 1 := by
    rw [glyphCount, hgs, List.length_append, glyphCount]
    omega
  split at hshown
  · rename_i hreturn
    have hpos := List.length_pos_iff.mpr (List.ne_nil_of_mem (List.mem_of_getLast? hreturn))
    simp only [hreturn, true_and]
    omega
  · rename_i hreturn
    simp only [hreturn, false_and, not_false_eq_true, iff_true]
    omega

end Span.Aligned

end MacroCalls
