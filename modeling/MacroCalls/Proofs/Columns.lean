import MacroCalls.Proofs.LineIndex
import MacroCalls.Proofs.Spans
import MacroCalls.Proofs.Utf8
import MacroCalls.Report.Excerpt

/-!
# Columns of a line

Columns count glyphs and offsets count bytes. `Text.glyphStart` goes from the one to the other: it
increases strictly over the glyphs of a text, so where two parts at the front of a text are cut
between glyphs, the longer part has more glyphs (`Text.glyphCount_le_iff`). Glyphs of a part only
add up to those of the whole when the cut is between glyphs. An ASCII byte on either side of the
cut makes sure of that (`Text.Seam`), and lines of a file end at such a seam.
-/

namespace MacroCalls

namespace Text

/-! ### Seams -/

/-- There is an ASCII byte, or nothing at all, before offset `i` or at it. -/
def Seam (t : Text) (i : Nat) : Prop :=
  (∀ b ∈ (t.take i).getLast?, b < 0x80) ∨ ∀ b ∈ (t.drop i).head?, b < 0x80

/-- **Glyphs add up** over a seam. -/
theorem Seam.glyphs_slice {t : Text} {lo i hi : Nat} (h : t.Seam i) (hlo : lo ≤ i)
    (hhi : i ≤ hi) : (t.slice lo hi).glyphs = (t.slice lo i).glyphs ++ (t.slice i hi).glyphs := by
  rw [← slice_append_slice hlo hhi]
  rcases h with h | h
  · refine glyphs_append_of_getLast? fun b hb => h b ?_
    rw [slice, List.getLast?_drop] at hb
    split at hb
    · cases hb
    · exact hb
  · refine glyphs_append fun b hb => Glyph.isUTF8FirstByte_of_ascii (h b ?_)
    rw [slice, List.drop_take, List.head?_take] at hb
    split at hb
    · cases hb
    · exact hb

/-! ### Where glyphs start -/

/-- The offset at which glyph `k` of a text starts, counted from zero. -/
def glyphStart (t : Text) (k : Nat) : Nat := ((t.glyphs.take k).flatMap Glyph.bytes).length

section GlyphStart

variable {t s u : Text} {gs gs' : List Glyph} {i j k : Nat}

theorem glyphStart_succ (h : k < t.glyphCount) : t.glyphStart k < t.glyphStart (k + 1) := by
  have hwidth := (t.glyphs.get ⟨k, h⟩).width_pos
  rw [glyphStart, glyphStart, List.take_succ_eq_append_getElem h, List.flatMap_append,
    List.length_append, List.flatMap_singleton]
  exact Nat.lt_add_of_pos_right hwidth

theorem glyphStart_mono (h : i ≤ j) : t.glyphStart i ≤ t.glyphStart j := by
  have hcut : (t.glyphs.take j).take i = t.glyphs.take i := by
    rw [List.take_take, Nat.min_eq_left h]
  rw [glyphStart, glyphStart, ← hcut]
  conv => rhs; rw [← List.take_append_drop i (t.glyphs.take j)]
  rw [List.flatMap_append, List.length_append]
  exact Nat.le_add_right ..

theorem glyphStart_strictMono (h : i < j) (hj : j ≤ t.glyphCount) :
    t.glyphStart i < t.glyphStart j :=
  Nat.lt_of_lt_of_le (glyphStart_succ (by omega)) (glyphStart_mono (by omega : i + 1 ≤ j))

/-- The glyphs of a part at the front of a text end where the part ends. -/
theorem glyphStart_glyphCount (h : t.glyphs = s.glyphs ++ gs) :
    t.glyphStart s.glyphCount = s.length := by
  rw [glyphStart, h, glyphCount, List.take_left, flatMap_bytes_glyphs]

theorem glyphCount_le_of_append (h : t.glyphs = s.glyphs ++ gs) :
    s.glyphCount ≤ t.glyphCount := by
  rw [glyphCount, glyphCount, h, List.length_append]
  exact Nat.le_add_right ..

/-- **Parts at the front** of a text compare in glyphs as they do in bytes. -/
theorem glyphCount_le_iff (hs : t.glyphs = s.glyphs ++ gs) (hu : t.glyphs = u.glyphs ++ gs') :
    s.glyphCount ≤ u.glyphCount ↔ s.length ≤ u.length := by
  rw [← glyphStart_glyphCount hs, ← glyphStart_glyphCount hu]
  refine ⟨glyphStart_mono, fun h => Nat.le_of_not_lt fun hlt => ?_⟩
  have := glyphStart_strictMono hlt (glyphCount_le_of_append hs)
  omega

/-- Glyph `k` of the text holds the byte at offset `i`. -/
def Holds (t : Text) (k i : Nat) : Prop := t.glyphStart k ≤ i ∧ i < t.glyphStart (k + 1)

/-- A glyph belongs to a part at the front of a text just if a byte of it does. -/
theorem Holds.lt_glyphCount_iff (h : t.Holds k i) (hs : t.glyphs = s.glyphs ++ gs) :
    k < s.glyphCount ↔ i < s.length := by
  obtain ⟨hlo, hhi⟩ := h
  rw [← glyphStart_glyphCount hs]
  constructor
  · intro hk
    have := glyphStart_mono (t := t) (by omega : k + 1 ≤ s.glyphCount)
    omega
  · intro hi
    refine Nat.lt_of_not_le fun hk => ?_
    have := glyphStart_mono (t := t) hk
    omega

theorem glyphCount_bytes (x : Glyph) : x.bytes.glyphCount = 1 := by
  cases x with
  | scalar c =>
    have h := glyphs_encode_append c []
    rw [List.append_nil, glyphs_nil] at h
    rw [glyphCount, Glyph.bytes, h, List.length_singleton]
  | stray b =>
    rw [glyphCount, Glyph.bytes, glyphs, List.drop_nil, glyphs_nil, List.length_singleton]

theorem glyphCount_pos (h : t ≠ []) : 0 < t.glyphCount := by
  obtain ⟨b, t, rfl⟩ := List.exists_cons_of_ne_nil h
  rw [glyphCount, glyphs, List.length_cons]
  exact Nat.succ_pos _

end GlyphStart

/-! ### Line ends -/

/-- At most one glyph ends a line besides its line feed. -/
theorem glyphs_dropCarriageReturn (t : Text) :
    ∃ gs, t.glyphs = t.dropCarriageReturn.glyphs ++ gs ∧ gs.length ≤ 1 := by
  rw [dropCarriageReturn]
  split
  · rename_i h
    obtain ⟨s, rfl⟩ := List.getLast?_eq_some_iff.mp h
    rw [List.dropLast_concat]
    refine ⟨_, glyphs_append fun b hb => ?_, Nat.le_of_eq (glyphCount_bytes (.stray _))⟩
    cases hb
    exact Glyph.isUTF8FirstByte_of_ascii (by decide)
  · exact ⟨[], (List.append_nil _).symm, Nat.zero_le _⟩

theorem length_dropCarriageReturn (t : Text) :
    t.dropCarriageReturn.length =
      t.length - if t.getLast? = some carriageReturn then 1 else 0 := by
  rw [dropCarriageReturn]
  split
  · exact List.length_dropLast
  · rfl

theorem head?_of_mem_afterNewlines {t : Text} {o k : Nat} (h : k ∈ afterNewlines o t) :
    (t.drop (k - 1 - o)).head? = some newline := by
  induction t generalizing o with
  | nil => simp [afterNewlines] at h
  | cons b t ih =>
    have hrest : k ∈ afterNewlines (o + 1) t →
        ((b :: t).drop (k - 1 - o)).head? = some newline := by
      intro hk
      have hlt := (bounds_of_mem_afterNewlines hk).1
      rw [(by omega : k - 1 - o = (k - 1 - (o + 1)) + 1), List.drop_succ_cons]
      exact ih hk
    rw [afterNewlines] at h
    split at h
    · rename_i hb
      rcases List.mem_cons.mp h with rfl | h
      · rw [Nat.add_sub_cancel, Nat.sub_self, hb]
        rfl
      · exact hrest h
    · exact hrest h

end Text

namespace SourceFile

open Text

variable (f : SourceFile)

/-! ### Lines with what ends them -/

/-- The offset at which line `n` starts. -/
def lineStart (n : Nat) : Nat :=
  match f.lineBounds? n with
  | some (lo, _) => lo
  | none => f.text.length

/-- The text of line `n` up to its line feed, with the carriage return that may stand there. -/
def rawLine (n : Nat) : Text := f.text.slice (f.lineStart n) (f.lineEnd n)

theorem length_rawLine (n : Nat) : (f.rawLine n).length = f.lineEnd n - f.lineStart n := by
  have := f.lineEnd_le n
  rw [rawLine, length_slice]
  omega

theorem line_eq_dropCarriageReturn (n : Nat) : f.line n = (f.rawLine n).dropCarriageReturn := by
  rw [line, rawLine, lineStart, lineEnd]
  cases h : f.lineBounds? n with
  | none =>
    have hnil : f.text.slice f.text.length f.text.length = [] :=
      List.length_eq_zero_iff.mp (by rw [length_slice]; omega)
    dsimp only
    rw [hnil]
    rfl
  | some bounds => rfl

/-- Lines end at a line feed or with the file. -/
theorem head?_drop_lineEnd (n : Nat) : ∀ b ∈ (f.text.drop (f.lineEnd n)).head?, b < 0x80 := by
  intro b hb
  rw [lineEnd] at hb
  cases h : f.lineBounds? n with
  | none => simp [h] at hb
  | some bounds =>
    simp only [h] at hb
    rw [lineBounds?] at h
    split at h
    · rename_i hn
      cases h
      dsimp only at hb
      split at hb
      · rename_i hlt
        have hsize := f.size_starts
        have hmem : f.starts[n] ∈ afterNewlines 0 f.text := by
          simp only [f.starts_eq, List.getElem_toArray, lineStarts]
          rw [List.getElem_cons, dif_neg (by omega)]
          exact List.getElem_mem _
        have hfeed := head?_of_mem_afterNewlines hmem
        rw [Nat.sub_zero] at hfeed
        rw [hfeed] at hb
        cases hb
        decide
      · simp at hb
    · cases h

theorem seam_lineEnd (n : Nat) : f.text.Seam (f.lineEnd n) := .inr (f.head?_drop_lineEnd n)

/-- **An offset lies on its line**, and its column counts the glyphs before it there. -/
theorem bounds_of_position {o : Nat} (ho : o ≤ f.text.length) :
    f.lineStart (f.position o).line ≤ o ∧ o ≤ f.lineEnd (f.position o).line ∧
      (f.position o).column =
        (f.text.slice (f.lineStart (f.position o).line) o).glyphCount + 1 := by
  have hclamp : f.text.clamp o = o := by
    rw [clamp, Int.toNat_natCast]
    omega
  have hpos := f.lineAt_pos o
  have hle := f.lineAt_le o
  have hstart := f.starts_lineAt_le o (by omega)
  simp only [position, hclamp, lineStart, lineEnd, lineBounds?]
  rw [dif_pos ⟨hpos, hle⟩]
  refine ⟨hstart, ?_, rfl⟩
  dsimp only
  split
  · rename_i hlt
    have hnext := (f.lt_lineAt_iff o (f.lineAt o) hlt).not.mp (Nat.lt_irrefl _)
    omega
  · exact ho

end SourceFile

end MacroCalls
