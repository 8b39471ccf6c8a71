import MacroCalls.Proofs.Classification
import MacroCalls.Proofs.Guarded.Parse

/-!
# Positions by counting

The position of an offset is found by bisection of the line index, and it is what counting gives:
the line feeds before the offset, clamped into the text, and the runes behind the last of them. The
guarded search looks up every entry of the index that it compares, and the guarded position cuts out
the part of the line before the offset; neither finds an index or a bound out of range
(`Guarded.bisect_eq`, `Guarded.located_eq`). A text is cut into runes in one way
(`Text.runes_iff`), so the number of runes is settled.

Main statement: `position_counts`.
-/

namespace MacroCalls

open Text

/-! ### Runes -/

/-- The first rune of a text is the first glyph. -/
theorem Text.IsFirstRune.eq_bytes_first {b : UInt8} {t w : Text} (h : IsFirstRune (b :: t) w) :
    w = (Glyph.first b t).bytes := by
  obtain ⟨hstart, ⟨c, rfl⟩ | ⟨hlen, hnone⟩⟩ := h
  · rw [← Glyph.encode_eq_utf8EncodeChar] at hstart ⊢
    rw [Glyph.first_eq_scalar_iff.mpr hstart, Glyph.bytes]
  · have hstray : Glyph.first b t = .stray b := by
      rw [Glyph.first_eq_stray_iff]
      intro c
      rw [Glyph.encode_eq_utf8EncodeChar]
      exact hnone c
    obtain ⟨a, rfl⟩ := List.length_eq_one_iff.mp hlen
    obtain ⟨rfl, -⟩ := List.cons_prefix_cons.mp hstart
    rw [hstray, Glyph.bytes]

theorem Text.IsFirstRune.ne_nil {t w : Text} (h : IsFirstRune t w) : w ≠ [] := by
  obtain ⟨-, ⟨c, rfl⟩ | ⟨hlen, -⟩⟩ := h
  · rw [← Glyph.encode_eq_utf8EncodeChar]
    exact Glyph.encode_ne_nil c
  · exact List.ne_nil_of_length_pos (by omega)

/-- **A text has one way to be cut into runes**: rune by rune, these are its glyphs. -/
theorem Text.runes_iff {t : Text} {ws : List Text} :
    Runes t ws ↔ ws = t.glyphs.map Glyph.bytes := by
  constructor
  · intro h
    induction h with
    | nil => simp
    | @cons w t ws hw _ ih =>
      obtain ⟨b, w', rfl⟩ := List.exists_cons_of_ne_nil hw.ne_nil
      have hfirst : b :: w' = (Glyph.first b (w' ++ t)).bytes := hw.eq_bytes_first
      have hrest : (w' ++ t).drop ((Glyph.first b (w' ++ t)).width - 1) = t := by
        rw [Glyph.width, ← hfirst, List.length_cons, Nat.add_sub_cancel, List.drop_left]
      rw [List.cons_append, glyphs, List.map_cons, hrest, ← hfirst, ih]
  · rintro rfl
    exact runes_glyphs t

/-! ### Guarded bisection -/

namespace Guarded

/-- The least index in `[lo, hi]` from which on an increasing list lies above `x`, by bisection. -/
def bisect (l : List Nat) (x lo hi : Nat) : Option Nat := do
  if lo < hi then
    let middle ← entry l ((lo + hi) / 2 : Nat)
    if x < middle then bisect l x lo ((lo + hi) / 2) else bisect l x ((lo + hi) / 2 + 1) hi
  else some lo
termination_by hi - lo
decreasing_by all_goals omega

/-- The position of an offset, with its line found by guarded bisection. -/
def located (f : SourceFile) (offset : Int) : Option Position := do
  let o := f.text.clamp offset
  let n ← bisect f.starts.toList o 0 f.starts.size
  let start ← entry f.starts.toList (n - 1)
  let front ← slice f.text start o
  some ⟨n, front.glyphCount + 1⟩

/-- **Guarded bisection** looks at entries of the list only. -/
theorem bisect_eq (a : Array Nat) (x lo hi : Nat) (hhi : hi ≤ a.size) :
    bisect a.toList x lo hi = some (firstAbove a x lo hi hhi) := by
  have hentry : ∀ i (h : i < a.size), entry a.toList (i : Nat) = some a[i] := by
    intro i h
    rw [entry_natCast, Array.getElem?_toList, Array.getElem?_eq_getElem h]
  fun_induction firstAbove a x lo hi hhi with
  | case1 lo hi hhi hlt hx ih =>
    rw [bisect, if_pos hlt, hentry _ (by omega), Option.bind_eq_bind, Option.bind_some, if_pos hx]
    exact ih
  | case2 lo hi hhi hlt hx ih =>
    rw [bisect, if_pos hlt, hentry _ (by omega), Option.bind_eq_bind, Option.bind_some, if_neg hx]
    exact ih
  | case3 lo hi hhi hlt => rw [bisect, if_neg hlt]

theorem located_eq (f : SourceFile) (offset : Int) :
    located f offset = some (f.position offset) := by
  rw [located, bisect_eq f.starts _ 0 _ (Nat.le_refl _), Option.bind_eq_bind, Option.bind_some,
    ← position_eq]
  rfl

end Guarded

/-! ### Counting -/

theorem SourceFile.position_clamp (f : SourceFile) (offset : Int) :
    f.position offset = f.position (f.text.clamp offset) := by
  have hclamp : f.text.clamp (f.text.clamp offset : Int) = f.text.clamp offset := by
    have := f.text.clamp_le offset
    rw [Text.clamp, Int.toNat_natCast]
    omega
  simp only [position, hclamp]

/-- **Positions count**: the line of an offset is one more than the line feeds before it, and the
column one more than the runes behind the last of them, wherever the offset is. -/
theorem position_counts (name src : Text) (offset : Int) :
    let f := SourceFile.ofText name src
    let before : Text := src.take (max 0 (min offset src.length)).toNat
    Guarded.located f offset = some (f.position offset) ∧
      (f.position offset).line = 1 + before.count newline ∧
      ∃! rs, Runes (lastLine before) rs ∧ (f.position offset).column = 1 + rs.length := by
  intro f before
  have hclamp : (max 0 (min offset src.length)).toNat = src.clamp offset := by
    unfold clamp
    omega
  have hbefore : before = src.take (src.clamp offset) := by rw [← hclamp]
  have hposition : f.position offset =
      ⟨1 + before.count newline, 1 + glyphCount (lastLine before)⟩ := by
    rw [f.position_clamp, hbefore, Nat.add_comm 1, Nat.add_comm 1]
    exact SourceFile.position_eq_count name src (src.clamp_le offset)
  refine ⟨Guarded.located_eq f offset, ?_, (lastLine before).glyphs.map Glyph.bytes, ⟨?_, ?_⟩, ?_⟩
  · rw [hposition]
  · exact runes_glyphs _
  · rw [hposition, List.length_map, glyphCount]
  · exact fun rs h => runes_iff.mp h.1

end MacroCalls
