import Mathlib.Data.List.Chain
import MacroCalls.Proofs.Pieces

/-!
# Format strings as tilings

A text is a format string just if it can be read into pieces, and the pieces then tile it: they
stand at consecutive ranges of its indices, stretches of plain bytes and placeholders, no two
stretches side by side. There is only one such tiling, so it says what is read
(`pieces_eq_ok_iff_tiled`). The placeholders in it reach from the opening braces of the text to the
closing ones, in order.

Main statement: `pieces_tile_format`.
-/

namespace MacroCalls

open Text

namespace FormatString

/-- Ranges of indices, none of them empty, that lead from `i` to `k`: each starts where the one
before it stops. -/
inductive Consecutive : Nat → List (Nat × Nat) → Nat → Prop
  | nil {i : Nat} : Consecutive i [] i
  | cons {i j k : Nat} {rs : List (Nat × Nat)} (hlt : i < j) (h : Consecutive j rs k) :
      Consecutive i ((i, j) :: rs) k

theorem Consecutive.le {i k : Nat} {rs : List (Nat × Nat)} (h : Consecutive i rs k) : i ≤ k := by
  induction h with
  | nil => exact Nat.le_refl _
  | cons hlt _ ih => omega

/-- The piece is what stands at a range of indices of a text whose first byte has offset `base`. -/
structure StandsAt (base : Int) (t : Text) (p : Piece) (r : Nat × Nat) : Prop where
  span_eq : p.span = ⟨wrap64 (base + r.1), wrap64 (base + r.2)⟩
  literal : p.kind = .literal →
    p.val = t.slice r.1 r.2 ∧ openBrace ∉ p.val ∧ closeBrace ∉ p.val
  placeholder : p.kind = .placeholder → p.val = [] ∧
    ∃ blanks, IsBlankRun blanks ∧ t.slice r.1 r.2 = openBrace :: (blanks ++ [closeBrace])

/-- **Pieces tile a text** whose first byte has offset `base`. -/
structure Tiled (base : Int) (t : Text) (ps : List Piece) : Prop where
  ranges : ∃ rs, Consecutive 0 rs t.length ∧ List.Forall₂ (StandsAt base t) ps rs
  apart : ps.IsChain fun p q => ¬ (p.kind = .literal ∧ q.kind = .literal)
  /-- The placeholders start at the opening braces, -/
  opens : (Piece.placeholders ps).map (·.start) =
    (t.idxsOf openBrace).map fun i : Nat => wrap64 (base + i)
  /-- and stop behind the closing ones. -/
  closes : (Piece.placeholders ps).map (·.stop) =
    (t.idxsOf closeBrace).map fun i : Nat => wrap64 (base + (i + 1 : Nat))
  count_open : (Piece.placeholders ps).length = t.count openBrace
  count_close : (Piece.placeholders ps).length = t.count closeBrace

/-! ### From pieces to ranges -/

theorem not_mem_of_plain {s : Text} (hs : ∀ b ∈ s, isPlain b = true) :
    openBrace ∉ s ∧ closeBrace ∉ s :=
  ⟨fun h => (isPlain_iff.mp (hs _ h)).1 rfl, fun h => (isPlain_iff.mp (hs _ h)).2 rfl⟩

theorem plain_of_not_mem {s : Text} (hopen : openBrace ∉ s) (hclose : closeBrace ∉ s) :
    ∀ b ∈ s, isPlain b = true :=
  fun _ hb => isPlain_iff.mpr ⟨ne_of_mem_of_not_mem hb hopen, ne_of_mem_of_not_mem hb hclose⟩

namespace Pieced

variable {base : Int} {i : Nat} {t : Text} {ps : List Piece}

/-- The pieces of the rest of a text stand in the text, one behind the other. -/
theorem exists_ranges (h : Pieced base i t ps) (front : Text) (hfront : front.length = i) :
    ∃ rs, Consecutive i rs (i + t.length) ∧ List.Forall₂ (StandsAt base (front ++ t)) ps rs := by
  induction h generalizing front with
  | nil => exact ⟨[], .nil, .nil⟩
  | @literal i s t ps hne hs ht h ih =>
    obtain ⟨rs, hrs, hstands⟩ := ih (front ++ s) (by rw [List.length_append, hfront])
    rw [List.append_assoc] at hstands
    have hslice := (Text.slice_append_of_length (w := s) (c := t) hfront).1
    have hpos := List.length_pos_iff.mpr hne
    rw [List.length_append, ← Nat.add_assoc]
    refine ⟨(i, i + s.length) :: rs, .cons (by omega) hrs, .cons ⟨rfl, ?_, by simp⟩ hstands⟩
    exact fun _ => ⟨hslice.symm, not_mem_of_plain hs⟩
  | @placeholder i blanks t ps hblanks h ih =>
    have hsplit : openBrace :: (blanks ++ closeBrace :: t) =
        openBrace :: (blanks ++ [closeBrace]) ++ t := by simp
    have hlen : (openBrace :: (blanks ++ [closeBrace])).length = blanks.length + 2 := by simp
    obtain ⟨rs, hrs, hstands⟩ := ih (front ++ openBrace :: (blanks ++ [closeBrace]))
      (by rw [List.length_append, hfront, hlen])
    rw [List.append_assoc] at hstands
    have hslice := (Text.slice_append_of_length (w := openBrace :: (blanks ++ [closeBrace]))
      (c := t) hfront).1
    rw [hlen] at hslice
    rw [hsplit, List.length_append, hlen, ← Nat.add_assoc]
    refine ⟨(i, i + (blanks.length + 2)) :: rs, .cons (by omega) hrs,
      .cons ⟨rfl, by simp, ?_⟩ hstands⟩
    exact fun _ => ⟨rfl, blanks, hblanks, hslice⟩

/-- A stretch of plain bytes goes on as long as it can, so a placeholder follows it. -/
theorem isChain (h : Pieced base i t ps) :
    ps.IsChain fun p q => ¬ (p.kind = .literal ∧ q.kind = .literal) := by
  induction h with
  | nil => exact .nil
  | literal hne hs ht h ih =>
    cases h with
    | nil => exact .singleton _
    | literal hne' hs' _ _ =>
      -- the first stretch would have gone on over the second
      obtain ⟨b, s, rfl⟩ := List.exists_cons_of_ne_nil hne'
      exact absurd (hs' b List.mem_cons_self) (by simp [ht b rfl])
    | placeholder _ _ => exact .cons_cons (by simp) ih
  | placeholder _ h ih =>
    cases h with
    | nil => exact .singleton _
    | literal _ _ _ _ => exact .cons_cons (by simp) ih
    | placeholder _ _ => exact .cons_cons (by simp) ih

theorem idxsOf_plain {s : Text} {b : UInt8} (hb : isPlain b = false)
    (hs : ∀ c ∈ s, isPlain c = true) (i : Nat) : s.idxsOf b i = [] :=
  List.idxsOf_eq_nil_iff.mpr fun c hc => by
    rw [beq_eq_false_iff_ne]
    rintro rfl
    rw [hs c hc] at hb
    cases hb

theorem idxsOf_open_placeholder {blanks : Text} (hblanks : IsBlankRun blanks) (i : Nat) (t : Text) :
    (openBrace :: (blanks ++ closeBrace :: t)).idxsOf openBrace i =
      i :: t.idxsOf openBrace (i + (blanks.length + 2)) := by
  have hnone := idxsOf_plain (b := openBrace) (by decide)
    fun b hb => isPlain_of_isBlank (hblanks b hb)
  have hnext : i + 1 + blanks.length + 1 = i + (blanks.length + 2) := by omega
  rw [List.idxsOf_cons, if_pos (by decide), List.idxsOf_append, hnone, List.nil_append,
    List.idxsOf_cons, if_neg (by decide), hnext]

theorem idxsOf_close_placeholder {blanks : Text} (hblanks : IsBlankRun blanks) (i : Nat)
    (t : Text) :
    (openBrace :: (blanks ++ closeBrace :: t)).idxsOf closeBrace i =
      (i + 1 + blanks.length) :: t.idxsOf closeBrace (i + (blanks.length + 2)) := by
  have hnone := idxsOf_plain (b := closeBrace) (by decide)
    fun b hb => isPlain_of_isBlank (hblanks b hb)
  have hnext : i + 1 + blanks.length + 1 = i + (blanks.length + 2) := by omega
  rw [List.idxsOf_cons, if_neg (by decide), List.idxsOf_append, hnone, List.nil_append,
    List.idxsOf_cons, if_pos (by decide), hnext]

/-- **Placeholders reach from opening to closing braces**, in order. -/
theorem braces (h : Pieced base i t ps) :
    (Piece.placeholders ps).map (·.start) =
        (t.idxsOf openBrace i).map (fun k : Nat => wrap64 (base + k)) ∧
      (Piece.placeholders ps).map (·.stop) =
        (t.idxsOf closeBrace i).map fun k : Nat => wrap64 (base + (k + 1 : Nat)) := by
  induction h with
  | nil => exact ⟨rfl, rfl⟩
  | literal hne hs ht h ih =>
    rw [List.idxsOf_append, List.idxsOf_append, idxsOf_plain (by decide) hs,
      idxsOf_plain (by decide) hs]
    exact ih
  | @placeholder i blanks t ps hblanks h ih =>
    have hspans (span : Span) : Piece.placeholders (⟨.placeholder, span, []⟩ :: ps) =
        span :: Piece.placeholders ps := rfl
    have hstop : i + (blanks.length + 2) = i + 1 + blanks.length + 1 := by omega
    rw [idxsOf_open_placeholder hblanks, idxsOf_close_placeholder hblanks, hspans, List.map_cons,
      List.map_cons, List.map_cons, List.map_cons, ih.1, ih.2]
    refine ⟨rfl, ?_⟩
    dsimp only
    rw [hstop]

theorem tiled (h : Pieced base 0 t ps) : Tiled base t ps := by
  obtain ⟨rs, hrs, hstands⟩ := h.exists_ranges [] rfl
  rw [Nat.zero_add] at hrs
  obtain ⟨hopens, hcloses⟩ := h.braces
  refine ⟨⟨rs, hrs, hstands⟩, h.isChain, hopens, hcloses, ?_, ?_⟩
  · simpa using congrArg List.length hopens
  · simpa using congrArg List.length hcloses

/-- **A tiling is what is read.** -/
theorem pieces_eq (h : Pieced base i t ps) : pieces base i t = .ok ps := by
  induction h with
  | nil => rw [pieces]
  | @literal i s t ps hne hs ht h ih =>
    obtain ⟨b, s, rfl⟩ := List.exists_cons_of_ne_nil hne
    obtain ⟨hb, hs⟩ := List.forall_mem_cons.mp hs
    obtain ⟨hopen, hclose⟩ := isPlain_iff.mp hb
    rw [List.cons_append, pieces, if_neg hclose, if_neg hopen, takeWhile_append_of_head? hs ht]
    dsimp only
    rw [dropWhile_append_of_head? hs ht, ih]
    rfl
  | @placeholder i blanks t ps hblanks h ih =>
    have hplain : ∀ b ∈ blanks, isPlain b = true := fun b hb => isPlain_of_isBlank (hblanks b hb)
    have hnext : i + blanks.length + 2 = i + (blanks.length + 2) := by omega
    have hnone : Glyph.offset? (!·.isBlank) blanks.glyphs = none := by
      rw [offset?_not_isBlank]
      exact List.findIdx?_eq_none_iff.mpr fun b hb => by rw [hblanks b hb]; rfl
    have htake := takeWhile_append_of_head? hplain (not_isPlain_of_head?_close (t := t))
    have hdrop := dropWhile_append_of_head? hplain (not_isPlain_of_head?_close (t := t))
    rw [pieces, if_neg (by decide), if_pos rfl, htake]
    split
    · rename_i hnil
      rw [hdrop] at hnil
      cases hnil
    · rename_i hcons
      rw [hdrop] at hcons
      cases hcons
      rw [if_neg (by decide), hnone]
      dsimp only
      rw [hnext, ih]
      rfl

end Pieced

/-! ### From ranges to pieces -/

section Ranges

variable {base : Int} {t : Text} {ps : List Piece} {rs : List (Nat × Nat)} {i : Nat}

/-- Where a placeholder comes next, or nothing at all, no plain byte does. -/
theorem head?_of_ranges (hrs : Consecutive i rs t.length)
    (h : List.Forall₂ (StandsAt base t) ps rs) (hps : ∀ p ∈ ps.head?, p.kind = .placeholder) :
    ∀ b, (t.drop i).head? = some b → isPlain b = false := by
  intro b hb
  generalize hlen : t.length = k at hrs
  cases hrs with
  | nil => simp [List.drop_eq_nil_of_le (Nat.le_of_eq hlen)] at hb
  | cons hlt hrest =>
    cases h with
    | cons hp h =>
      obtain ⟨-, blanks, -, hslice⟩ := hp.placeholder (hps _ rfl)
      rw [← slice_append_drop hlt.le, hslice] at hb
      cases hb
      decide

/-- **Ranges of a tiling** say what the pieces are. -/
theorem pieced_of_ranges (hrs : Consecutive i rs t.length)
    (h : List.Forall₂ (StandsAt base t) ps rs)
    (hapart : ps.IsChain fun p q => ¬ (p.kind = .literal ∧ q.kind = .literal)) :
    Pieced base i (t.drop i) ps := by
  generalize hlen : t.length = k at hrs
  induction hrs generalizing ps with
  | nil =>
    cases h
    rw [List.drop_eq_nil_of_le (Nat.le_of_eq hlen)]
    exact .nil
  | @cons i j k rs hlt hrest ih =>
    cases h with
    | @cons p _ ps _ hp h =>
      have hslice : (t.slice i j).length = j - i := by
        have := hrest.le
        rw [length_slice]
        omega
      have hpieced := ih h hapart.tail hlen
      rw [← slice_append_drop hlt.le]
      obtain ⟨kind, span, val⟩ := p
      cases hp.span_eq
      cases kind with
      | literal =>
        obtain ⟨hval, hopen, hclose⟩ := hp.literal rfl
        dsimp only at hval hopen hclose
        subst hval
        have hj : j = i + (t.slice i j).length := by omega
        have hne : t.slice i j ≠ [] := List.ne_nil_of_length_pos (by omega)
        -- no stretch follows a stretch, so this one goes on as long as it can
        have hnext : ∀ q ∈ ps.head?, q.kind = .placeholder := by
          intro q hq
          have := hapart.rel_head? hq
          cases hk : q.kind with
          | literal => exact absurd ⟨rfl, hk⟩ this
          | placeholder => rfl
        have hbehind : Pieced base (i + (t.slice i j).length) (t.drop j) ps := by rwa [← hj]
        have hpiece := Pieced.literal hne (plain_of_not_mem hopen hclose)
          (head?_of_ranges (hlen ▸ hrest) h hnext) hbehind
        rwa [← hj] at hpiece
      | placeholder =>
        obtain ⟨hval, blanks, hblanks, heq⟩ := hp.placeholder rfl
        dsimp only at hval heq
        subst hval
        have hj : j = i + (blanks.length + 2) := by
          rw [heq] at hslice
          simp only [List.length_cons, List.length_append, List.length_nil] at hslice
          omega
        have hbehind : Pieced base (i + (blanks.length + 2)) (t.drop j) ps := by rwa [← hj]
        have hpiece := Pieced.placeholder hblanks hbehind
        rw [← hj] at hpiece
        simpa [heq] using hpiece

end Ranges

/-- **There is one tiling of a format string**, and it is what is read. -/
theorem pieces_eq_ok_iff_tiled {base : Int} {t : Text} {ps : List Piece} :
    pieces base 0 t = .ok ps ↔ Tiled base t ps := by
  constructor
  · exact fun h => (pieced_of_pieces ps h).tiled
  · rintro ⟨⟨rs, hrs, hstands⟩, hapart, -⟩
    exact (pieced_of_ranges hrs hstands hapart).pieces_eq

end FormatString

open FormatString

/-- **Pieces tile their format string**: a literal is read into pieces just if its value is a format
string, and what is read is the tiling of the value. -/
theorem pieces_tile_format (lit : Literal) :
    ((∃ ps, lit.pieces = .ok ps) ↔ IsFormat lit.val) ∧
      ∀ ps, lit.pieces = .ok ps ↔ Tiled (lit.span.start + 1) lit.val ps :=
  ⟨exists_pieces_iff, fun _ => pieces_eq_ok_iff_tiled⟩

end MacroCalls
