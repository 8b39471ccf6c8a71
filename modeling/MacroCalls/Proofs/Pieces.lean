import MacroCalls.Proofs.FormatLanguage
import MacroCalls.Proofs.Labels

/-!
# The pieces of a format string

Pieces tile the format string that they are read from: stretches of plain bytes, as long as they
can be, and placeholders alternate from its first byte to its last. `Pieced base i t ps` says so of
the rest `t` of a string, of which `i` bytes have been read, and `pieced_of_pieces` that whatever is
read is such a tiling.

In the source of a program the tiling says where the placeholders are: one at each opening brace,
reaching over blanks to a closing brace, one behind the other (`PlaceholderSpans`,
`Literal.Fits.placeholderSpans`).
-/

namespace MacroCalls

open Text

namespace FormatString

/-- **A tiling** of a format string by its pieces. -/
inductive Pieced (base : Int) : Nat → Text → List Piece → Prop
  | nil {i : Nat} : Pieced base i [] []
  /-- A stretch of plain bytes goes on to a brace or to the end. -/
  | literal {i : Nat} {s t : Text} {ps : List Piece} (hne : s ≠ [])
      (hs : ∀ b ∈ s, isPlain b = true) (ht : ∀ b, t.head? = some b → isPlain b = false)
      (h : Pieced base (i + s.length) t ps) :
      Pieced base i (s ++ t)
        (⟨.literal, ⟨wrap64 (base + i), wrap64 (base + (i + s.length : Nat))⟩, s⟩ :: ps)
  /-- A placeholder has nothing but blanks between its braces. -/
  | placeholder {i : Nat} {blanks t : Text} {ps : List Piece} (hblanks : IsBlankRun blanks)
      (h : Pieced base (i + (blanks.length + 2)) t ps) :
      Pieced base i (openBrace :: (blanks ++ closeBrace :: t))
        (⟨.placeholder, ⟨wrap64 (base + i), wrap64 (base + (i + (blanks.length + 2) : Nat))⟩, []⟩ ::
          ps)

/-- **What is read tiles the string.** -/
theorem pieced_of_pieces {base : Int} {i : Nat} {t : Text} :
    ∀ ps, pieces base i t = .ok ps → Pieced base i t ps := by
  fun_induction pieces base i t with
  | case1 i =>
    rintro ps ⟨⟩
    exact .nil
  | case2 i rest => rintro ps ⟨⟩
  | case3 i rest hdrop => rintro ps ⟨⟩
  | case4 i rest after hne hdrop => rintro ps ⟨⟩
  | case5 i rest inner c after hdrop hc j hj => rintro ps ⟨⟩
  | case6 i rest inner c after hdrop hc hinner hlen next hne ih =>
    intro ps h
    obtain ⟨qs, hqs, rfl⟩ := exists_ok_of_map h
    rw [offset?_not_isBlank] at hinner
    have hblanks : IsBlankRun inner := fun b hb => by
      simpa using List.findIdx?_eq_none_iff.mp hinner b hb
    have hrest : rest = inner ++ closeBrace :: after := by
      rw [← eq_closeBrace_of_dropWhile hdrop hc, ← hdrop, List.takeWhile_append_dropWhile]
    have hnext : next = i + (inner.length + 2) := by omega
    rw [hnext] at ih hqs ⊢
    rw [hrest]
    exact .placeholder hblanks (ih qs hqs)
  | case7 i b rest hclose hopen stretch hlen next ih =>
    intro ps h
    obtain ⟨qs, hqs, rfl⟩ := exists_ok_of_map h
    have hplain : ∀ c ∈ stretch, isPlain c = true := by
      intro c hc
      rcases List.mem_cons.mp hc with rfl | hc
      · exact isPlain_iff.mpr ⟨hopen, hclose⟩
      · exact List.mem_takeWhile_imp hc
    have hsplit : b :: rest = stretch ++ rest.dropWhile isPlain := by
      rw [List.cons_append, List.takeWhile_append_dropWhile]
    rw [hsplit]
    exact .literal (List.cons_ne_nil _ _) hplain (fun c hc => head?_dropWhile_eq_some hc)
      (ih qs hqs)

end FormatString

open FormatString

/-! ### Placeholders in their source -/

/-- **The spans of all placeholders** in a stretch `t` of a source that starts at offset `lo`: one
from each opening brace to a closing one behind blanks, in the order in which they come. -/
structure PlaceholderSpans (src : Text) (lo : Int) (t : Text) (spans : List Span) : Prop where
  opens : ∀ j : Nat, t[j]? = some openBrace ↔ ∃ s ∈ spans, s.start = lo + j
  slice_eq : ∀ s ∈ spans, ∃ blanks, IsBlankRun blanks ∧
    s.slice src = openBrace :: (blanks ++ [closeBrace])
  bounds : ∀ s ∈ spans, lo ≤ s.start ∧ s.start < s.stop ∧ s.stop ≤ lo + t.length
  order : spans.Pairwise Span.Before

namespace PlaceholderSpans

variable {src s t : Text} {lo : Int} {spans : List Span}

theorem nil : PlaceholderSpans src lo [] [] :=
  ⟨by simp, by simp, by simp, .nil⟩

/-- Where opening braces stand in a stretch and what is before it. -/
theorem opens_append (h : PlaceholderSpans src (lo + s.length) t spans) {j : Nat}
    (hj : s.length ≤ j) : (s ++ t)[j]? = some openBrace ↔ ∃ r ∈ spans, r.start = lo + j := by
  have hshift : lo + s.length + (j - s.length : Nat) = lo + j := by omega
  rw [List.getElem?_append_right hj, h.opens, hshift]

theorem not_mem_of_lt (h : PlaceholderSpans src (lo + s.length) t spans) {j : Nat}
    (hj : j < s.length) : ¬ ∃ r ∈ spans, r.start = lo + j := by
  rintro ⟨r, hr, hstart⟩
  have := (h.bounds r hr).1
  omega

/-- Plain bytes before a stretch add nothing. -/
theorem plain_append (h : PlaceholderSpans src (lo + s.length) t spans)
    (hs : ∀ b ∈ s, isPlain b = true) : PlaceholderSpans src lo (s ++ t) spans := by
  refine ⟨fun j => ?_, h.slice_eq, fun r hr => ?_, h.order⟩
  · rcases Nat.lt_or_ge j s.length with hj | hj
    · rw [List.getElem?_append_left hj]
      refine iff_of_false (fun hopen => ?_) (h.not_mem_of_lt hj)
      exact (isPlain_iff.mp (hs _ (List.mem_of_getElem? hopen))).1 rfl
    · exact h.opens_append hj
  · have := h.bounds r hr
    rw [List.length_append]
    omega

/-- A placeholder before a stretch comes before those of the stretch. -/
theorem placeholder_append {blanks : Text} (hblanks : IsBlankRun blanks)
    (h : PlaceholderSpans src (lo + (blanks.length + 2 : Nat)) t spans)
    (hslice : (Span.mk lo (lo + (blanks.length + 2 : Nat))).slice src =
      openBrace :: (blanks ++ [closeBrace])) :
    PlaceholderSpans src lo (openBrace :: (blanks ++ closeBrace :: t))
      (⟨lo, lo + (blanks.length + 2 : Nat)⟩ :: spans) := by
  have hsplit : openBrace :: (blanks ++ closeBrace :: t) =
      openBrace :: (blanks ++ [closeBrace]) ++ t := by simp
  have hlen : (openBrace :: (blanks ++ [closeBrace])).length = blanks.length + 2 := by simp
  have hrest :
      PlaceholderSpans src (lo + (openBrace :: (blanks ++ [closeBrace])).length) t spans := by
    rwa [hlen]
  rw [hsplit]
  refine ⟨fun j => ?_, fun r hr => ?_, fun r hr => ?_,
    List.pairwise_cons.mpr ⟨fun r hr => ?_, h.order⟩⟩
  · simp only [List.mem_cons, exists_eq_or_imp]
    rcases Nat.lt_or_ge j (openBrace :: (blanks ++ [closeBrace])).length with hj | hj
    · -- of the bytes of the placeholder itself only the first is an opening brace
      have hbehind := hrest.not_mem_of_lt hj
      rw [List.getElem?_append_left hj]
      rcases j with _ | j
      · simp
      · have hne : (blanks ++ [closeBrace])[j]? ≠ some openBrace := by
          intro hopen
          rcases List.mem_append.mp (List.mem_of_getElem? hopen) with hmem | hmem
          · exact absurd (hblanks _ hmem) (by decide)
          · exact absurd (List.mem_singleton.mp hmem) (by decide)
        refine iff_of_false (by simpa using hne) ?_
        rintro (hstart | hmem)
        · omega
        · exact hbehind hmem
    · rw [hrest.opens_append hj]
      refine ⟨.inr, fun hor => hor.resolve_left ?_⟩
      rw [hlen] at hj
      omega
  · rcases List.mem_cons.mp hr with rfl | hr
    · exact ⟨blanks, hblanks, hslice⟩
    · exact h.slice_eq r hr
  · rw [List.length_append, hlen]
    rcases List.mem_cons.mp hr with rfl | hr
    · dsimp only
      omega
    · have := h.bounds r hr
      omega
  · have := h.bounds r hr
    unfold Span.Before
    dsimp only
    omega

end PlaceholderSpans

/-- The pieces of a stretch of a source hold its placeholders. -/
theorem FormatString.Pieced.placeholderSpans {base : Int} {i : Nat} {t : Text} {ps : List Piece}
    (h : Pieced base i t ps) {front rest : Text} (hfront : base + i = front.length)
    (hroom : (front ++ (t ++ rest)).Addressable) :
    PlaceholderSpans (front ++ (t ++ rest)) (base + i) t (Piece.placeholders ps) := by
  unfold Addressable at hroom
  induction h generalizing front with
  | nil => exact .nil
  | @literal i s t ps hne hs ht h ih =>
    have hcut : front ++ (s ++ t ++ rest) = front ++ s ++ (t ++ rest) := by simp
    have hnext : base + (i + s.length : Nat) = base + i + s.length := by omega
    rw [hcut] at hroom ⊢
    refine PlaceholderSpans.plain_append ?_ hs
    rw [← hnext]
    refine ih ?_ hroom
    rw [List.length_append]
    omega
  | @placeholder i blanks t ps hblanks h ih =>
    have hcut : front ++ (openBrace :: (blanks ++ closeBrace :: t) ++ rest) =
        front ++ (openBrace :: (blanks ++ [closeBrace]) ++ (t ++ rest)) := by simp
    have hlen : (openBrace :: (blanks ++ [closeBrace])).length = blanks.length + 2 := by simp
    have hnext : base + (i + (blanks.length + 2) : Nat) = base + i + (blanks.length + 2 : Nat) := by
      omega
    have hbound : front.length + (blanks.length + 2) < 0x8000000000000000 := by
      simp only [List.length_append, List.length_cons] at hroom
      omega
    have hslice := Text.slice_append_of_length (a := front)
      (w := openBrace :: (blanks ++ [closeBrace])) (c := t ++ rest) rfl
    rw [hlen] at hslice
    have hspans : Piece.placeholders (⟨.placeholder, ⟨wrap64 (base + i),
        wrap64 (base + (i + (blanks.length + 2) : Nat))⟩, []⟩ :: ps) =
        ⟨base + i, base + i + (blanks.length + 2 : Nat)⟩ :: Piece.placeholders ps := by
      rw [wrap64_eq (by omega) (by omega), wrap64_eq (by omega) (by omega), hnext]
      rfl
    rw [hspans]
    refine PlaceholderSpans.placeholder_append hblanks ?_ ?_
    · rw [← hnext, hcut, ← List.append_assoc]
      refine ih ?_ ?_
      · rw [List.length_append, hlen]
        omega
      · rw [List.append_assoc, ← hcut]
        exact hroom
    · rw [hcut, hfront, ← Int.natCast_add, Span.slice_natCast (Nat.le_add_right ..) hslice.2]
      exact hslice.1

/-- **The placeholders of a literal** stand between its quotes. -/
theorem Literal.Fits.placeholderSpans {a : Literal} {src : Text} (h : a.Fits src)
    (hsrc : src.Addressable) {ps : List Piece} (hps : a.pieces = .ok ps) :
    PlaceholderSpans src (a.span.start + 1) a.val (Piece.placeholders ps) := by
  obtain ⟨front, rest, rfl, hstart, -⟩ := h.exists_append
  have hpieced := pieced_of_pieces ps hps
  have hspans := hpieced.placeholderSpans (by omega : a.span.start + 1 + (0 : Nat) = _) hsrc
  rwa [Int.natCast_zero, Int.add_zero] at hspans

end MacroCalls
