import MacroCalls.Diagnostic
import MacroCalls.Proofs.FormatString
import MacroCalls.Proofs.Spans

/-!
# Where the labels of a diagnostic stand

A call that fits a source has a problem with labels on its name, on its arguments and on parts of
its format string. All of them cover something, and only parts of the call: the name and the
arguments because the call fits, the parts of the format string because that is the value of a
literal that fits (`Call.Fits.labels_partOf`).
-/

namespace MacroCalls

open Text

/-- The span covers something, and only parts of another. -/
def Span.PartOf (s t : Span) : Prop := s.start < s.stop ∧ s.Within t

theorem Span.length_slice_of_inside {s : Span} {src : Text} (h : s.Inside src) :
    ((s.slice src).length : Int) = s.stop - s.start := by
  obtain ⟨hstart, hlt, hstop⟩ := h
  rw [Span.slice, Text.length_slice, clamp, clamp]
  omega

/-- A span inside a text cuts it into three parts. -/
theorem Span.Inside.exists_append {s : Span} {src : Text} (h : s.Inside src) :
    ∃ front rest : Text, src = front ++ (s.slice src ++ rest) ∧
      s = ⟨front.length, (front.length + (s.slice src).length : Nat)⟩ := by
  obtain ⟨start, stop⟩ := s
  obtain ⟨hstart, hlt, hstop⟩ := h
  dsimp only at hstart hlt hstop
  obtain ⟨lo, rfl⟩ := Int.eq_ofNat_of_zero_le hstart
  obtain ⟨hi, rfl⟩ := Int.eq_ofNat_of_zero_le (by omega : 0 ≤ stop)
  rw [Span.slice_natCast (by omega) (by omega)]
  refine ⟨src.take lo, src.drop hi, ?_, ?_⟩
  · have hfront : src.take lo = (src.take hi).take lo := by
      rw [List.take_take, Nat.min_eq_left (by omega)]
    rw [← List.append_assoc, hfront, Text.slice, List.take_append_drop, List.take_append_drop]
  · rw [length_slice, List.length_take, Nat.min_eq_left (by omega), Nat.min_eq_left (by omega)]
    congr 2
    omega

/-- A literal stands in its source with its value between quotes. -/
theorem Literal.Fits.exists_append {a : Literal} {src : Text} (h : a.Fits src) :
    ∃ front rest : Text, src = front ++ (a.val ++ rest) ∧ a.span.start + 1 = front.length ∧
      front.getLast? = some quoteMark := by
  obtain ⟨front, rest, hsrc, hspan⟩ := h.inside.exists_append
  rw [h.slice_eq, inQuotes] at hsrc hspan
  refine ⟨front ++ [quoteMark], quoteMark :: rest, ?_, ?_, List.getLast?_concat⟩
  · rw [hsrc]
    simp
  · rw [hspan, List.length_append, List.length_singleton]
    rfl

theorem Literal.Fits.stop_eq {a : Literal} {src : Text} (h : a.Fits src) :
    a.span.stop = a.span.start + 1 + a.val.length + 1 := by
  have hlen := Span.length_slice_of_inside h.inside
  rw [h.slice_eq, inQuotes, List.length_cons, List.length_append, List.length_singleton] at hlen
  omega

/-- What is read of a literal as a format string stands between its quotes. -/
theorem Literal.Fits.inside_pieces {a : Literal} {src : Text} (h : a.Fits src)
    (hsrc : src.Addressable) :
    FormatString.Inside (a.span.start + 1) (a.span.stop - 1) a.pieces := by
  obtain ⟨hstart, hlt, hstop⟩ := h.inside
  have hlen := h.stop_eq
  unfold Addressable at hsrc
  have hinside : FormatString.Inside (a.span.start + 1 + (0 : Nat))
      (a.span.start + 1 + (0 : Nat) + a.val.length) a.pieces :=
    FormatString.inside_pieces (by omega) (by omega)
  have hhi : a.span.start + 1 + (0 : Nat) + a.val.length = a.span.stop - 1 := by omega
  rwa [hhi, Int.natCast_zero, Int.add_zero] at hinside

/-! ### Problems -/

/-- What can be wrong with a format string and the arguments that follow it. -/
theorem Literal.formatProblem?_cases {format : Literal} {given : List Literal} {q : Problem}
    (h : format.formatProblem? given = some q) :
    (∃ e, format.pieces = .error e ∧ q = .invalidFormat e) ∨
      ∃ ps, format.pieces = .ok ps ∧
        ((Piece.placeholders ps).length < given.length ∧
            q = .extraArguments format (given.drop (Piece.placeholders ps).length) ∨
          ∃ first more, Piece.placeholders ps = first :: more ∧ given.length ≤ more.length ∧
            q = .notEnoughArguments first more given) := by
  rw [formatProblem?] at h
  cases hp : format.pieces with
  | error e =>
    rw [hp] at h
    cases h
    exact .inl ⟨e, rfl, rfl⟩
  | ok ps =>
    rw [hp] at h
    refine .inr ⟨ps, rfl, ?_⟩
    dsimp only at h
    split at h
    · rename_i hextra
      cases h
      exact .inl ⟨hextra, rfl⟩
    · cases hspans : Piece.placeholders ps with
      | nil =>
        rw [hspans] at h
        cases h
      | cons first more =>
        rw [hspans] at h
        dsimp only at h
        split at h
        · rename_i hle
          cases h
          exact .inr ⟨first, more, rfl, hle, rfl⟩
        · cases h

/-- What can be wrong with a call. -/
theorem Call.problem?_cases {c : Call} {q : Problem} (h : c.problem? = some q) :
    q = .unknownMacro c.name ∨ q = .missingFormat c.name ∨
      ∃ format given, c.argList = format :: given ∧ format.formatProblem? given = some q := by
  unfold problem? at h
  cases hargs : c.argList with
  | nil =>
    simp only [hargs] at h
    split at h
    · cases h
    · split at h
      · cases h
        exact .inr (.inl rfl)
      · cases h
        exact .inl rfl
  | cons format given =>
    simp only [hargs] at h
    split at h
    · exact .inr (.inr ⟨format, given, rfl, h⟩)
    · split at h
      · exact .inr (.inr ⟨format, given, rfl, h⟩)
      · cases h
        exact .inl rfl

/-! ### Labels -/

/-- Labels are on the name, on arguments, on placeholders of the format string or on the byte that
makes it invalid. -/
theorem Call.label_cases {c : Call} {q : Problem} (hq : c.problem? = some q) {l : Label}
    (hl : l ∈ q.diagnostic.labels) :
    l.span = c.name.span ∨ (∃ a ∈ c.argList, l.span = a.span) ∨
      ∃ format ∈ c.argList,
        (∃ ps, format.pieces = .ok ps ∧ l.span ∈ Piece.placeholders ps) ∨
          ∃ e, format.pieces = .error e ∧ l.span = ⟨e.offset, wrap64 (e.offset + 1)⟩ := by
  rcases Call.problem?_cases hq with rfl | rfl | ⟨format, given, hargs, hq⟩
  · cases List.mem_singleton.mp hl
    exact .inl rfl
  · cases List.mem_singleton.mp hl
    exact .inl rfl
  · have hformat : format ∈ c.argList := by rw [hargs]; exact List.mem_cons_self
    have hgiven : ∀ a ∈ given, a ∈ c.argList := fun a ha => by
      rw [hargs]; exact List.mem_cons_of_mem _ ha
    rcases Literal.formatProblem?_cases hq with
      ⟨e, he, rfl⟩ | ⟨ps, hps, ⟨-, rfl⟩ | ⟨first, more, hspans, -, rfl⟩⟩
    · cases List.mem_singleton.mp hl
      exact .inr (.inr ⟨format, hformat, .inr ⟨e, he, rfl⟩⟩)
    · rcases List.mem_cons.mp hl with rfl | hl
      · exact .inr (.inl ⟨format, hformat, rfl⟩)
      · obtain ⟨a, ha, rfl⟩ := List.mem_map.mp hl
        exact .inr (.inl ⟨a, hgiven a (List.mem_of_mem_drop ha), rfl⟩)
    · rcases List.mem_append.mp hl with hl | hl
      · obtain ⟨s, hs, rfl⟩ := List.mem_map.mp hl
        exact .inr (.inr ⟨format, hformat, .inl ⟨ps, hps, hspans ▸ hs⟩⟩)
      · obtain ⟨a, ha, rfl⟩ := List.mem_map.mp hl
        exact .inr (.inl ⟨a, hgiven a ha, rfl⟩)

namespace Call.Fits

variable {c : Call} {src : Text} (h : c.Fits src)
include h

theorem name_partOf : c.name.span.PartOf c.span :=
  ⟨h.name.inside.2.1, h.within _ List.mem_cons_self⟩

theorem arg_partOf {a : Literal} (ha : a ∈ c.argList) : a.span.PartOf c.span :=
  ⟨(h.args a ha).inside.2.1, h.within _ (List.mem_cons_of_mem _ (List.mem_map_of_mem ha))⟩

/-- The parts of a format string are parts of the call. -/
theorem format_partOf (hsrc : src.Addressable) {format : Literal} (hf : format ∈ c.argList)
    {ps : List Piece} (hps : format.pieces = .ok ps) {s : Span} (hs : s ∈ Piece.placeholders ps) :
    s.PartOf c.span := by
  have hinside := (h.args format hf).inside_pieces hsrc
  rw [hps] at hinside
  obtain ⟨piece, hpiece, rfl⟩ := List.mem_map.mp hs
  have hbounds := hinside piece (List.mem_filter.mp hpiece).1
  obtain ⟨-, hstart, hstop⟩ := h.arg_partOf hf
  simp only [Span.PartOf, Span.Within]
  omega

theorem formatError_partOf (hsrc : src.Addressable) {format : Literal}
    (hf : format ∈ c.argList) {e : FormatError} (he : format.pieces = .error e) :
    Span.PartOf ⟨e.offset, wrap64 (e.offset + 1)⟩ c.span := by
  have hinside := (h.args format hf).inside_pieces hsrc
  rw [he] at hinside
  obtain ⟨hlo, hhi⟩ := hinside
  obtain ⟨hpos, -, hlen⟩ := (h.args format hf).inside
  obtain ⟨-, hstart, hstop⟩ := h.arg_partOf hf
  unfold Addressable at hsrc
  rw [wrap64_eq (by omega) (by omega)]
  simp only [Span.PartOf, Span.Within]
  omega

/-- **Labels stand in their call.** -/
theorem labels_partOf (hsrc : src.Addressable) {q : Problem} (hq : c.problem? = some q) :
    ∀ l ∈ q.diagnostic.labels, l.span.PartOf c.span := by
  intro l hl
  rcases Call.label_cases hq hl with
    hspan | ⟨a, ha, hspan⟩ | ⟨format, hformat, ⟨ps, hps, hspan⟩ | ⟨e, he, hspan⟩⟩
  · exact hspan ▸ h.name_partOf
  · exact hspan ▸ h.arg_partOf ha
  · exact h.format_partOf hsrc hformat hps hspan
  · exact hspan ▸ h.formatError_partOf hsrc hformat he

end Call.Fits

end MacroCalls
