import MacroCalls.FormatString
import MacroCalls.Proofs.Utf8

/-!
# The language of format strings

A format string is made of bytes other than braces and of placeholders: a pair of braces with
nothing but blanks between them. Reading a text into pieces succeeds just for these, and finds a
placeholder at each opening brace (`reads_pieces`), which stands in the text where its span says
(`stands_pieces`).
-/

namespace MacroCalls.FormatString

open Text

/-- The texts that are format strings. -/
inductive IsFormat : Text → Prop
  | nil : IsFormat []
  | plain {b : UInt8} {t : Text} :
      b ≠ openBrace → b ≠ closeBrace → IsFormat t → IsFormat (b :: t)
  | placeholder {blanks t : Text} :
      (∀ b ∈ blanks, isBlank b) → IsFormat t → IsFormat (openBrace :: (blanks ++ closeBrace :: t))

theorem isPlain_iff {b : UInt8} : isPlain b = true ↔ b ≠ openBrace ∧ b ≠ closeBrace := by
  simp [isPlain]

theorem isPlain_of_isBlank {b : UInt8} (h : isBlank b = true) : isPlain b = true := by
  simp only [isBlank, Bool.or_eq_true, beq_iff_eq] at h
  rcases h with (((rfl | rfl) | rfl) | rfl) | rfl <;> rfl

/-- The byte behind a stretch of plain ones is a brace. -/
theorem eq_closeBrace_of_dropWhile {t after : Text} {c : UInt8}
    (h : t.dropWhile isPlain = c :: after) (hc : c ≠ openBrace) : c = closeBrace := by
  have hstop := List.head?_dropWhile_not isPlain t
  rw [h] at hstop
  simpa [isPlain, hc] using hstop

theorem not_isPlain_of_head?_close {t : Text} :
    ∀ b, (closeBrace :: t).head? = some b → isPlain b = false := by
  rintro b ⟨⟩
  decide

theorem not_isFormat_close {t : Text} : ¬ IsFormat (closeBrace :: t) := by
  intro h
  cases h with
  | plain _ hb _ => exact hb rfl

theorem isFormat_cons_plain {b : UInt8} {t : Text} (hb : isPlain b = true) :
    IsFormat (b :: t) ↔ IsFormat t := by
  obtain ⟨hopen, hclose⟩ := isPlain_iff.mp hb
  refine ⟨fun h => ?_, .plain hopen hclose⟩
  cases h with
  | plain _ _ h => exact h
  | placeholder _ _ => exact absurd rfl hopen

theorem isFormat_plain_append {s t : Text} (hs : ∀ b ∈ s, isPlain b = true) :
    IsFormat (s ++ t) ↔ IsFormat t := by
  induction s with
  | nil => rfl
  | cons b s ih =>
    rw [List.cons_append, isFormat_cons_plain (hs b List.mem_cons_self),
      ih fun b hb => hs b (List.mem_cons_of_mem _ hb)]

/-- Behind an opening brace stand blanks up to the next brace, which is a closing one. -/
theorem isFormat_open_iff {rest : Text} :
    IsFormat (openBrace :: rest) ↔
      ∃ after, rest.dropWhile isPlain = closeBrace :: after ∧
        (∀ b ∈ rest.takeWhile isPlain, isBlank b = true) ∧ IsFormat after := by
  constructor
  · intro h
    cases h with
    | plain hb _ _ => exact absurd rfl hb
    | @placeholder blanks after hblanks h =>
      have hplain : ∀ b ∈ blanks, isPlain b = true := fun b hb => isPlain_of_isBlank (hblanks b hb)
      refine ⟨after, ?_, ?_, h⟩
      · rw [List.dropWhile_append_of_pos hplain]
        rfl
      · rw [List.takeWhile_append_of_pos hplain, List.takeWhile_cons_of_neg (by decide),
          List.append_nil]
        exact hblanks
  · rintro ⟨after, hdrop, hblanks, h⟩
    rw [← List.takeWhile_append_dropWhile (p := isPlain) (l := rest), hdrop]
    exact .placeholder hblanks h

theorem count_open_plain_append {s t : Text} (hs : ∀ b ∈ s, isPlain b = true) :
    (s ++ t).count openBrace = t.count openBrace := by
  have hzero : s.count openBrace = 0 :=
    List.count_eq_zero.mpr fun hmem => (isPlain_iff.mp (hs _ hmem)).1 rfl
  rw [List.count_append, hzero, Nat.zero_add]

/-! ### Reading -/

/-- What is read of a text tells whether it is a format string, and of how many placeholders. -/
def Reads (t : Text) : Except FormatError (List Piece) → Prop
  | .ok ps => IsFormat t ∧ (Piece.placeholders ps).length = t.count openBrace
  | .error _ => ¬ IsFormat t

theorem Reads.literal {s t : Text} {r : Except FormatError (List Piece)} (h : Reads t r)
    (hs : ∀ b ∈ s, isPlain b = true) (span : Span) (val : Text) :
    Reads (s ++ t) (r.map (⟨.literal, span, val⟩ :: ·)) := by
  cases r with
  | error e => exact (not_congr (isFormat_plain_append hs)).mpr h
  | ok ps => exact ⟨(isFormat_plain_append hs).mpr h.1, (count_open_plain_append hs).symm ▸ h.2⟩

theorem Reads.placeholder {blanks t : Text} {r : Except FormatError (List Piece)} (h : Reads t r)
    (hblanks : ∀ b ∈ blanks, isBlank b = true) (span : Span) (val : Text) :
    Reads (openBrace :: (blanks ++ closeBrace :: t)) (r.map (⟨.placeholder, span, val⟩ :: ·)) := by
  have hplain : ∀ b ∈ blanks, isPlain b = true := fun b hb => isPlain_of_isBlank (hblanks b hb)
  cases r with
  | error e =>
    intro hformat
    obtain ⟨after, hdrop, -, hafter⟩ := isFormat_open_iff.mp hformat
    rw [List.dropWhile_append_of_pos hplain] at hdrop
    cases hdrop
    exact h hafter
  | ok ps =>
    refine ⟨.placeholder hblanks h.1, ?_⟩
    rw [List.count_cons_self, count_open_plain_append hplain, List.count_cons_of_ne (by decide),
      ← h.2]
    rfl

/-- **Reading a text into pieces** succeeds just for format strings, with a placeholder for each
opening brace. -/
theorem reads_pieces (base : Int) (i : Nat) (t : Text) : Reads t (pieces base i t) := by
  fun_induction pieces base i t with
  | case1 i => exact ⟨.nil, rfl⟩
  | case2 i rest => exact not_isFormat_close
  | case3 i rest hdrop =>
    intro h
    obtain ⟨after, hclose, -⟩ := isFormat_open_iff.mp h
    rw [hdrop] at hclose
    cases hclose
  | case4 i rest after hne hdrop =>
    intro h
    obtain ⟨after', hclose, -⟩ := isFormat_open_iff.mp h
    rw [hdrop] at hclose
    cases hclose
  | case5 i rest inner c after hdrop hc j hj =>
    intro h
    obtain ⟨-, -, hblanks, -⟩ := isFormat_open_iff.mp h
    rw [offset?_not_isBlank] at hj
    obtain ⟨hlt, hnot, -⟩ := List.findIdx?_eq_some_iff_getElem.mp hj
    simp [hblanks _ (List.getElem_mem hlt)] at hnot
  | case6 i rest inner c after hdrop hc hinner hlen next hne ih =>
    have hblanks : ∀ b ∈ inner, isBlank b = true := by
      simpa [offset?_not_isBlank] using hinner
    have hclose : c = closeBrace := eq_closeBrace_of_dropWhile hdrop hc
    rw [← List.takeWhile_append_dropWhile (p := isPlain) (l := rest), hdrop, hclose]
    exact ih.placeholder hblanks _ _
  | case7 i b rest hclose hopen stretch hlen next ih =>
    have hstretch : ∀ b ∈ stretch, isPlain b = true := by
      intro b' hb'
      rcases List.mem_cons.mp hb' with rfl | hb'
      · exact isPlain_iff.mpr ⟨hopen, hclose⟩
      · exact List.all_eq_true.mp List.all_takeWhile b' hb'
    have hsplit : b :: rest = stretch ++ rest.dropWhile isPlain := by
      rw [List.cons_append, List.takeWhile_append_dropWhile]
    rw [hsplit]
    exact ih.literal hstretch _ _

theorem exists_pieces_iff {base : Int} {i : Nat} {t : Text} :
    (∃ ps, pieces base i t = .ok ps) ↔ IsFormat t := by
  have hreads := reads_pieces base i t
  cases h : pieces base i t with
  | error e =>
    rw [h] at hreads
    exact iff_of_false (by simp) hreads
  | ok ps =>
    rw [h] at hreads
    exact iff_of_true ⟨ps, rfl⟩ hreads.1

instance (t : Text) : Decidable (IsFormat t) :=
  decidable_of_iff ((pieces 0 0 t).isOk = true) <| by
    have h := reads_pieces 0 0 t
    cases hp : pieces 0 0 t with
    | error e => rw [hp] at h; exact ⟨nofun, fun hformat => absurd hformat h⟩
    | ok ps => rw [hp] at h; exact ⟨fun _ => h.1, fun _ => rfl⟩

/-! ### Where placeholders and errors stand -/

/-- What is read of a text stands in it: a placeholder where its span says, and an error at a brace
or right behind an ASCII byte. -/
def Stands (base : Int) (i : Nat) (t : Text) : Except FormatError (List Piece) → Prop
  | .ok ps => ∀ p ∈ ps, p.kind = .placeholder →
    ∃ front blanks rest, t = front ++ (openBrace :: (blanks ++ [closeBrace]) ++ rest) ∧
      (∀ b ∈ blanks, isBlank b = true) ∧
      p.span = ⟨wrap64 (base + (i + front.length : Nat)),
        wrap64 (base + (i + front.length + (blanks.length + 2) : Nat))⟩
  | .error e => ∃ front b rest, t = front ++ b :: rest ∧
    e.offset = wrap64 (base + (i + front.length : Nat)) ∧
    (b < 0x80 ∨ ∃ c, front.getLast? = some c ∧ c < 0x80)

/-- What stands behind a piece still does with the piece before it. -/
theorem Stands.map_cons {base : Int} {i : Nat} {s t : Text} {r : Except FormatError (List Piece)}
    {p : Piece} (h : Stands base (i + s.length) t r)
    (hp : p.kind = .placeholder → ∃ blanks, s = openBrace :: (blanks ++ [closeBrace]) ∧
      (∀ b ∈ blanks, isBlank b = true) ∧
      p.span = ⟨wrap64 (base + i), wrap64 (base + (i + s.length : Nat))⟩) :
    Stands base i (s ++ t) (r.map (p :: ·)) := by
  cases r with
  | error e =>
    obtain ⟨front, b, rest, rfl, hoffset, hb⟩ := h
    refine ⟨s ++ front, b, rest, (List.append_assoc ..).symm, ?_, ?_⟩
    · rw [hoffset, List.length_append, Nat.add_assoc]
    · rcases hb with hb | ⟨c, hlast, hc⟩
      · exact .inl hb
      · exact .inr ⟨c, by rw [List.getLast?_append, hlast, Option.some_or], hc⟩
  | ok ps =>
    intro q hq hk
    rcases List.mem_cons.mp hq with rfl | hq
    · obtain ⟨blanks, rfl, hblanks, hspan⟩ := hp hk
      refine ⟨[], blanks, t, rfl, hblanks, ?_⟩
      simp only [hspan, List.length_cons, List.length_append, List.length_nil, Nat.add_zero]
    · obtain ⟨front, blanks, rest, rfl, hblanks, hspan⟩ := h q hq hk
      refine ⟨s ++ front, blanks, rest, (List.append_assoc ..).symm, hblanks, ?_⟩
      rw [hspan, List.length_append, Nat.add_assoc i]

theorem stands_pieces (base : Int) (i : Nat) (t : Text) : Stands base i t (pieces base i t) := by
  fun_induction pieces base i t with
  | case1 i => exact fun p hp => absurd hp List.not_mem_nil
  | case2 i rest => exact ⟨[], closeBrace, rest, rfl, rfl, .inl (by decide)⟩
  | case3 i rest hdrop => exact ⟨[], openBrace, rest, rfl, rfl, .inl (by decide)⟩
  | case4 i rest after hne hdrop => exact ⟨[], openBrace, rest, rfl, rfl, .inl (by decide)⟩
  | case5 i rest inner c after hdrop hc j hj =>
    rw [offset?_not_isBlank] at hj
    obtain ⟨hlt, -, hbefore⟩ := List.findIdx?_eq_some_iff_getElem.mp hj
    have hsplit : rest =
        inner.take j ++ inner.get ⟨j, hlt⟩ :: (inner.drop (j + 1) ++ c :: after) := by
      rw [List.get_eq_getElem, ← List.cons_append, ← List.drop_eq_getElem_cons hlt,
        ← List.append_assoc, List.take_append_drop, ← hdrop, List.takeWhile_append_dropWhile]
    refine ⟨openBrace :: inner.take j, _, _, congrArg (openBrace :: ·) hsplit, ?_, .inr ?_⟩
    · rw [List.length_cons, List.length_take, Nat.min_eq_left (by omega), Nat.add_assoc,
        Nat.add_comm 1]
    · -- between the brace and the byte to blame there are only blanks
      have hascii : ∀ b ∈ openBrace :: inner.take j, b < 0x80 := by
        intro b hb
        rcases List.mem_cons.mp hb with rfl | hb
        · decide
        · obtain ⟨k, hk, rfl⟩ := List.mem_take_iff_getElem.mp hb
          have hblank := hbefore k (by omega)
          simp only [Bool.not_eq_true, Bool.not_eq_false'] at hblank
          exact lt_of_isBlank hblank
      refine ⟨_, List.getLast?_eq_some_getLast (List.cons_ne_nil _ _), hascii _ ?_⟩
      exact List.getLast_mem _
  | case6 i rest inner c after hdrop hc hinner hlen next hne ih =>
    have hblanks : ∀ b ∈ inner, isBlank b = true := by
      simpa [offset?_not_isBlank] using hinner
    have hsplit : openBrace :: rest = openBrace :: (inner ++ [closeBrace]) ++ after := by
      rw [List.cons_append, List.append_assoc, List.singleton_append,
        ← eq_closeBrace_of_dropWhile hdrop hc, ← hdrop, List.takeWhile_append_dropWhile]
    have hnext : next = i + (openBrace :: (inner ++ [closeBrace])).length := by
      simp only [List.length_cons, List.length_append, List.length_nil, next]
      omega
    rw [hsplit]
    rw [hnext] at ih ⊢
    exact ih.map_cons fun _ => ⟨inner, rfl, hblanks, rfl⟩
  | case7 i b rest hclose hopen stretch hlen next ih =>
    have hsplit : b :: rest = stretch ++ rest.dropWhile isPlain := by
      rw [List.cons_append, List.takeWhile_append_dropWhile]
    rw [hsplit]
    exact ih.map_cons nofun

end MacroCalls.FormatString
