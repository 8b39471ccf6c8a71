import MacroCalls.Check
import MacroCalls.Proofs.Guarded.Access
import MacroCalls.Proofs.Lexemes

/-!
# The guarded check of a program

Format strings are split by index here: every index is advanced by a search, and the bytes between
two indices are cut out. `Guarded.check_eq` says that the guarded check of a program without gaps
gives the diagnostics of the program.
-/

namespace MacroCalls

open Text

namespace Guarded

/-- The pieces of a format string from index `i` on. A round that does not advance gives nothing. -/
def pieces (base : Int) (s : Text) (i : Nat) : Option (Except FormatError (List Piece)) := do
  if i < s.length then
    let b ← entry s i
    if b = closeBrace then some (.error ⟨wrap64 (base + i), .unmatchedClose⟩)
    else if b = openBrace then
      let rest ← slice s (i + 1 : Nat) s.length
      match rest.findIdx? (!FormatString.isPlain ·) with
      | none => some (.error ⟨wrap64 (base + i), .unclosedOpen⟩)
      | some n =>
        let c ← entry s (i + 1 + n : Nat)
        if c = openBrace then some (.error ⟨wrap64 (base + i), .unclosedOpen⟩)
        else
          let inner ← slice s (i + 1 : Nat) (i + 1 + n : Nat)
          match Glyph.offset? (!·.isBlank) (glyphs inner) with
          | some j => some (.error ⟨wrap64 (base + (i + 1 + j : Nat)), .invalidCharacter⟩)
          | none =>
            let more ← pieces base s (i + n + 2)
            some (more.map (⟨.placeholder,
              ⟨wrap64 (base + i), wrap64 (base + (i + n + 2 : Nat))⟩, []⟩ :: ·))
    else
      let rest ← slice s i s.length
      let n := (rest.findIdx? (!FormatString.isPlain ·)).getD rest.length
      if 0 < n then
        let stretch ← slice s i (i + n : Nat)
        let more ← pieces base s (i + n)
        some (more.map (⟨.literal,
          ⟨wrap64 (base + i), wrap64 (base + (i + n : Nat))⟩, stretch⟩ :: ·))
      else none
  else some (.ok [])
termination_by s.length - i
decreasing_by all_goals omega

/-- The problem of a call whose first argument is a format string. -/
def formatProblem (args : List Literal) : Option (Option Problem) := do
  let format ← entry args 0
  let given ← dropFirst args 1
  match ← pieces (format.span.start + 1) format.val 0 with
  | .error e => some (some (.invalidFormat e))
  | .ok found =>
    let spans := Piece.placeholders found
    if spans.length < given.length then
      let unused ← dropFirst given spans.length
      some (some (.extraArguments format unused))
    else if given.length < spans.length then
      let first ← entry spans 0
      some (some (.notEnoughArguments first spans.tail given))
    else some none

/-- The problem of a call, if it has one. -/
def problem (c : Call) : Option (Option Problem) :=
  if c.name.name = ascii "println!" then
    if c.argList.isEmpty then some none else formatProblem c.argList
  else if c.name.name = ascii "print!" then
    if c.argList.isEmpty then some (some (.missingFormat c.name)) else formatProblem c.argList
  else some (some (.unknownMacro c.name))

/-- The diagnostics of a program without gaps. -/
def check (p : Program) : Option (List Diagnostic) := do
  let calls ← p.calls?
  let problems ← calls.mapM problem
  some ((problems.filterMap id).map Problem.diagnostic)

/-! ### Format strings -/

theorem slice_take {s : Text} {i n : Nat} (h : i + n ≤ s.length) :
    slice s i (i + n : Nat) = some ((s.drop i).take n) := by
  rw [slice_eq (by omega) (by omega) (by omega), Int.toNat_natCast, Int.toNat_natCast, Text.slice,
    List.drop_take]
  congr 2
  omega

theorem slice_drop {s : Text} {i : Nat} (h : i ≤ s.length) :
    slice s i s.length = some (s.drop i) := by
  have hlen : s.length = i + (s.length - i) := by omega
  rw [hlen, slice_take (by omega), List.take_of_length_le (by rw [List.length_drop])]

theorem findIdx?_of_dropWhile_eq_nil {p : UInt8 → Bool} {t : Text} (h : t.dropWhile p = []) :
    t.findIdx? (!p ·) = none := by
  rw [List.findIdx?_eq_none_iff]
  intro b hb
  rw [List.dropWhile_eq_nil_iff.mp h b hb]
  rfl

theorem findIdx?_of_dropWhile_eq_cons {p : UInt8 → Bool} {t after : Text} {c : UInt8}
    (h : t.dropWhile p = c :: after) : t.findIdx? (!p ·) = some (t.takeWhile p).length := by
  induction t with
  | nil => simp at h
  | cons b t ih =>
    by_cases hb : p b = true
    · rw [List.dropWhile_cons_of_pos hb] at h
      rw [List.findIdx?_cons, hb, List.takeWhile_cons_of_pos hb, ih h]
      rfl
    · rw [List.findIdx?_cons, List.takeWhile_cons_of_neg hb, Bool.eq_false_iff.mpr hb]
      rfl

theorem getD_findIdx?_eq (p : UInt8 → Bool) (t : Text) :
    (t.findIdx? (!p ·)).getD t.length = (t.takeWhile p).length := by
  cases h : t.dropWhile p with
  | nil =>
    have hsplit := List.takeWhile_append_dropWhile (p := p) (l := t)
    rw [h, List.append_nil] at hsplit
    rw [findIdx?_of_dropWhile_eq_nil h, Option.getD_none, hsplit]
  | cons c after => rw [findIdx?_of_dropWhile_eq_cons h, Option.getD_some]

theorem getElem?_of_drop_eq {s rest : Text} {b : UInt8} {i : Nat} (h : s.drop i = b :: rest) :
    s[i]? = some b := by
  rw [← List.head?_drop, h]
  rfl

theorem drop_add_of_drop_eq {s t : Text} {i : Nat} (h : s.drop i = t) (n : Nat) :
    s.drop (i + n) = t.drop n := by
  rw [← List.drop_drop, h]

theorem lt_length_of_drop_eq {s rest : Text} {b : UInt8} {i : Nat} (h : s.drop i = b :: rest) :
    i < s.length := by
  have := congrArg List.length h
  rw [List.length_drop, List.length_cons] at this
  omega

theorem slice_takeWhile {s t : Text} {i : Nat} (h : s.drop i = t) (hle : i ≤ s.length)
    (p : UInt8 → Bool) : slice s i (i + (t.takeWhile p).length : Nat) = some (t.takeWhile p) := by
  have hprefix := List.takeWhile_prefix p (l := t)
  have hlen := hprefix.length_le
  have htotal := congrArg List.length h
  rw [List.length_drop] at htotal
  rw [slice_take (by omega), h, ← List.prefix_iff_eq_take.mp hprefix]

section Split

variable {base : Int} {s rest : Text} {i : Nat}

theorem pieces_close (h : s.drop i = closeBrace :: rest) :
    pieces base s i = some (.error ⟨wrap64 (base + i), .unmatchedClose⟩) := by
  rw [pieces, if_pos (lt_length_of_drop_eq h), entry_natCast, getElem?_of_drop_eq h]
  rfl

theorem slice_behind (h : s.drop i = openBrace :: rest) :
    slice s (i + 1 : Nat) s.length = some rest := by
  rw [slice_drop (lt_length_of_drop_eq h), drop_add_of_drop_eq h 1]
  rfl

theorem pieces_unclosed (h : s.drop i = openBrace :: rest)
    (hdrop : rest.dropWhile FormatString.isPlain = []) :
    pieces base s i = some (.error ⟨wrap64 (base + i), .unclosedOpen⟩) := by
  rw [pieces, if_pos (lt_length_of_drop_eq h), entry_natCast, getElem?_of_drop_eq h, slice_behind h]
  dsimp only [Option.bind_eq_bind, Option.bind_some]
  rw [findIdx?_of_dropWhile_eq_nil hdrop]
  rfl

/-- One round of the loop at an opening brace, up to the next brace `c`. -/
theorem pieces_open (base : Int) {c : UInt8} {inner after : Text} (h : s.drop i = openBrace :: rest)
    (htake : rest.takeWhile FormatString.isPlain = inner)
    (hdrop : rest.dropWhile FormatString.isPlain = c :: after) :
    s.drop (i + inner.length + 2) = after ∧ pieces base s i =
      if c = openBrace then some (.error ⟨wrap64 (base + i), .unclosedOpen⟩)
      else
        match Glyph.offset? (!·.isBlank) (glyphs inner) with
        | some j => some (.error ⟨wrap64 (base + (i + 1 + j : Nat)), .invalidCharacter⟩)
        | none => (pieces base s (i + inner.length + 2)).map (·.map (⟨.placeholder,
            ⟨wrap64 (base + i), wrap64 (base + (i + inner.length + 2 : Nat))⟩, []⟩ :: ·)) := by
  have hlt := lt_length_of_drop_eq h
  have hrest := drop_add_of_drop_eq h 1
  rw [List.drop_one, List.tail_cons] at hrest
  have hcut := slice_takeWhile hrest hlt FormatString.isPlain
  have hc := drop_add_of_drop_eq hrest inner.length
  rw [← htake, drop_length_takeWhile, hdrop] at hc
  rw [htake] at hc hcut
  have hnext := drop_add_of_drop_eq hc 1
  rw [List.drop_one, List.tail_cons, Nat.add_right_comm i 1 inner.length] at hnext
  refine ⟨hnext, ?_⟩
  rw [pieces, if_pos hlt, entry_natCast, getElem?_of_drop_eq h, slice_behind h]
  simp only [Option.bind_eq_bind, Option.bind_some, findIdx?_of_dropWhile_eq_cons hdrop, htake,
    entry_natCast, getElem?_of_drop_eq hc, hcut]
  rw [if_neg (by decide), if_pos trivial]
  congr 1
  cases Glyph.offset? (!·.isBlank) (glyphs inner) with
  | some j => rfl
  | none =>
    rw [Option.map_eq_bind]
    rfl

/-- One round of the loop at a byte that is no brace. -/
theorem pieces_stretch (base : Int) {b : UInt8} {stretch : Text} (h : s.drop i = b :: rest)
    (hclose : b ≠ closeBrace) (hopen : b ≠ openBrace)
    (htake : b :: rest.takeWhile FormatString.isPlain = stretch) :
    s.drop (i + stretch.length) = rest.dropWhile FormatString.isPlain ∧ pieces base s i =
      (pieces base s (i + stretch.length)).map (·.map (⟨.literal,
        ⟨wrap64 (base + i), wrap64 (base + (i + stretch.length : Nat))⟩, stretch⟩ :: ·)) := by
  have hlt := lt_length_of_drop_eq h
  have hpos : 0 < stretch.length := by rw [← htake]; exact Nat.succ_pos _
  have hplain : FormatString.isPlain b = true := by simp [FormatString.isPlain, hclose, hopen]
  rw [← List.takeWhile_cons_of_pos hplain] at htake
  have hcut := slice_takeWhile h hlt.le FormatString.isPlain
  have hnext := drop_add_of_drop_eq h stretch.length
  rw [← htake, drop_length_takeWhile, List.dropWhile_cons_of_pos hplain] at hnext
  rw [htake] at hcut hnext
  refine ⟨hnext, ?_⟩
  have hn := getD_findIdx?_eq FormatString.isPlain (b :: rest)
  rw [htake] at hn
  rw [pieces, if_pos hlt, entry_natCast, getElem?_of_drop_eq h]
  simp only [Option.bind_eq_bind, Option.bind_some, if_neg hclose, if_neg hopen,
    slice_drop hlt.le, h, hn, hcut]
  rw [if_pos hpos, Option.map_eq_bind]
  rfl

end Split

/-- Splitting by index gives the pieces of what stands from the index on. -/
theorem pieces_eq {base : Int} {s t : Text} {i : Nat} (h : s.drop i = t) :
    pieces base s i = some (FormatString.pieces base i t) := by
  fun_induction FormatString.pieces base i t with
  | case1 i =>
    rw [pieces, if_neg]
    rw [List.drop_eq_nil_iff] at h
    omega
  | case2 i rest => exact pieces_close h
  | case3 i rest hdrop => exact pieces_unclosed h hdrop
  | case4 i rest after hne hdrop =>
    rw [(pieces_open base h rfl hdrop).2, if_pos rfl]
  | case5 i rest inner c after hdrop hc j hj =>
    rw [(pieces_open base h rfl hdrop).2, if_neg hc, hj]
  | case6 i rest inner c after hdrop hc hinner hlen next hne ih =>
    rw [(pieces_open base h rfl hdrop).2, if_neg hc, hinner, ih (pieces_open base h rfl hdrop).1]
    rfl
  | case7 i b rest hclose hopen stretch hlen next ih =>
    rw [(pieces_stretch base h hclose hopen rfl).2, ih (pieces_stretch base h hclose hopen rfl).1]
    rfl

/-! ### Calls -/

/-- A call with a format string has an argument to take it from. -/
theorem formatProblem_eq (format : Literal) (given : List Literal) :
    formatProblem (format :: given) = some (format.formatProblem? given) := by
  have hformat : entry (format :: given) 0 = some format := rfl
  have hgiven : dropFirst (format :: given) 1 = some given := dropFirst_eq (i := 1) (by simp)
  have hpieces : pieces (format.span.start + 1) format.val 0 = some format.pieces :=
    pieces_eq List.drop_zero
  rw [formatProblem, Literal.formatProblem?, hformat, hgiven]
  simp only [Option.bind_eq_bind, Option.bind_some, hpieces]
  cases format.pieces with
  | error e => rfl
  | ok found =>
    simp only
    generalize Piece.placeholders found = spans
    by_cases hextra : spans.length < given.length
    · rw [if_pos hextra, if_pos hextra, dropFirst_eq hextra.le, Option.bind_some]
    · rw [if_neg hextra, if_neg hextra]
      cases spans with
      | nil => simp
      | cons first more =>
        have hlt : given.length < (first :: more).length ↔ given.length ≤ more.length := by
          rw [List.length_cons, Nat.lt_succ_iff]
        simp only [hlt]
        by_cases hle : given.length ≤ more.length
        · rw [if_pos hle, if_pos hle]
          rfl
        · rw [if_neg hle, if_neg hle]

theorem problem_eq (c : Call) : problem c = some c.problem? := by
  unfold problem Call.problem?
  cases c.argList with
  | nil =>
    simp only [List.isEmpty_nil, if_true]
    split
    · rfl
    · split <;> rfl
  | cons format given =>
    simp only [List.isEmpty_cons, Bool.false_eq_true, if_false, formatProblem_eq]
    split
    · rfl
    · split <;> rfl

/-- **The guarded check** of a program without gaps gives its diagnostics. -/
theorem check_eq {p : Program} {calls : List Call} (h : p.calls? = some calls) :
    check p = some ((calls.filterMap Call.problem?).map Problem.diagnostic) := by
  have hproblems : calls.mapM problem = some (calls.map Call.problem?) :=
    mapM_of_forall fun c _ => problem_eq c
  simp only [check, h, hproblems, Option.bind_eq_bind, Option.bind_some, List.filterMap_map]
  rfl

end Guarded

end MacroCalls
