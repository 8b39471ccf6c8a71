import MacroCalls.Proofs.RoundTrip

/-!
# Respacing written values

A JSON text can be laid out anew without being read. One pass over its bytes drops the blanks
between tokens and puts those of another layout in their place. The pass (`Spacer`) knows no
values: it keeps how many brackets are open, whether the last token has opened one, and whether it
is inside a string, where it copies every byte.

To respace a written value is to write it with the other layout (`respaced_write`). The induction
is over the value, with the items of an array and the members of an object each taking the pass
from one item to the next. Strings are spelled as before in any text, written or not
(`quotations_respaced`).

Main statement: `indented_same_document`.
-/

namespace MacroCalls.Json

open Text

/-! ### Strings in a text -/

/-- Where the next byte of a text stands. -/
inductive Spot where
  | outside
  /-- Inside a string. -/
  | inside
  /-- Inside a string and right behind a backslash. -/
  | escaped
  deriving DecidableEq, Repr

/-- Where the byte behind `b` stands. -/
def Spot.next : Spot → UInt8 → Spot
  | outside, b => if b = quoteMark then inside else outside
  | inside, b => if b = quoteMark then outside else if b = backslash then escaped else inside
  | escaped, _ => inside

/-- The strings of a text one behind the other, as they are spelled, with their quotes. -/
def quotations (s : Spot) : Text → Text
  | [] => []
  | b :: t =>
    (if s = .outside ∧ b ≠ quoteMark then [] else [b]) ++ quotations (s.next b) t

/-! ### The pass over a text -/

/-- A pass that puts the blanks of a layout between tokens. -/
structure Spacer where
  spot : Spot := .outside
  /-- How many brackets are open. -/
  depth : Nat := 0
  /-- Whether the last token has opened a bracket. -/
  fresh : Bool := false
  deriving DecidableEq, Repr

namespace Spacer

/-- The blanks before a mark, or before any other token. Nothing stands between the brackets of an
empty list. -/
def before (l : Layout) (depth : Nat) (fresh : Bool) : Option Token → Text
  | some .arrayClose | some .objectClose => if fresh then [] else l.lineBreak (depth - 1)
  | _ => if fresh then l.lineBreak depth else []

/-- The blanks behind a mark. -/
def behind (l : Layout) (depth : Nat) : Option Token → Text
  | some .comma => l.lineBreak depth
  | some .colon => l.afterColon
  | _ => []

/-- How many brackets are open behind a mark. -/
def depthBehind (depth : Nat) : Option Token → Nat
  | some .arrayOpen | some .objectOpen => depth + 1
  | some .arrayClose | some .objectClose => depth - 1
  | _ => depth

/-- Whether a mark opens a bracket. -/
def opens : Option Token → Bool
  | some .arrayOpen | some .objectOpen => true
  | _ => false

/-- One byte, and what is written for it. -/
def step (l : Layout) : Spacer → UInt8 → Spacer × Text
  | ⟨.outside, depth, fresh⟩, b =>
    if isBlank b then (⟨.outside, depth, fresh⟩, [])
    else
      let k := Token.mark? b
      (⟨Spot.next .outside b, depthBehind depth k, opens k⟩,
        before l depth fresh k ++ b :: behind l depth k)
  | ⟨spot, depth, fresh⟩, b => (⟨spot.next b, depth, fresh⟩, [b])

/-- What is written for the rest of a text. -/
def run (l : Layout) (s : Spacer) : Text → Text
  | [] => []
  | b :: t => (s.step l b).2 ++ (s.step l b).1.run l t

end Spacer

/-- The text with the blanks of a layout between its tokens, in place of those that are there. -/
def respaced (l : Layout) (t : Text) : Text := Spacer.run l {} t

/-! ### Strings are spelled as before -/

theorem ne_quoteMark_of_isBlank {b : UInt8} (h : isBlank b) : b ≠ quoteMark := by
  rintro rfl
  cases h

theorem quotations_outside {b : UInt8} (hb : b ≠ quoteMark) (t : Text) :
    quotations .outside (b :: t) = quotations .outside t := by
  rw [quotations, if_pos ⟨rfl, hb⟩, Spot.next, if_neg hb, List.nil_append]

theorem quotations_blank {g : Text} (hg : ∀ b ∈ g, isBlank b) (t : Text) :
    quotations .outside (g ++ t) = quotations .outside t := by
  induction g with
  | nil => rfl
  | cons b g ih =>
    obtain ⟨hb, hg⟩ := List.forall_mem_cons.mp hg
    rw [List.cons_append, quotations_outside (ne_quoteMark_of_isBlank hb), ih hg]

namespace Spacer

variable {l : Layout} {depth : Nat} {fresh : Bool}

theorem step_blank {b : UInt8} (hb : isBlank b) :
    step l ⟨.outside, depth, fresh⟩ b = (⟨.outside, depth, fresh⟩, []) := by
  rw [step, if_pos hb]

theorem step_outside {b : UInt8} (hb : isBlank b = false) :
    step l ⟨.outside, depth, fresh⟩ b =
      (⟨Spot.next .outside b, depthBehind depth (Token.mark? b), opens (Token.mark? b)⟩,
        before l depth fresh (Token.mark? b) ++ b :: behind l depth (Token.mark? b)) := by
  rw [step, if_neg (by simp [hb])]

theorem spot_step (s : Spacer) (b : UInt8) : (s.step l b).1.spot = s.spot.next b := by
  rcases s with ⟨_ | _ | _, depth, fresh⟩
  · by_cases hb : isBlank b
    · rw [step_blank hb, Spot.next, if_neg (ne_quoteMark_of_isBlank hb)]
    · rw [step_outside (by simpa using hb)]
  · rfl
  · rfl

theorem isBlank_before (hl : l.IsBlank) (k : Option Token) :
    ∀ b ∈ before l depth fresh k, isBlank b := by
  cases fresh with
  | false =>
    unfold before
    split
    · exact hl.lineBreak _
    · exact hl.lineBreak _
    · exact List.forall_mem_nil _
  | true =>
    unfold before
    split
    · exact List.forall_mem_nil _
    · exact List.forall_mem_nil _
    · exact hl.lineBreak _

theorem isBlank_behind (hl : l.IsBlank) (k : Option Token) :
    ∀ b ∈ behind l depth k, isBlank b := by
  unfold behind
  split
  · exact hl.lineBreak depth
  · exact hl.afterColon
  · exact List.forall_mem_nil _

/-- What is written for a byte has the same strings as the byte. -/
theorem quotations_step (hl : l.IsBlank) (s : Spacer) (b : UInt8) (t : Text) :
    quotations s.spot ((s.step l b).2 ++ t) = quotations s.spot (b :: t) := by
  rcases s with ⟨_ | _ | _, depth, fresh⟩
  · by_cases hb : isBlank b
    · rw [step_blank hb, quotations_outside (ne_quoteMark_of_isBlank hb)]
      rfl
    · rw [step_outside (by simpa using hb), List.append_assoc,
        quotations_blank (isBlank_before hl _), List.cons_append]
      -- a quote is no mark and has no blanks behind it
      by_cases hquote : b = quoteMark
      · subst hquote
        rfl
      · rw [quotations_outside hquote, quotations_blank (isBlank_behind hl _),
          quotations_outside hquote]
  · rfl
  · rfl

theorem quotations_run (hl : l.IsBlank) (s : Spacer) (t : Text) :
    quotations s.spot (s.run l t) = quotations s.spot t := by
  induction t generalizing s with
  | nil => rfl
  | cons b t ih =>
    have hrest := ih (s.step l b).1
    rw [spot_step] at hrest
    rw [run, quotations_step hl, quotations, quotations, hrest]

end Spacer

/-- **Respacing keeps strings** as they are spelled, in whatever text. -/
theorem quotations_respaced {l : Layout} (hl : l.IsBlank) (t : Text) :
    quotations .outside (respaced l t) = quotations .outside t :=
  Spacer.quotations_run hl {} t

/-! ### Respacing what was written -/

namespace Spacer

variable {l : Layout} {depth : Nat} {fresh : Bool}

theorem run_blank {g : Text} (hg : ∀ b ∈ g, isBlank b) (t : Text) :
    run l ⟨.outside, depth, fresh⟩ (g ++ t) = run l ⟨.outside, depth, fresh⟩ t := by
  induction g with
  | nil => rfl
  | cons b g ih =>
    obtain ⟨hb, hg⟩ := List.forall_mem_cons.mp hg
    rw [List.cons_append, run, step_blank hb]
    exact ih hg

/-- A byte that is no blank stands between the blanks that belong to it. -/
theorem run_cons {b : UInt8} (hb : isBlank b = false) (t : Text) :
    run l ⟨.outside, depth, fresh⟩ (b :: t) =
      before l depth fresh (Token.mark? b) ++ b :: behind l depth (Token.mark? b) ++
        run l ⟨Spot.next .outside b, depthBehind depth (Token.mark? b), opens (Token.mark? b)⟩
          t := by
  rw [run, step_outside hb]

section Marks

variable {b : UInt8} (t : Text)

theorem run_open (hb : b = 0x5B ∨ b = openBrace) :
    run l ⟨.outside, depth, fresh⟩ (b :: t) =
      before l depth fresh none ++ b :: run l ⟨.outside, depth + 1, true⟩ t := by
  rcases hb with rfl | rfl <;> exact List.append_assoc ..

/-- Behind an opening bracket, nothing is written before the closing one. -/
theorem run_close_fresh (hb : b = 0x5D ∨ b = closeBrace) :
    run l ⟨.outside, depth + 1, true⟩ (b :: t) = b :: run l ⟨.outside, depth, false⟩ t := by
  rcases hb with rfl | rfl <;> rfl

theorem run_close (hb : b = 0x5D ∨ b = closeBrace) :
    run l ⟨.outside, depth + 1, false⟩ (b :: t) =
      l.lineBreak depth ++ b :: run l ⟨.outside, depth, false⟩ t := by
  rcases hb with rfl | rfl <;> exact List.append_assoc ..

theorem run_comma :
    run l ⟨.outside, depth, false⟩ (0x2C :: t) =
      0x2C :: (l.lineBreak depth ++ run l ⟨.outside, depth, false⟩ t) := rfl

theorem run_colon :
    run l ⟨.outside, depth, false⟩ (0x3A :: t) =
      0x3A :: (l.afterColon ++ run l ⟨.outside, depth, false⟩ t) := rfl

end Marks

/-- Bytes of words and numbers. -/
def isLetter (b : UInt8) : Bool := !isBlank b && (Token.mark? b).isNone && b != quoteMark

theorem isLetter_iff {b : UInt8} :
    isLetter b ↔ isBlank b = false ∧ Token.mark? b = none ∧ b ≠ quoteMark := by
  simp [isLetter, and_assoc]

theorem run_letters {w : Text} (hw : ∀ b ∈ w, isLetter b) (t : Text) :
    run l ⟨.outside, depth, false⟩ (w ++ t) = w ++ run l ⟨.outside, depth, false⟩ t := by
  induction w with
  | nil => rfl
  | cons b w ih =>
    obtain ⟨hb, hw⟩ := List.forall_mem_cons.mp hw
    obtain ⟨hb, hmark, hquote⟩ := isLetter_iff.mp hb
    rw [List.cons_append, run_cons hb, hmark, Spot.next, if_neg hquote]
    exact congrArg (b :: ·) (ih hw)

/-- **A word or number** is copied. -/
theorem run_lexeme {w : Text} (hne : w ≠ []) (hw : ∀ b ∈ w, isLetter b) (t : Text) :
    run l ⟨.outside, depth, fresh⟩ (w ++ t) =
      before l depth fresh none ++ w ++ run l ⟨.outside, depth, false⟩ t := by
  obtain ⟨b, w, rfl⟩ := List.exists_cons_of_ne_nil hne
  obtain ⟨hb, hw⟩ := List.forall_mem_cons.mp hw
  obtain ⟨hb, hmark, hquote⟩ := isLetter_iff.mp hb
  rw [List.cons_append, run_cons hb, hmark, Spot.next, if_neg hquote]
  simp only [depthBehind, opens, behind]
  rw [run_letters hw]
  simp

theorem run_verbatim {w : Text} (hw : ∀ b ∈ w, isVerbatim b) (t : Text) :
    run l ⟨.inside, depth, fresh⟩ (w ++ t) = w ++ run l ⟨.inside, depth, fresh⟩ t := by
  induction w with
  | nil => rfl
  | cons b w ih =>
    obtain ⟨hb, hw⟩ := List.forall_mem_cons.mp hw
    simp only [isVerbatim, Bool.and_eq_true, bne_iff_ne] at hb
    have hspot : Spot.next .inside b = .inside := by
      rw [Spot.next, if_neg hb.1.2, if_neg hb.2]
    rw [List.cons_append, run, step, hspot, ih hw]
    · rfl
    · rintro ⟨⟩

theorem run_backslash (b : UInt8) (t : Text) :
    run l ⟨.inside, depth, fresh⟩ (backslash :: b :: t) =
      backslash :: b :: run l ⟨.inside, depth, fresh⟩ t := rfl

theorem run_escaped (c : Char) (t : Text) :
    run l ⟨.inside, depth, fresh⟩ (escaped c ++ t) =
      escaped c ++ run l ⟨.inside, depth, fresh⟩ t := by
  rcases escaped_cases c with ⟨b, hc, -⟩ | ⟨hc, -⟩ | ⟨hc, hlow, hquote, hslash⟩
  · rw [hc]
    exact run_backslash b t
  · rw [hc, List.cons_append, List.cons_append, run_backslash,
      run_verbatim (isVerbatim_of_mem_hex 4 c.toNat)]
    rfl
  · rw [hc]
    exact run_verbatim (isVerbatim_of_mem_encode hlow hquote hslash) t

/-- **A string** is copied. -/
theorem run_stringText (s t : Text) :
    run l ⟨.outside, depth, fresh⟩ (stringText s ++ t) =
      before l depth fresh none ++ stringText s ++ run l ⟨.outside, depth, false⟩ t := by
  have hbody : ∀ xs : List Glyph,
      run l ⟨.inside, depth, false⟩ (xs.flatMap (fun x => escaped x.char) ++ quoteMark :: t) =
        xs.flatMap (fun x => escaped x.char) ++
          quoteMark :: run l ⟨.outside, depth, false⟩ t := by
    intro xs
    induction xs with
    | nil => rfl
    | cons x xs ih =>
      rw [List.flatMap_cons, List.append_assoc, run_escaped, ih, List.append_assoc]
  have hquote : Token.mark? quoteMark = none := rfl
  rw [stringText, List.cons_append, List.cons_append, List.append_assoc, List.singleton_append,
    run_cons (by decide), hquote]
  simp only [Spot.next, if_true, depthBehind, opens, behind]
  rw [hbody]
  simp

theorem run_word {word : Text} {j : Json} (h : (word, j) ∈ words) (t : Text) :
    run l ⟨.outside, depth, fresh⟩ (word ++ t) =
      before l depth fresh none ++ word ++ run l ⟨.outside, depth, false⟩ t := by
  simp only [words, List.mem_cons, Prod.mk.injEq, List.not_mem_nil, or_false] at h
  rcases h with ⟨rfl, -⟩ | ⟨rfl, -⟩ | ⟨rfl, -⟩ <;>
    exact run_lexeme (by decide) (List.all_eq_true.mp (by decide)) t

theorem isLetter_of_isDigit {b : UInt8} (h : isDigit b) : isLetter b := by
  have hne : ∀ x, ¬ isDigit x → b ≠ x := fun x hx heq => hx (heq ▸ h)
  refine isLetter_iff.mpr ⟨not_isBlank_of_isDigit h, ?_, hne _ (by decide)⟩
  rw [Token.mark?, if_neg (hne _ (by decide)), if_neg (hne _ (by decide)),
    if_neg (hne _ (by decide)), if_neg (hne _ (by decide)), if_neg (hne _ (by decide)),
    if_neg (hne _ (by decide))]

theorem isLetter_of_mem_integer (i : Int) : ∀ b ∈ integer i, isLetter b := by
  have hdigits : ∀ b ∈ decimal i.natAbs, isLetter b := fun b hb =>
    isLetter_of_isDigit (isDigit_of_mem_decimal _ b hb)
  unfold integer
  split
  · exact List.forall_mem_cons.mpr ⟨rfl, hdigits⟩
  · exact hdigits

theorem integer_ne_nil (i : Int) : integer i ≠ [] := by
  obtain ⟨b, t, h, -⟩ := exists_integer_eq_cons i
  simp [h]

variable {l' : Layout} (hl : l.IsBlank)
include hl

theorem run_key (k w t : Text) :
    run l' ⟨.outside, depth, fresh⟩ ((stringText k ++ 0x3A :: l.afterColon ++ w) ++ t) =
      before l' depth fresh none ++ (stringText k ++ 0x3A :: l'.afterColon) ++
        run l' ⟨.outside, depth, false⟩ (w ++ t) := by
  simp only [List.append_assoc, List.cons_append]
  rw [run_stringText, run_colon, run_blank hl.afterColon, List.append_assoc]

mutual

/-- **Respacing a value** gives the value written with the other layout. -/
theorem run_write : ∀ (j : Json) (n depth depth' : Nat) (fresh : Bool) (t : Text), j.Plain n →
    run l' ⟨.outside, depth, fresh⟩ (write l depth' j ++ t) =
      before l' depth fresh none ++ write l' depth j ++ run l' ⟨.outside, depth, false⟩ t
  | .null, _, _, _, _, t, _ => run_word (.head _) t
  | .bool true, _, _, _, _, t, _ => run_word (.tail _ (.head _)) t
  | .bool false, _, _, _, _, t, _ => run_word (.tail _ (.tail _ (.head _))) t
  | .number lexeme, _, _, _, _, t, h => by
    obtain ⟨i, rfl⟩ := h
    exact run_lexeme (integer_ne_nil i) (isLetter_of_mem_integer i) t
  | .string s, _, _, _, _, t, _ => run_stringText s t
  | .array [], _, _, _, _, t, _ => by
    rw [write, write, writeItems, writeItems, Layout.enclose, Layout.enclose, List.cons_append,
      run_open _ (.inl rfl), List.cons_append, run_close_fresh _ (.inl rfl)]
    simp
  | .array (j :: items), n, depth, depth', fresh, t, h => by
    obtain ⟨-, hj, hitems⟩ := h
    rw [write, write, writeItems, writeItems, Layout.enclose_cons, Layout.enclose_cons,
      List.cons_append, List.append_assoc, List.append_assoc, run_open _ (.inl rfl),
      run_blank (hl.lineBreak _), run_write j (n - 1) _ _ _ _ hj,
      run_items items (n - 1) _ _ _ hitems]
    simp [before]
  | .object [], _, _, _, _, t, _ => by
    rw [write, write, writeMembers, writeMembers, Layout.enclose, Layout.enclose, List.cons_append,
      run_open _ (.inr rfl), List.cons_append, run_close_fresh _ (.inr rfl)]
    simp
  | .object ((k, j) :: members), n, depth, depth', fresh, t, h => by
    obtain ⟨-, hj, hmembers⟩ := h
    rw [write, write, writeMembers, writeMembers, Layout.enclose_cons, Layout.enclose_cons,
      List.cons_append, List.append_assoc, List.append_assoc, run_open _ (.inr rfl),
      run_blank (hl.lineBreak _), run_key hl, run_write j (n - 1) _ _ _ _ hj,
      run_members members (n - 1) _ _ _ hmembers]
    simp [before]

/-- Further items, from the state behind an item. -/
theorem run_items : ∀ (items : List Json) (n depth depth' : Nat) (t : Text), PlainItems n items →
    run l' ⟨.outside, depth + 1, false⟩
        (l.behind depth' 0x5D (writeItems l (depth' + 1) items) ++ t) =
      l'.behind depth 0x5D (writeItems l' (depth + 1) items) ++
        run l' ⟨.outside, depth, false⟩ t
  | [], _, _, _, t, _ => by
    rw [writeItems, writeItems, Layout.behind_nil, Layout.behind_nil, List.append_assoc,
      run_blank (hl.lineBreak _), List.singleton_append, run_close _ (.inl rfl), List.append_assoc,
      List.singleton_append]
  | j :: items, n, _, _, t, h => by
    rw [writeItems, writeItems, Layout.behind_cons, Layout.behind_cons, List.cons_append,
      List.append_assoc, List.append_assoc, run_comma, run_blank (hl.lineBreak _),
      run_write j n _ _ _ _ h.1, run_items items n _ _ _ h.2]
    simp [before]

/-- Further members, from the state behind a member. -/
theorem run_members : ∀ (members : List (Text × Json)) (n depth depth' : Nat) (t : Text),
    PlainMembers n members →
    run l' ⟨.outside, depth + 1, false⟩
        (l.behind depth' closeBrace (writeMembers l (depth' + 1) members) ++ t) =
      l'.behind depth closeBrace (writeMembers l' (depth + 1) members) ++
        run l' ⟨.outside, depth, false⟩ t
  | [], _, _, _, t, _ => by
    rw [writeMembers, writeMembers, Layout.behind_nil, Layout.behind_nil, List.append_assoc,
      run_blank (hl.lineBreak _), List.singleton_append, run_close _ (.inr rfl), List.append_assoc,
      List.singleton_append]
  | (k, j) :: members, n, _, _, t, h => by
    rw [writeMembers, writeMembers, Layout.behind_cons, Layout.behind_cons, List.cons_append,
      List.append_assoc, List.append_assoc, run_comma, run_blank (hl.lineBreak _), run_key hl,
      run_write j n _ _ _ _ h.1, run_members members n _ _ _ h.2]
    simp [before]

end

end Spacer

/-- **Respacing what was written** is writing it with the other layout. -/
theorem respaced_write {l : Layout} (hl : l.IsBlank) (l' : Layout) {j : Json} {n : Nat}
    (h : j.Plain n) : respaced l' (write l 0 j) = write l' 0 j := by
  have hrun : respaced l' (write l 0 j ++ []) = write l' 0 j ++ [] :=
    Spacer.run_write hl j n 0 0 false [] h
  rwa [List.append_nil, List.append_nil] at hrun

theorem Layout.isBlank_indented {unit : Text} (h : ∀ b ∈ unit, isBlank b) :
    (Layout.indented unit).IsBlank := by
  refine ⟨fun depth => List.forall_mem_cons.mpr ⟨rfl, fun b hb => ?_⟩, fun b hb => ?_⟩
  · obtain ⟨w, hw, hb⟩ := List.mem_flatten.mp hb
    rw [List.eq_of_mem_replicate hw] at hb
    exact h b hb
  · rw [List.mem_singleton.mp hb]
    rfl

/-- **The indented text is the same document** as the compact one. Both are decoded to the same
tree; each is the other one respaced, whatever blanks the indentation is made of; and their strings
are spelled alike. -/
theorem indented_same_document (p : Program) (hp : ∀ s ∈ p.spans, s.Is64) (unit : Text)
    (hunit : ∀ b ∈ unit, isBlank b) :
    let compact := write .compact 0 p.toJson
    let indented := write (.indented unit) 0 p.toJson
    (decode toProgram indented = .ok (p.mapTexts Text.repaired) ∧
        decode toProgram compact = .ok (p.mapTexts Text.repaired)) ∧
      (indented = respaced (.indented unit) compact ∧ compact = respaced .compact indented) ∧
      quotations .outside indented = quotations .outside compact := by
  intro compact indented
  have hindented := Layout.isBlank_indented hunit
  have hrespaced : indented = respaced (.indented unit) compact :=
    (respaced_write Layout.isBlank_compact _ (plain_program p 0)).symm
  refine ⟨⟨decode_write hindented hp, decode_write Layout.isBlank_compact hp⟩, ⟨hrespaced, ?_⟩, ?_⟩
  · exact (respaced_write hindented _ (plain_program p 0)).symm
  · rw [hrespaced]
    exact quotations_respaced hindented compact

/-- A value full of marks and an escaped quote, an empty and a missing list, and an indentation
with a line feed in it. -/
theorem indented_same_document_marks :
    let p : Program := ⟨some [none, some ⟨⟨⟨0, 1⟩, ascii "a!"⟩, some [], ⟨0, 1⟩⟩,
      some ⟨⟨⟨2, 3⟩, []⟩, some [⟨⟨4, 5⟩, ascii "\x7b\", \\ :[]\x7d"⟩], ⟨2, 6⟩⟩], ⟨0, -1⟩⟩
    let unit : Text := [0x09, newline]
    ((∀ s ∈ p.spans, s.Is64) ∧ ∀ b ∈ unit, isBlank b) ∧
      decode toProgram (write (.indented unit) 0 p.toJson) = .ok p ∧
      write (.indented unit) 0 p.toJson =
        respaced (.indented unit) (write .compact 0 p.toJson) := by
  intro p unit
  have hp : ∀ s ∈ p.spans, s.Is64 := by decide
  have hunit : ∀ b ∈ unit, isBlank b := List.all_eq_true.mp (by decide)
  have hrepaired : p.mapTexts Text.repaired = p := by decide +kernel
  obtain ⟨⟨hdecode, -⟩, ⟨hrespaced, -⟩, -⟩ := indented_same_document p hp unit hunit
  rw [hrepaired] at hdecode
  exact ⟨⟨hp, hunit⟩, hdecode, hrespaced⟩

end MacroCalls.Json
