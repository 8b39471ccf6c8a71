import MacroCalls.Proofs.Placement
import MacroCalls.Proofs.Splicing
import MacroCalls.Proofs.Unplaced

/-!
# Layout does not matter

Two texts with the same words, that is tokens apart from where they start, fare the same: either
both are programs, whose trees and diagnostics are the same without their places, or both are
rejected for the same reason (`SameOutcome`). A token takes part in reading only through its word,
which is what one step keeps (`Draft.unplaced_add`) and from it a whole run (`Place.sameReading`).

Blanks put between tokens do not change the words of a text (`words_insert_before`,
`words_insert_behind`).

Main statement: `layout_does_not_matter`.
-/

namespace MacroCalls

open Text

/-- **The words of a text**: its tokens, the final one included, apart from where they start. -/
def Text.words (src : Text) : List (Token.Kind × Text) := src.tokens.map Token.word

/-- **The same outcome** of parsing, without places. -/
inductive SameOutcome : Except SyntaxError Program → Except SyntaxError Program → Prop
  /-- The trees are the same without their places, and so is what a check of them says. -/
  | ok {p p' : Program} {ds ds' : List Diagnostic} (htree : p.unplaced = p'.unplaced)
      (hds : p.check = .ok ds) (hds' : p'.check = .ok ds')
      (hsaid : ds.map Diagnostic.unplaced = ds'.map Diagnostic.unplaced) :
      SameOutcome (.ok p) (.ok p')
  /-- The errors are the same but for where they stand. -/
  | error {e e' : SyntaxError} (hkind : e.kind = e'.kind) (hfound : e.found = e'.found)
      (hexpected : e.expected = e'.expected) (hcontext : e.context = e'.context) :
      SameOutcome (.error e) (.error e')

/-! ### Reading -/

/-- What has been read, without places. -/
def Draft.unplaced (d : Draft) : Draft :=
  ⟨0, 0, d.calls.map Call.unplaced, d.name.unplaced, d.args.map Literal.unplaced⟩

/-- **One step**: without places, a draft takes from a token only its word. -/
theorem Draft.unplaced_add (d : Draft) (p : Place) (t : Token) :
    (d.add p t).unplaced = (d.unplaced.add p ⟨t.kind, t.text, 0⟩).unplaced := by
  obtain ⟨k, w, o⟩ := t
  unfold add
  dsimp only
  split <;> simp [unplaced, Function.comp_def, Token.body]

/-- The same outcome of reading, without places. -/
def SameReading : Except (Place × Token) Draft → Except (Place × Token) Draft → Prop
  | .ok d, .ok d' => d.unplaced = d'.unplaced
  | .error (q, t), .error (q', t') => q = q' ∧ t.word = t'.word
  | _, _ => False

/-- **A whole run**: the same words are read in the same way. -/
theorem Place.sameReading {ts ts' : List Token} (h : ts.map Token.word = ts'.map Token.word)
    {p : Place} {d d' : Draft} (hd : d.unplaced = d'.unplaced) :
    SameReading (p.read d ts) (p.read d' ts') := by
  induction ts generalizing p d d' ts' with
  | nil =>
    have hnil : ts' = [] := List.map_eq_nil_iff.mp h.symm
    rw [hnil]
    exact hd
  | cons t ts ih =>
    obtain ⟨t', us, rfl, ht, hts⟩ := List.map_eq_cons_iff.mp h.symm
    unfold read
    rw [step_congr ht]
    rcases p.step t with _ | q
    · exact ⟨rfl, ht.symm⟩
    · refine ih hts.symm ?_
      obtain ⟨hk, hw⟩ := Prod.mk.inj ht
      rw [d.unplaced_add p t, d'.unplaced_add p t', hd, hk, hw]

theorem Draft.unplaced_program (d : Draft) :
    d.program.unplaced = ⟨some (d.unplaced.calls.toList.map some), {}⟩ := by
  simp [program, Program.unplaced, unplaced]

/-- **Texts with the same words** have the same outcome. -/
theorem sameOutcome_of_words {src src' : Text} (h : src.words = src'.words) :
    SameOutcome (parse src) (parse src') := by
  have hread : SameReading (Place.fn.read {} src.tokens) (Place.fn.read {} src'.tokens) :=
    Place.sameReading h rfl
  have hfits : ∀ {src : Text} {d : Draft}, Place.fn.read {} src.tokens = .ok d →
      d.program.Fits src := fun hd =>
    (parse_eq_ok_iff_derives.mp (parse_eq_ok_iff.mpr ⟨_, hd, rfl⟩)).fits rfl
  rw [parse_eq_outcome, parse_eq_outcome, Place.outcome, Place.outcome]
  cases hr : Place.fn.read {} src.tokens with
  | ok d =>
    cases hr' : Place.fn.read {} src'.tokens with
    | ok d' =>
      rw [hr, hr'] at hread
      have hd : d.unplaced = d'.unplaced := hread
      have htree : d.program.unplaced = d'.program.unplaced := by
        rw [Draft.unplaced_program, Draft.unplaced_program, hd]
      have hcheck := Program.check_unplaced_congr htree
      rw [(hfits hr).check_eq, (hfits hr').check_eq] at hcheck
      exact .ok htree (hfits hr).check_eq (hfits hr').check_eq (Except.ok.inj hcheck)
    | error qt =>
      rw [hr, hr'] at hread
      exact hread.elim
  | error qt =>
    cases hr' : Place.fn.read {} src'.tokens with
    | ok d' =>
      rw [hr, hr'] at hread
      exact hread.elim
    | error qt' =>
      rw [hr, hr'] at hread
      obtain ⟨hq, ht⟩ : qt.1 = qt'.1 ∧ qt.2.word = qt'.2.word := hread
      obtain ⟨hk, hw⟩ := Prod.mk.inj ht
      exact .error (congrArg SyntaxError.Kind.ofToken hk) hw (by simp [SyntaxError.atToken, hq])
        (by simp [SyntaxError.atToken, hq])

/-! ### Blanks between tokens -/

/-- Blanks before a text do not change its words. -/
theorem words_blank_append {g : Text} (hg : IsBlankRun g) (t : Text) :
    words (g ++ t) = words t := by
  obtain ⟨us, hus, hword⟩ := t.tiles_tokens.exists_blank_append hg 0
  rw [words, words, Text.tokens, Scanner.tokens_eq_iff.mpr hus, hword]

/-- Blanks can be put anywhere before the first token. -/
theorem words_insert_before {a b g : Text} (hg : IsBlankRun g)
    (h : ∀ t ∈ (a ++ b).tokens, a.length ≤ t.start) : words (a ++ (g ++ b)) = words (a ++ b) := by
  have ha : IsBlankRun a := by
    have htiles := (a ++ b).tiles_tokens
    obtain ⟨us, z, htok, -, -⟩ := htiles.exists_final
    obtain ⟨u, ts, htok⟩ : ∃ u ts, (a ++ b).tokens = u :: ts :=
      List.exists_cons_of_ne_nil (by rw [htok]; simp)
    have hle := h u (by rw [htok]; exact List.mem_cons_self)
    rw [htok] at htiles
    obtain ⟨front, rest, hcut, hfront, hstart⟩ := htiles.exists_blank_front
    have hfirst : a <+: front :=
      List.prefix_of_prefix_length_le ⟨b, hcut⟩ (List.prefix_append _ _) (by omega)
    exact fun c hc => hfront c (hfirst.subset hc)
  rw [words_blank_append ha, words_blank_append hg, words_blank_append ha]

/-- Blanks can be put right behind a token. -/
theorem words_insert_behind {a b g : Text} {t : Token} (hg : IsBlankRun g)
    (ht : t ∈ (a ++ b).tokens) (hfinal : t.isFinal = false) (hstop : t.stop = a.length) :
    words (a ++ (g ++ b)) = words (a ++ b) := by
  obtain ⟨us, vs, htok⟩ := List.append_of_mem ht
  have htiles := (a ++ b).tiles_tokens
  rw [htok] at htiles
  obtain ⟨a', b', hcut, hlen, hb, hsplice⟩ := htiles.exists_splice (htiles.ne_nil_behind hfinal)
  obtain ⟨rfl, rfl⟩ : a = a' ∧ b = b' := List.append_inj hcut (by omega)
  obtain ⟨ws, hws, hword⟩ := hb.exists_blank_append hg t.stop
  have hnew := hsplice (g ++ b) ws (fun w hw => hw.blank_append hg) hws
  rw [words, words, Text.tokens, Scanner.tokens_eq_iff.mpr hnew, htok, List.map_append,
    List.map_append, List.map_cons, List.map_cons, hword]

/-- **Layout does not matter.** Texts with the same words have the same outcome, and blanks that are
put before the first token of a text or right behind one that is not final keep its words. -/
theorem layout_does_not_matter :
    (∀ src src' : Text, src.words = src'.words → SameOutcome (parse src) (parse src')) ∧
      ∀ a b g : Text, IsBlankRun g →
        ((∀ t ∈ (a ++ b).tokens, a.length ≤ t.start) ∨
          ∃ t ∈ (a ++ b).tokens, t.isFinal = false ∧ t.stop = a.length) →
        words (a ++ (g ++ b)) = words (a ++ b) ∧
          SameOutcome (parse (a ++ (g ++ b))) (parse (a ++ b)) := by
  refine ⟨fun src src' h => sameOutcome_of_words h, fun a b g hg hplace => ?_⟩
  have hwords : words (a ++ (g ++ b)) = words (a ++ b) := by
    rcases hplace with hbefore | ⟨t, ht, hfinal, hstop⟩
    · exact words_insert_before hg hbefore
    · exact words_insert_behind hg ht hfinal hstop
  exact ⟨hwords, sameOutcome_of_words hwords⟩

/-- A program on one line and on two, and a blank between an identifier and the mark that would make
a macro name of it, were its letters small. -/
theorem layout_of_two_lines :
    (let src := ascii "fn main()\x7bprint!(\"\x7b\x7d\");\x7d"
      let src' := ascii "\tfn\nmain ( ) \x7b print! (\"\x7b\x7d\" ) ; \x7d "
      src.words = src'.words ∧ SameOutcome (parse src) (parse src')) ∧
      let a := ascii "Fn"
      let b := ascii "!"
      IsBlankRun [0x20] ∧ (∃ t ∈ (a ++ b).tokens, t.isFinal = false ∧ t.stop = a.length) ∧
        words (a ++ ([0x20] ++ b)) = words (a ++ b) ∧
        SameOutcome (parse (a ++ ([0x20] ++ b))) (parse (a ++ b)) := by
  have hblank : IsBlankRun [0x20] := by simp [IsBlankRun, isBlank]
  have htoken : ∃ t ∈ (ascii "Fn" ++ ascii "!").tokens, t.isFinal = false ∧
      t.stop = (ascii "Fn").length :=
    ⟨⟨.identifier, ascii "Fn", 0⟩, by decide +kernel, rfl, rfl⟩
  have hwords : words (ascii "fn main()\x7bprint!(\"\x7b\x7d\");\x7d") =
      words (ascii "\tfn\nmain ( ) \x7b print! (\"\x7b\x7d\" ) ; \x7d ") := by
    decide +kernel
  exact ⟨⟨hwords, layout_does_not_matter.1 _ _ hwords⟩, hblank, htoken,
    layout_does_not_matter.2 _ _ _ hblank (.inr htoken)⟩

end MacroCalls
