import MacroCalls.Check
import MacroCalls.Proofs.FormatLanguage
import Mathlib.Data.List.Basic

/-!
# Trees without their places

A tree, a problem or a diagnostic *without its places* has every span and offset in it set to zero.
Checking looks at places only to tell them: trees that are the same without their places have
diagnostics that are the same without theirs (`Program.check_unplaced_congr`). Each function on the
way, from the pieces of a format string up to the check of a program, gives the same result without
places whether or not its argument has them.
-/

namespace MacroCalls

open Text

def Literal.unplaced (l : Literal) : Literal := { l with span := {} }

def Name.unplaced (n : Name) : Name := { n with span := {} }

def Call.unplaced (c : Call) : Call :=
  ⟨c.name.unplaced, c.args.map (List.map Literal.unplaced), {}⟩

/-- **The program without its places**: its names, its values and how they are arranged. -/
def Program.unplaced (p : Program) : Program :=
  ⟨p.statements.map (List.map (Option.map Call.unplaced)), {}⟩

def Piece.unplaced (p : Piece) : Piece := { p with span := {} }

def FormatError.unplaced (e : FormatError) : FormatError := { e with offset := 0 }

/-- **The diagnostic without its places**: its code, its message and the messages of its labels. -/
def Diagnostic.unplaced (d : Diagnostic) : Diagnostic :=
  ⟨d.code, d.message, {}, d.labels.map fun l => { l with span := {} }⟩

def Problem.unplaced : Problem → Problem
  | unknownMacro name => unknownMacro name.unplaced
  | missingFormat name => missingFormat name.unplaced
  | invalidFormat e => invalidFormat e.unplaced
  | extraArguments format unused => extraArguments format.unplaced (unused.map Literal.unplaced)
  | notEnoughArguments _ more given =>
    notEnoughArguments {} (more.map fun _ => {}) (given.map Literal.unplaced)

@[simp] theorem Literal.unplaced_mk (s : Span) (val : Text) :
    (Literal.mk s val).unplaced = ⟨{}, val⟩ := rfl

@[simp] theorem Literal.unplaced_unplaced (l : Literal) : l.unplaced.unplaced = l.unplaced := rfl

@[simp] theorem Name.unplaced_mk (s : Span) (name : Text) :
    (Name.mk s name).unplaced = ⟨{}, name⟩ := rfl

@[simp] theorem Name.unplaced_unplaced (n : Name) : n.unplaced.unplaced = n.unplaced := rfl

@[simp] theorem Call.unplaced_mk (name : Name) (args : Option (List Literal)) (s : Span) :
    (Call.mk name args s).unplaced =
      ⟨name.unplaced, args.map (List.map Literal.unplaced), {}⟩ := rfl

@[simp] theorem Call.unplaced_unplaced (c : Call) : c.unplaced.unplaced = c.unplaced := by
  simp [unplaced, Option.map_map, Function.comp_def]

/-! ### Format strings -/

namespace FormatString

/-- What is read of a format string, without places. -/
def unplaced (r : Except FormatError (List Piece)) : Except FormatError (List Piece) :=
  (r.map (List.map Piece.unplaced)).mapError FormatError.unplaced

theorem unplaced_map_cons {r r' : Except FormatError (List Piece)} {p p' : Piece}
    (h : unplaced r = unplaced r') (hp : p.unplaced = p'.unplaced) :
    unplaced (r.map (p :: ·)) = unplaced (r'.map (p' :: ·)) := by
  rcases r with e | ps <;> rcases r' with e' | ps'
  · exact h
  · cases h
  · cases h
  · have hps : ps.map Piece.unplaced = ps'.map Piece.unplaced := Except.ok.inj h
    simp only [unplaced, Except.map, Except.mapError, List.map_cons, hp, hps]

theorem pieces_unclosed (base : Int) (i : Nat) {rest : Text} (h : rest.dropWhile isPlain = []) :
    pieces base i (openBrace :: rest) = .error ⟨wrap64 (base + i), .unclosedOpen⟩ := by
  rw [pieces, if_neg (by decide), if_pos rfl]
  split
  · rfl
  · rename_i hdrop
    rw [h] at hdrop
    cases hdrop

/-- The pieces from an opening brace on, when `c` is the next brace. -/
theorem pieces_open (base : Int) (i : Nat) {rest after : Text} {c : UInt8}
    (h : rest.dropWhile isPlain = c :: after) :
    pieces base i (openBrace :: rest) =
      if c = openBrace then .error ⟨wrap64 (base + i), .unclosedOpen⟩
      else
        match Glyph.offset? (!·.isBlank) (glyphs (rest.takeWhile isPlain)) with
        | some j => .error ⟨wrap64 (base + (i + 1 + j : Nat)), .invalidCharacter⟩
        | none =>
          (pieces base (i + (rest.takeWhile isPlain).length + 2) after).map
            (⟨.placeholder, ⟨wrap64 (base + i),
              wrap64 (base + (i + (rest.takeWhile isPlain).length + 2 : Nat))⟩, []⟩ :: ·) := by
  rw [pieces, if_neg (by decide), if_pos rfl]
  split
  · rename_i hdrop
    rw [h] at hdrop
    cases hdrop
  · rename_i hdrop
    rw [h] at hdrop
    cases hdrop
    rfl

/-- **Where a format string starts** does not matter to what is read of it. -/
theorem unplaced_pieces (base base' : Int) (i i' : Nat) (t : Text) :
    unplaced (pieces base i t) = unplaced (pieces base' i' t) := by
  fun_induction pieces base i t generalizing i' with
  | case1 i => rw [pieces]
  | case2 i rest =>
    rw [pieces, if_pos rfl]
    rfl
  | case3 i rest hdrop =>
    rw [pieces_unclosed base' i' hdrop]
    rfl
  | case4 i rest after hne hdrop =>
    rw [pieces_open base' i' hdrop, if_pos rfl]
    rfl
  | case5 i rest inner c after hdrop hc j hj =>
    rw [pieces_open base' i' hdrop, if_neg hc, hj]
    rfl
  | case6 i rest inner c after hdrop hc hinner hlen next hne ih =>
    rw [pieces_open base' i' hdrop, if_neg hc, hinner]
    exact unplaced_map_cons (ih _) rfl
  | case7 i b rest hclose hopen stretch hlen next ih =>
    rw [pieces, if_neg hclose, if_neg hopen]
    exact unplaced_map_cons (ih _) rfl

end FormatString

open FormatString

theorem Piece.length_placeholders_of_unplaced {ps qs : List Piece}
    (h : ps.map Piece.unplaced = qs.map Piece.unplaced) :
    (placeholders ps).length = (placeholders qs).length := by
  have hkind : ∀ l : List Piece, (placeholders l).length =
      ((l.map Piece.unplaced).filter (·.kind = .placeholder)).length := by
    intro l
    rw [placeholders, List.length_map, List.filter_map, List.length_map]
    rfl
  rw [hkind ps, hkind qs, h]

/-! ### Problems -/

/-- How a problem is told depends on places only in the places told. -/
theorem Problem.unplaced_diagnostic (q : Problem) :
    q.unplaced.diagnostic.unplaced = q.diagnostic.unplaced := by
  rcases q with name | name | e | ⟨format, unused⟩ | ⟨first, more, given⟩
  · rfl
  · rfl
  · rfl
  · simp [unplaced, diagnostic, Diagnostic.unplaced, Function.comp_def]
  · simp [unplaced, diagnostic, Diagnostic.unplaced, Function.comp_def]

/-- Of placeholders and arguments only the numbers matter. -/
theorem Problem.unplaced_notEnoughArguments (first first' : Span) {more more' : List Span}
    (given : List Literal) (h : more.length = more'.length) :
    (notEnoughArguments first more (given.map Literal.unplaced)).unplaced =
      (notEnoughArguments first' more' given).unplaced := by
  simp [unplaced, h, Function.comp_def]

theorem Literal.unplaced_formatProblem? (format : Literal) (given : List Literal) :
    (format.unplaced.formatProblem? (given.map unplaced)).map Problem.unplaced =
      (format.formatProblem? given).map Problem.unplaced := by
  have hpieces : FormatString.unplaced format.unplaced.pieces =
      FormatString.unplaced format.pieces := unplaced_pieces _ _ _ _ _
  unfold formatProblem?
  generalize format.unplaced.pieces = r' at hpieces ⊢
  generalize format.pieces = r at hpieces ⊢
  rcases r' with e' | ps' <;> rcases r with e | ps
  · have he : e'.unplaced = e.unplaced := Except.error.inj hpieces
    simp only [Option.map_some, Problem.unplaced, he]
  · cases hpieces
  · cases hpieces
  · have hlen := Piece.length_placeholders_of_unplaced (Except.ok.inj hpieces)
    dsimp only
    generalize Piece.placeholders ps = spans at hlen ⊢
    generalize Piece.placeholders ps' = spans' at hlen ⊢
    rw [List.length_map, hlen]
    by_cases hextra : spans.length < given.length
    · rw [if_pos hextra, if_pos hextra, ← List.map_drop]
      simp [Problem.unplaced, Function.comp_def]
    · rw [if_neg hextra, if_neg hextra]
      rcases spans with _ | ⟨first, more⟩ <;> rcases spans' with _ | ⟨first', more'⟩
      · rfl
      · simp at hlen
      · simp at hlen
      · have hmore : more'.length = more.length := Nat.succ.inj hlen
        dsimp only
        rw [hmore]
        by_cases hfew : given.length ≤ more.length
        · rw [if_pos hfew, if_pos hfew, Option.map_some, Option.map_some,
            Problem.unplaced_notEnoughArguments first' first given hmore]
        · rw [if_neg hfew, if_neg hfew]

/-! ### Calls and programs -/

theorem Call.argList_unplaced (c : Call) :
    c.unplaced.argList = c.argList.map Literal.unplaced := by
  obtain ⟨name, args, span⟩ := c
  rcases args with _ | args <;> rfl

/-- **The problem of a call** without its place. -/
theorem Call.unplaced_problem? (c : Call) :
    c.unplaced.problem?.map Problem.unplaced = c.problem?.map Problem.unplaced := by
  have hname : c.unplaced.name.name = c.name.name := rfl
  unfold problem?
  rw [argList_unplaced, hname]
  rcases c.argList with _ | ⟨format, given⟩
  · split_ifs <;> rfl
  · have hformat := format.unplaced_formatProblem? given
    split_ifs
    · exact hformat
    · exact hformat
    · rfl

theorem Call.unplaced_diagnostics (cs : List Call) :
    (((cs.map unplaced).filterMap problem?).map Problem.diagnostic).map Diagnostic.unplaced =
      ((cs.filterMap problem?).map Problem.diagnostic).map Diagnostic.unplaced := by
  -- what is told of a problem is told of the problem without its places
  have htold : ∀ c : Call, (c.problem?.map Problem.diagnostic).map Diagnostic.unplaced =
      ((c.problem?.map Problem.unplaced).map Problem.diagnostic).map Diagnostic.unplaced := by
    intro c
    rcases c.problem? with _ | q
    · rfl
    · exact congrArg some q.unplaced_diagnostic.symm
  simp only [List.map_filterMap, List.filterMap_map]
  refine List.filterMap_congr fun c _ => ?_
  rw [Function.comp_apply, htold, c.unplaced_problem?, ← htold]

theorem Program.calls?_unplaced (p : Program) :
    p.unplaced.calls? = p.calls?.map (List.map Call.unplaced) := by
  have hlist : p.unplaced.statementList = p.statementList.map (Option.map Call.unplaced) := by
    obtain ⟨statements, span⟩ := p
    rcases statements with _ | statements <;> rfl
  rw [calls?, calls?, hlist]
  induction p.statementList with
  | nil => rfl
  | cons s l ih =>
    rw [List.map_cons, List.mapM_cons, List.mapM_cons, ih]
    rcases s with _ | c
    · rfl
    · rcases l.mapM id with _ | cs <;> rfl

/-- **The check of a program** without its places. -/
theorem Program.unplaced_check (p : Program) :
    p.unplaced.check.map (List.map Diagnostic.unplaced) =
      p.check.map (List.map Diagnostic.unplaced) := by
  rw [check_eq, check_eq, calls?_unplaced]
  rcases p.calls? with _ | cs
  · rfl
  · exact congrArg Except.ok (Call.unplaced_diagnostics cs)

/-- Programs that are the same without their places have diagnostics that are. -/
theorem Program.check_unplaced_congr {p p' : Program} (h : p.unplaced = p'.unplaced) :
    p.check.map (List.map Diagnostic.unplaced) = p'.check.map (List.map Diagnostic.unplaced) := by
  rw [← p.unplaced_check, h, p'.unplaced_check]

end MacroCalls
