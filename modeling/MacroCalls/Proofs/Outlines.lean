import MacroCalls.Outline
import MacroCalls.Proofs.Quoting
import MacroCalls.Proofs.Rules

/-!
# Outlines lose nothing but what they cut

What a printer writes for a program without gaps is a list of lines (`Printer.program_eq`): one for
the program, one for each name and one for each argument. No line feed stands inside a line, since
literals are quoted, so the lines can be told apart; and an argument is indented deeper than the
name of any call, so the arguments of one call end where the next call starts. A literal that is cut
has three bytes more than any that is shown whole.

Main statement: `outlines_tell_apart`.
-/

namespace MacroCalls

open Text

namespace Printer

/-! ### The lines of an outline -/

/-- A line at a depth. -/
def row (on : Bool) (depth : Nat) (color : Color) (t : Text) : Text :=
  spaces (depth * indentSize) ++ t.painted on color

/-- The lines of a call: its name and, one level deeper, its arguments. -/
def callRows (on : Bool) (depth : Nat) (c : Call) : List Text :=
  row on depth .cyan c.name.name ::
    c.argList.map fun a => row on (depth + 1) .green (cut a.val).quoted

/-- The lines of a program with some calls. -/
def programRows (on : Bool) (depth : Nat) (cs : List Call) : List Text :=
  row on depth .magenta (ascii "fn main()") :: cs.flatMap (callRows on (depth + 1))

/-- The printer with some more lines written. -/
def write (p : Printer) (ls : List Text) : Printer := { p with output := p.output ++ ofLines ls }

section Write

variable (p : Printer)

@[simp] theorem color_write (ls : List Text) : (p.write ls).color = p.color := rfl

@[simp] theorem depth_write (ls : List Text) : (p.write ls).depth = p.depth := rfl

@[simp] theorem write_nil : p.write [] = p := by
  simp [write]

@[simp] theorem write_write (ls ms : List Text) : (p.write ls).write ms = p.write (ls ++ ms) := by
  simp [write, ofLines_append]

theorem dedent_write_indent (ls : List Text) : (p.indent.write ls).dedent = p.write ls := rfl

theorem line_eq (color : Color) (t : Text) :
    p.line color t = p.write [row p.color p.depth color t] := by
  simp [line, write, row, ofLines_cons]

theorem foldl_literal (as : List Literal) :
    as.foldl literal p =
      p.write (as.map fun a => row p.color p.depth .green (cut a.val).quoted) := by
  induction as generalizing p with
  | nil => simp
  | cons a as ih =>
    rw [List.foldl_cons, ih, literal, line_eq, write_write, color_write, depth_write, List.map_cons,
      List.singleton_append]

theorem call_eq (c : Call) : p.call c = p.write (callRows p.color p.depth c) := by
  have hname : (p.name c.name).indent = p.indent.write [row p.color p.depth .cyan c.name.name] := by
    rw [name, line_eq]
    rfl
  rw [call, hname, foldl_literal, write_write, dedent_write_indent, callRows]
  rfl

theorem foldlM_statement {ss : List (Option Call)} (h : none ∉ ss) :
    ss.foldlM statement p =
      .ok (p.write ((ss.filterMap id).flatMap (callRows p.color p.depth))) := by
  induction ss generalizing p with
  | nil => simp [pure, Except.pure]
  | cons s ss ih =>
    cases s with
    | none => exact absurd List.mem_cons_self h
    | some c =>
      have hrest := ih (p.call c) fun hss => h (List.mem_cons_of_mem _ hss)
      rw [call_eq, color_write, depth_write, write_write] at hrest
      rw [List.foldlM_cons, statement, call_eq]
      exact hrest

/-- **The outline of a program without gaps** is written line by line. -/
theorem program_eq {t : Program} (h : none ∉ t.statementList) :
    p.program t = .ok (p.write (programRows p.color p.depth t.calls)) := by
  rw [program, line_eq, foldlM_statement _ h]
  exact congrArg Except.ok ((dedent_write_indent ..).trans (write_write ..))

end Write

/-! ### What a line shows -/

section Rows

variable {on : Bool} {depth : Nat} {color : Color} {t u : Text}

theorem row_inj (h : row on depth color t = row on depth color u) : t = u :=
  painted_inj (List.append_cancel_left h)

theorem newline_not_mem_row (h : newline ∉ t) : newline ∉ row on depth color t := fun hmem =>
  (List.mem_append.mp hmem).elim (not_mem_spaces (by decide) _)
    (not_mem_painted (by decide) (fun _ => by decide) h)

/-- The line is indented as deep as one level below `depth`. -/
def IsDeeper (depth : Nat) (l : Text) : Prop := spaces ((depth + 1) * indentSize) <+: l

theorem isDeeper_row : IsDeeper depth (row on (depth + 1) color t) := List.prefix_append ..

theorem not_isDeeper_row (h : ∃ b ∈ t.head?, b ≠ 0x20) :
    ¬ IsDeeper depth (row on depth color t) := by
  obtain ⟨b, hb, hne⟩ := h
  obtain ⟨rest, rfl⟩ := List.head?_eq_some_iff.mp hb
  have hspaces : spaces ((depth + 1) * indentSize) = spaces (depth * indentSize) ++ spaces 2 := by
    rw [spaces, spaces, spaces, List.replicate_append_replicate, Nat.add_mul]
    rfl
  rw [IsDeeper, row, hspaces, List.prefix_append_right_inj]
  -- behind the indentation the line goes on with the escape of a color or with the text itself
  rintro ⟨tail, htail⟩
  cases on with
  | false => exact hne (List.cons.inj htail).1.symm
  | true => exact absurd (List.cons.inj htail).1 (by decide)

end Rows

/-! ### What is cut -/

theorem cut_of_le {v : Text} (h : v.length ≤ 80) : cut v = v :=
  if_neg (Nat.not_lt.mpr h)

theorem cut_of_lt {v : Text} (h : 80 < v.length) : cut v = v.take 80 ++ ascii "..." :=
  if_pos h

/-- A value that is cut is longer than any that is not. -/
theorem length_cut_of_lt {v : Text} (h : 80 < v.length) : (cut v).length = 83 := by
  have hdots : (ascii "...").length = 3 := by decide
  rw [cut_of_lt h, List.length_append, List.length_take, hdots]
  omega

/-- **What a cut literal shows**: all of a short value, the front of a long one. -/
theorem cut_eq_cut_iff {v w : Text} :
    cut v = cut w ↔ v = w ∨ 80 < v.length ∧ 80 < w.length ∧ v.take 80 = w.take 80 := by
  constructor
  · intro h
    rcases Nat.lt_or_ge 80 v.length with hv | hv <;> rcases Nat.lt_or_ge 80 w.length with hw | hw
    · rw [cut_of_lt hv, cut_of_lt hw] at h
      exact .inr ⟨hv, hw, List.append_cancel_right h⟩
    · have := length_cut_of_lt hv
      rw [h, cut_of_le hw] at this
      omega
    · have := length_cut_of_lt hw
      rw [← h, cut_of_le hv] at this
      omega
    · rw [cut_of_le hv, cut_of_le hw] at h
      exact .inl h
  · rintro (rfl | ⟨hv, hw, h⟩)
    · rfl
    · rw [cut_of_lt hv, cut_of_lt hw, h]

end Printer

/-! ### Calls that look alike -/

/-- The literals look alike: they have the same value, or both values have more than 80 bytes and
the first 80 are the same. -/
def Literal.LooksLike (a b : Literal) : Prop :=
  a.val = b.val ∨ 80 < a.val.length ∧ 80 < b.val.length ∧ a.val.take 80 = b.val.take 80

/-- The calls look alike: they have the same name and as many arguments, which look alike one by
one. -/
structure Call.LooksLike (c d : Call) : Prop where
  name_eq : c.name.name = d.name.name
  args : List.Forall₂ Literal.LooksLike c.argList d.argList

theorem map_eq_map_iff_forall₂ {α β : Type} {f : α → β} {l m : List α} :
    l.map f = m.map f ↔ List.Forall₂ (fun a b => f a = f b) l m := by
  rw [← List.forall₂_eq_eq_eq, List.forall₂_map_left_iff, List.forall₂_map_right_iff]

theorem IsMacroName.newline_not_mem {w : Text} (h : IsMacroName w) : newline ∉ w := by
  obtain ⟨run, -, hrun, rfl⟩ := h
  intro hmem
  rcases List.mem_append.mp hmem with hmem | hmem
  · exact absurd (hrun _ hmem) (by decide)
  · exact absurd hmem (by decide)

theorem IsMacroName.exists_head?_ne {w : Text} (h : IsMacroName w) : ∃ b ∈ w.head?, b ≠ 0x20 := by
  obtain ⟨run, hne, hrun, rfl⟩ := h
  obtain ⟨b, run, rfl⟩ := List.exists_cons_of_ne_nil hne
  refine ⟨b, rfl, ?_⟩
  rintro rfl
  exact absurd (hrun _ List.mem_cons_self) (by decide)

namespace Printer

variable {on : Bool} {depth : Nat}

theorem row_literal_eq_iff {a b : Literal} :
    row on depth .green (cut a.val).quoted = row on depth .green (cut b.val).quoted ↔
      a.LooksLike b := by
  rw [Literal.LooksLike, ← cut_eq_cut_iff]
  exact ⟨fun h => quoted_inj (row_inj h), fun h => by rw [h]⟩

theorem callRows_eq_of_looksLike {c d : Call} (h : c.LooksLike d) :
    callRows on depth c = callRows on depth d := by
  rw [callRows, callRows, h.name_eq]
  refine congrArg _ (map_eq_map_iff_forall₂.mpr ?_)
  exact h.args.imp fun _ _ => row_literal_eq_iff.mpr

theorem not_isDeeper_head? {cs : List Call} (h : ∀ c ∈ cs, IsMacroName c.name.name) :
    ∀ l ∈ (cs.flatMap (callRows on depth)).head?, ¬ IsDeeper depth l := by
  cases cs with
  | nil => simp
  | cons c cs =>
    intro l hl
    obtain rfl : row on depth .cyan c.name.name = l := by simpa [callRows] using hl
    exact not_isDeeper_row (h c List.mem_cons_self).exists_head?_ne

/-- **The calls can be read off their lines**, as far as lines show them. -/
theorem forall₂_looksLike {cs ds : List Call} (hcs : ∀ c ∈ cs, IsMacroName c.name.name)
    (hds : ∀ c ∈ ds, IsMacroName c.name.name)
    (h : cs.flatMap (callRows on depth) = ds.flatMap (callRows on depth)) :
    List.Forall₂ Call.LooksLike cs ds := by
  induction cs generalizing ds with
  | nil =>
    cases ds with
    | nil => exact .nil
    | cons d ds => simp [callRows] at h
  | cons c cs ih =>
    cases ds with
    | nil => simp [callRows] at h
    | cons d ds =>
      have hcs' := (List.forall_mem_cons.mp hcs).2
      have hds' := (List.forall_mem_cons.mp hds).2
      rw [List.flatMap_cons, List.flatMap_cons, callRows, callRows, List.cons_append,
        List.cons_append] at h
      obtain ⟨hname, hrest⟩ := List.cons.inj h
      -- the arguments of the first call end where a line is no deeper than the name of a call
      have hdeeper : ∀ as : List Literal, ∀ l ∈ as.map fun a =>
          row on (depth + 1) .green (cut a.val).quoted, IsDeeper depth l := by
        intro as l hl
        obtain ⟨a, -, rfl⟩ := List.mem_map.mp hl
        exact isDeeper_row
      obtain ⟨hargs, hcalls⟩ := append_inj_of_head? (hdeeper _) (hdeeper _)
        (not_isDeeper_head? hcs') (not_isDeeper_head? hds') hrest
      refine .cons ⟨row_inj hname, ?_⟩ (ih hcs' hds' hcalls)
      exact (map_eq_map_iff_forall₂.mp hargs).imp fun _ _ => row_literal_eq_iff.mp

theorem flatMap_callRows_eq {cs ds : List Call} (h : List.Forall₂ Call.LooksLike cs ds) :
    cs.flatMap (callRows on depth) = ds.flatMap (callRows on depth) := by
  induction h with
  | nil => rfl
  | cons hcd _ ih => rw [List.flatMap_cons, List.flatMap_cons, callRows_eq_of_looksLike hcd, ih]

/-- A line feed could only come from a name. -/
theorem newline_not_mem_programRows_of_names {cs : List Call}
    (h : ∀ c ∈ cs, newline ∉ c.name.name) : ∀ l ∈ programRows on depth cs, newline ∉ l := by
  refine List.forall_mem_cons.mpr ⟨newline_not_mem_row (by decide), fun l hl => ?_⟩
  obtain ⟨c, hc, hl⟩ := List.mem_flatMap.mp hl
  rcases List.mem_cons.mp hl with rfl | hl
  · exact newline_not_mem_row (h c hc)
  · obtain ⟨a, -, rfl⟩ := List.mem_map.mp hl
    exact newline_not_mem_row (not_mem_quoted (by decide) _)

theorem newline_not_mem_programRows {cs : List Call} (h : ∀ c ∈ cs, IsMacroName c.name.name) :
    ∀ l ∈ programRows on depth cs, newline ∉ l :=
  newline_not_mem_programRows_of_names fun c hc => (h c hc).newline_not_mem

end Printer

/-- **Outlines tell programs apart** up to what they cut: a printer writes the same for two programs
without gaps just if these have as many calls, which look alike one by one. -/
theorem outlines_tell_apart (p : Printer) (t u : Program) (ht : none ∉ t.statementList)
    (hu : none ∉ u.statementList) (htnames : ∀ c ∈ t.calls, IsMacroName c.name.name)
    (hunames : ∀ c ∈ u.calls, IsMacroName c.name.name) :
    ∃ q r, p.program t = .ok q ∧ p.program u = .ok r ∧
      (q.output = r.output ↔ List.Forall₂ Call.LooksLike t.calls u.calls) := by
  refine ⟨_, _, p.program_eq ht, p.program_eq hu, fun h => ?_, fun h => ?_⟩
  · have hrows := ofLines_inj (Printer.newline_not_mem_programRows htnames)
      (Printer.newline_not_mem_programRows hunames) (List.append_cancel_left h)
    exact Printer.forall₂_looksLike htnames hunames (List.cons.inj hrows).2
  · rw [Printer.write, Printer.write, Printer.programRows, Printer.programRows,
      Printer.flatMap_callRows_eq h]

/-- Two literals of 81 and 83 bytes, which are cut inside a character and then look alike. -/
theorem outlines_tell_apart_cut :
    let call : Text → Call := fun tail => ⟨⟨⟨0, 4⟩, ascii "log!"⟩,
      some [⟨⟨5, 6⟩, [newline]⟩, ⟨⟨8, 91⟩, List.replicate 79 0x61 ++ 0xC3 :: tail⟩], ⟨0, 92⟩⟩
    let t : Program := ⟨some [some (call [0xA9])], ⟨0, 93⟩⟩
    let u : Program := ⟨some [some (call (ascii "..."))], ⟨0, 93⟩⟩
    let p : Printer := { color := true }
    (none ∉ t.statementList ∧ none ∉ u.statementList) ∧
      List.Forall₂ Call.LooksLike t.calls u.calls ∧
      ∃ q r, p.program t = .ok q ∧ p.program u = .ok r ∧ q.output = r.output := by
  intro call t u p
  have ht : none ∉ t.statementList := by decide
  have hu : none ∉ u.statementList := by decide
  have hname : IsMacroName (ascii "log!") :=
    ⟨ascii "log", by decide, List.all_eq_true.mp (by decide), by decide⟩
  have halike : List.Forall₂ Call.LooksLike t.calls u.calls :=
    .cons ⟨rfl, .cons (.inl rfl) (.cons (.inr ⟨by decide, by decide, by decide⟩) .nil)⟩ .nil
  obtain ⟨q, r, hq, hr, hiff⟩ := outlines_tell_apart p t u ht hu
    (List.forall_mem_singleton.mpr hname) (List.forall_mem_singleton.mpr hname)
  exact ⟨⟨ht, hu⟩, halike, q, r, hq, hr, hiff.mpr halike⟩

end MacroCalls
