import MacroCalls.Program.Decode
import MacroCalls.Program.Encode
import MacroCalls.Proofs.Json.Reading
import MacroCalls.Proofs.Spans

/-!
# Trees through JSON and back

A tree that is written as JSON and read again comes back as it was, except that its names and
values are repaired. Written texts are read as the value they were written from, repaired
(`Json.read?_write`); repairing the value of a tree is the same as repairing the tree; and the
value of a tree whose offsets have 64 bits decodes to that tree (`Json.toProgram_toJson`).

Main statement: `decode_write_repairs`.
-/

namespace MacroCalls

open Text

/-! ### Texts and spans of a tree -/

/-- Both ends have 64 bits. -/
def Span.Is64 (s : Span) : Prop :=
  (-0x8000000000000000 ≤ s.start ∧ s.start < 0x8000000000000000) ∧
    -0x8000000000000000 ≤ s.stop ∧ s.stop < 0x8000000000000000

instance (s : Span) : Decidable s.Is64 := inferInstanceAs (Decidable (_ ∧ _))

/-- The spans of a call and of its name and arguments. -/
def Call.spans (c : Call) : List Span := c.span :: c.leafSpans

/-- The spans of all nodes. -/
def Program.spans (p : Program) : List Span := p.span :: p.calls.flatMap Call.spans

/-- The name of a call and the values of its arguments. -/
def Call.texts (c : Call) : List Text := c.name.name :: c.argList.map Literal.val

/-- All names and values. -/
def Program.texts (p : Program) : List Text := p.calls.flatMap Call.texts

/-- The name with its text changed. -/
def Name.mapText (f : Text → Text) (n : Name) : Name := { n with name := f n.name }

/-- The literal with its value changed. -/
def Literal.mapText (f : Text → Text) (a : Literal) : Literal := { a with val := f a.val }

/-- The call with its name and values changed. -/
def Call.mapTexts (f : Text → Text) (c : Call) : Call :=
  { c with name := c.name.mapText f, args := c.args.map (List.map (Literal.mapText f)) }

/-- The program with all names and values changed, and nothing else. -/
def Program.mapTexts (f : Text → Text) (p : Program) : Program :=
  { p with statements := p.statements.map (List.map (Option.map (Call.mapTexts f))) }

theorem map_eq_self_iff {α : Type} {f : α → α} {l : List α} :
    l.map f = l ↔ ∀ a ∈ l, f a = a := by
  have h : l.map f = l.map id ↔ ∀ a ∈ l, f a = id a := List.map_eq_map_iff
  rwa [List.map_id] at h

theorem Call.mapTexts_eq_self_iff {f : Text → Text} {c : Call} :
    c.mapTexts f = c ↔ ∀ t ∈ c.texts, f t = t := by
  obtain ⟨⟨nspan, name⟩, args, span⟩ := c
  cases args with
  | none => simp [mapTexts, Name.mapText, texts, argList]
  | some args =>
    have hargs : args.map (Literal.mapText f) = args ↔ ∀ a ∈ args, f a.val = a.val := by
      rw [map_eq_self_iff]
      exact forall₂_congr fun a _ => ⟨congrArg Literal.val, fun h => by rw [Literal.mapText, h]⟩
    simp [mapTexts, Name.mapText, texts, argList, hargs]

theorem Program.mapTexts_eq_self_iff {f : Text → Text} {p : Program} :
    p.mapTexts f = p ↔ ∀ t ∈ p.texts, f t = t := by
  obtain ⟨statements, span⟩ := p
  cases statements with
  | none => simp [mapTexts, texts, calls, statementList]
  | some statements =>
    have hstatement : ∀ s : Option Call,
        s.map (Call.mapTexts f) = s ↔ ∀ c ∈ s, ∀ t ∈ c.texts, f t = t := by
      intro s
      cases s with
      | none => simp
      | some c => simp [Call.mapTexts_eq_self_iff]
    simp only [mapTexts, Option.map_some, mk.injEq, Option.some.injEq, and_true, map_eq_self_iff,
      hstatement, texts, calls, statementList, Option.getD_some, List.mem_flatMap,
      List.mem_filterMap, id_eq]
    constructor
    · rintro h t ⟨c, ⟨s, hs, hc⟩, ht⟩
      exact h s hs c hc t ht
    · intro h s hs c hc t ht
      exact h t ⟨c, ⟨s, hs, hc⟩, ht⟩

theorem Call.spans_mapTexts (f : Text → Text) (c : Call) : (c.mapTexts f).spans = c.spans := by
  obtain ⟨name, args, span⟩ := c
  cases args with
  | none => rfl
  | some args => simp [spans, leafSpans, mapTexts, argList, Name.mapText, Literal.mapText]

theorem Program.spans_mapTexts (f : Text → Text) (p : Program) :
    (p.mapTexts f).spans = p.spans := by
  obtain ⟨statements, span⟩ := p
  cases statements with
  | none => rfl
  | some statements =>
    have hcalls : (statements.map (Option.map (Call.mapTexts f))).filterMap id =
        (statements.filterMap id).map (Call.mapTexts f) := by
      rw [List.filterMap_map, List.map_filterMap]
      rfl
    simp only [spans, mapTexts, calls, statementList, Option.map_some, Option.getD_some, hcalls,
      List.flatMap_map, Call.spans_mapTexts]

/-! ### Numbers -/

/-- A small letter for a capital one. -/
def Text.lower (b : UInt8) : UInt8 := if 0x41 ≤ b ∧ b ≤ 0x5A then b + 0x20 else b

theorem Text.folded_of_ascii {t : Text} (h : t.isAscii = true) : t.folded = t.map lower := by
  have hbyte : ∀ n < 0x80, Glyph.encode (caseless (Char.ofNat (UInt8.ofNat n).toNat)) =
      [lower (UInt8.ofNat n)] := by
    decide +kernel
  induction t with
  | nil => rw [folded, glyphs_nil, List.flatMap_nil, List.map_nil]
  | cons b t ih =>
    obtain ⟨hb, ht⟩ := isAscii_cons.mp h
    have hlower := hbyte b.toNat (UInt8.lt_iff_toNat_lt.mp hb)
    rw [UInt8.ofNat_toNat] at hlower
    have hrest := ih ht
    rw [folded] at hrest ⊢
    rw [glyphs_cons_ascii hb, List.flatMap_cons, Glyph.char, hlower, hrest, List.singleton_append,
      List.map_cons]

namespace Json

theorem natOfDigits_decimal (n : Nat) : natOfDigits (decimal n) = n := by
  induction n using decimal_induction with
  | digit n h =>
    rw [decimal_of_lt h, natOfDigits, List.foldl_cons, List.foldl_nil,
      Glyph.toNat_toUInt8 (by omega)]
    omega
  | more n h ih =>
    rw [natOfDigits] at ih
    rw [decimal_of_le h, natOfDigits, List.foldl_append, ih, List.foldl_cons, List.foldl_nil,
      Glyph.toNat_toUInt8 (by omega)]
    omega

theorem offset?_integer {n : Int} (h : -0x8000000000000000 ≤ n)
    (h' : n < 0x8000000000000000) : offset? (integer n) = some n := by
  have hdigits : (decimal n.natAbs).all isDigit := by
    simpa using isDigit_of_mem_decimal n.natAbs
  have hminus : (decimal n.natAbs).head? ≠ some 0x2D := by
    intro hhead
    have hdigit := isDigit_of_mem_decimal n.natAbs 0x2D (List.mem_of_mem_head? hhead)
    cases hdigit
  rw [integer]
  split
  · simp only [offset?, List.head?_cons, List.tail_cons, if_true, natOfDigits_decimal, hdigits]
    rw [if_pos ⟨trivial, by omega, by omega⟩]
    congr 1
    omega
  · simp only [offset?, hminus, if_false, natOfDigits_decimal, hdigits]
    rw [if_pos ⟨trivial, by omega, by omega⟩]
    congr 1
    omega

/-! ### Decoding nodes -/

theorem updateObject_cons {α : Type} {fields : List (Text × Update α)} {a a' : α} {k : Text}
    {j : Json} {members : List (Text × Json)} {u : Update α} (hk : k.isAscii = true)
    (h : fields.lookup (k.map lower) = some u) (hu : u a j = .ok a') :
    updateObject fields a (object ((k, j) :: members)) =
      updateObject fields a' (object members) := by
  rw [← folded_of_ascii hk] at h
  simp only [updateObject_object, List.foldlM_cons, updateMember, h, hu]
  rfl

theorem updateSpan_toJson {s : Span} (h : s.Is64) (s' : Span) :
    updateSpan s' s.toJson = .ok s := by
  obtain ⟨⟨hlo, hlo'⟩, hhi, hhi'⟩ := h
  have hstart : ∀ n, updateOffset n (.number (integer s.start)) = .ok s.start := fun n => by
    rw [updateOffset, offset?_integer hlo hlo']
  have hstop : ∀ n, updateOffset n (.number (integer s.stop)) = .ok s.stop := fun n => by
    rw [updateOffset, offset?_integer hhi hhi']
  rw [updateSpan, Span.toJson,
    updateObject_cons (by decide) rfl (by rw [hstart]; rfl),
    updateObject_cons (by decide) rfl (by rw [hstop]; rfl)]
  rfl

theorem untagged_tagged (type : NodeType) (members : List (Text × Json)) :
    (type.tagged members).untagged type = .ok (object members) := by
  have hwrapper : wrapper (type.tagged members) = .ok ⟨type.tag, some (object members)⟩ := by
    rw [wrapper, NodeType.tagged,
      updateObject_cons (by decide) rfl (by rw [updateText]; rfl),
      updateObject_cons (by decide) rfl rfl]
    rfl
  simp only [untagged, hwrapper, bind, Except.bind, if_true]
  rfl

theorem toName_toJson {n : Name} (h : n.span.Is64) : toName n.toJson = .ok n := by
  rw [toName, Name.toJson, untagged_tagged]
  simp only [bind, Except.bind]
  rw [updateObject_cons (by decide) rfl (by rw [updateSpan_toJson h]; rfl),
    updateObject_cons (by decide) rfl (by rw [updateText]; rfl)]
  rfl

theorem toLiteral_toJson {a : Literal} (h : a.span.Is64) : toLiteral a.toJson = .ok a := by
  rw [toLiteral, Literal.toJson, untagged_tagged]
  simp only [bind, Except.bind]
  rw [updateObject_cons (by decide) rfl (by rw [updateSpan_toJson h]; rfl),
    updateObject_cons (by decide) rfl (by rw [updateText]; rfl)]
  rfl

theorem list?_ofList? {α : Type} {f : α → Json} {item : Json → Except DecodeError α}
    {l : Option (List α)} (h : ∀ a ∈ l.getD [], item (f a) = .ok a) :
    list? item (ofList? f l) = .ok l := by
  cases l with
  | none => rfl
  | some l =>
    have hitems : (l.map f).mapM item = .ok l := by
      induction l with
      | nil => rfl
      | cons a l ih =>
        rw [List.map_cons, List.mapM_cons, h a List.mem_cons_self,
          ih fun b hb => h b (List.mem_cons_of_mem a hb)]
        rfl
    rw [ofList?, list?_array, hitems]
    rfl

theorem toCall_toJson {c : Call} (h : ∀ s ∈ c.spans, s.Is64) : toCall c.toJson = .ok c := by
  have hname : c.name.span.Is64 := h _ (.tail _ (.head _))
  have hargs : list? toLiteral (ofList? Literal.toJson c.args) = .ok c.args :=
    list?_ofList? fun a ha =>
      toLiteral_toJson (h _ (.tail _ (.tail _ (List.mem_map_of_mem ha))))
  rw [toCall, Call.toJson, untagged_tagged]
  simp only [bind, Except.bind]
  rw [updateObject_cons (by decide) rfl (by rw [toName_toJson hname]; rfl),
    updateObject_cons (by decide) rfl (by rw [hargs]; rfl),
    updateObject_cons (by decide) rfl (by rw [updateSpan_toJson (h _ List.mem_cons_self)]; rfl)]
  rfl

theorem toStatement_ofStatement {s : Option Call} (h : ∀ c ∈ s, ∀ t ∈ c.spans, t.Is64) :
    toStatement (ofStatement s) = .ok s := by
  cases s with
  | none => rfl
  | some c =>
    have hobject : toStatement c.toJson = c.toJson.toCall.map some := rfl
    rw [ofStatement, hobject, toCall_toJson (h c rfl)]
    rfl

/-- **The value of a tree decodes to the tree.** -/
theorem toProgram_toJson {p : Program} (h : ∀ s ∈ p.spans, s.Is64) :
    toProgram p.toJson = .ok p := by
  have hcall : ∀ s ∈ p.statementList, ∀ c ∈ s, ∀ t ∈ c.spans, t.Is64 := by
    intro s hs c hc t ht
    have hmem : c ∈ p.calls := List.mem_filterMap.mpr ⟨s, hs, hc⟩
    exact h t (List.mem_cons_of_mem _ (List.mem_flatMap.mpr ⟨c, hmem, ht⟩))
  have hstatements : list? toStatement (ofList? ofStatement p.statements) = .ok p.statements :=
    list?_ofList? fun s hs => toStatement_ofStatement (hcall s hs)
  rw [toProgram, Program.toJson, untagged_tagged]
  simp only [bind, Except.bind]
  rw [updateObject_cons (by decide) rfl (by rw [hstatements]; rfl),
    updateObject_cons (by decide) rfl (by rw [updateSpan_toJson (h _ List.mem_cons_self)]; rfl)]
  rfl

/-! ### Repairing the value of a tree -/

theorem repaired_tagged (type : NodeType) (members : List (Text × Json)) :
    (type.tagged members).repaired = type.tagged (repairedMembers members) := by
  have htag : type.tag.repaired = type.tag := by
    cases type <;> exact repaired_of_ascii (by decide)
  simp (disch := decide) only [NodeType.tagged, repaired, repairedMembers, repaired_of_ascii, htag]

theorem repaired_span (s : Span) : s.toJson.repaired = s.toJson := by
  simp (disch := decide) only [Span.toJson, repaired, repairedMembers, repaired_of_ascii]

theorem repaired_name (n : Name) : n.toJson.repaired = (n.mapText Text.repaired).toJson := by
  simp (disch := decide) only [Name.toJson, Name.mapText, repaired_tagged, repairedMembers,
    repaired_span, repaired, repaired_of_ascii]

theorem repaired_literal (a : Literal) :
    a.toJson.repaired = (a.mapText Text.repaired).toJson := by
  simp (disch := decide) only [Literal.toJson, Literal.mapText, repaired_tagged, repairedMembers,
    repaired_span, repaired, repaired_of_ascii]

theorem repaired_ofList? {α : Type} {f : α → Json} {g : α → α}
    (h : ∀ a, (f a).repaired = f (g a)) (l : Option (List α)) :
    (ofList? f l).repaired = ofList? f (l.map (List.map g)) := by
  cases l with
  | none => rfl
  | some l =>
    rw [ofList?, repaired, Option.map_some, ofList?, array.injEq]
    induction l with
    | nil => rfl
    | cons a l ih => rw [List.map_cons, repairedItems, h, ih, List.map_cons, List.map_cons]

theorem repaired_call (c : Call) : c.toJson.repaired = (c.mapTexts Text.repaired).toJson := by
  simp (disch := decide) only [Call.toJson, Call.mapTexts, repaired_tagged, repairedMembers,
    repaired_span, repaired_name, repaired_ofList? repaired_literal, repaired_of_ascii]

theorem repaired_statement (s : Option Call) :
    (ofStatement s).repaired = ofStatement (s.map (Call.mapTexts Text.repaired)) := by
  cases s with
  | none => rfl
  | some c => exact repaired_call c

/-- **Repairing the value of a tree** is repairing its names and values. -/
theorem repaired_program (p : Program) :
    p.toJson.repaired = (p.mapTexts Text.repaired).toJson := by
  simp (disch := decide) only [Program.toJson, Program.mapTexts, repaired_tagged, repairedMembers,
    repaired_span, repaired_ofList? repaired_statement, repaired_of_ascii]

/-! ### Nesting of the value of a tree -/

theorem plain_tagged (type : NodeType) {n : Nat} {members : List (Text × Json)}
    (h : PlainMembers n members) : (type.tagged members).Plain (n + 2) :=
  ⟨Nat.succ_pos _, trivial, ⟨Nat.succ_pos _, h⟩, trivial⟩

theorem plain_span (s : Span) (n : Nat) : s.toJson.Plain (n + 1) :=
  ⟨Nat.succ_pos _, ⟨_, rfl⟩, ⟨_, rfl⟩, trivial⟩

theorem plain_ofList? {α : Type} {f : α → Json} {n : Nat} (h : ∀ a, (f a).Plain n)
    (l : Option (List α)) : (ofList? f l).Plain (n + 1) := by
  cases l with
  | none => trivial
  | some l =>
    refine ⟨Nat.succ_pos _, ?_⟩
    induction l with
    | nil => trivial
    | cons a l ih => exact ⟨h a, ih⟩

theorem plain_name (a : Name) (n : Nat) : a.toJson.Plain (n + 3) :=
  plain_tagged _ ⟨plain_span _ _, trivial, trivial⟩

theorem plain_literal (a : Literal) (n : Nat) : a.toJson.Plain (n + 3) :=
  plain_tagged _ ⟨plain_span _ _, trivial, trivial⟩

theorem plain_statement (s : Option Call) (n : Nat) : (ofStatement s).Plain (n + 6) := by
  cases s with
  | none => trivial
  | some c =>
    exact plain_tagged _ ⟨plain_name c.name (n + 1),
      plain_ofList? (fun a => plain_literal a n) c.args, plain_span c.span (n + 3), trivial⟩

/-- A tree is nested nine deep. -/
theorem plain_program (p : Program) (n : Nat) : p.toJson.Plain (n + 9) :=
  plain_tagged _ ⟨plain_ofList? (fun s => plain_statement s n) p.statements,
    plain_span p.span (n + 6), trivial⟩

/-! ### Through JSON and back -/

/-- **Written trees are read back** with their names and values repaired, however blanks are laid
out. -/
theorem decode_write {l : Layout} (hl : l.IsBlank) {p : Program} (h : ∀ s ∈ p.spans, s.Is64) :
    decode toProgram (write l 0 p.toJson) = .ok (p.mapTexts Text.repaired) := by
  rw [← Program.spans_mapTexts Text.repaired] at h
  rw [decode, read?_write hl (plain_program p 9991), repaired_program]
  exact toProgram_toJson h

/-- **Decoding undoes encoding** up to the bytes that are not part of UTF-8: each of these comes
back as a replacement character, and nothing else changes. The tree itself comes back just when
there is no such byte. -/
theorem decode_write_repairs (p : Program) (h : ∀ s ∈ p.spans, s.Is64) :
    decode toProgram (write .compact 0 p.toJson) = .ok (p.mapTexts Text.repaired) ∧
      (∀ t ∈ p.texts, t.Repair t.repaired) ∧
      (decode toProgram (write .compact 0 p.toJson) = .ok p ↔ ∀ t ∈ p.texts, t.IsUtf8) := by
  have hdecode := decode_write Layout.isBlank_compact h
  refine ⟨hdecode, fun t _ => repair_iff.mpr rfl, ?_⟩
  rw [hdecode, Except.ok.injEq, Program.mapTexts_eq_self_iff]
  exact forall₂_congr fun t _ => repaired_eq_self_iff

/-- A gap, a missing and an empty list and the ends of the range come back; a stray byte is
repaired. -/
theorem decode_write_repairs_stray :
    let tree := fun val : Text =>
      ({ statements := some
          [none, some { name := ⟨⟨1, -1⟩, ascii "a!"⟩ }, some { args := some [] },
            some { args := some [⟨⟨0, 3⟩, val⟩] }],
         span := ⟨-0x8000000000000000, 0x7FFFFFFFFFFFFFFF⟩ } : Program)
    (∀ s ∈ (tree [0x41, 0xFF]).spans, s.Is64) ∧
      decode toProgram (write .compact 0 (tree [0x41, 0xFF]).toJson) =
        .ok (tree [0x41, 0xEF, 0xBF, 0xBD]) := by
  intro tree
  have h : ∀ s ∈ (tree [0x41, 0xFF]).spans, s.Is64 := by decide
  have hrepaired : (tree [0x41, 0xFF]).mapTexts Text.repaired = tree [0x41, 0xEF, 0xBF, 0xBD] := by
    decide +kernel
  exact ⟨h, hrepaired ▸ (decode_write_repairs _ h).1⟩

end Json

end MacroCalls
