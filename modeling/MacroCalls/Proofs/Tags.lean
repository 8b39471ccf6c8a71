import MacroCalls.Proofs.Json.Parts
import MacroCalls.Proofs.RoundTrip

/-!
# Wrong types are refused at every depth

A node checks its own type, and it hands on the error of a node inside it, since whatever comes
before that one is decoded without an error (`Refuses.of_child`). So a type that is replaced
anywhere in the value of a tree is refused from the root on, by induction on the address of its
node (`Node.refuses_tag_place`).

Main statement: `wrong_tag_refused`.
-/

namespace MacroCalls

open Text

namespace Json

/-! ### Errors are handed on -/

theorem updateObject_error {α : Type} {fields : List (Text × Update α)} {a : α} {k : Text}
    {j : Json} {members : List (Text × Json)} {u : Update α} {e : DecodeError}
    (hk : k.isAscii = true) (h : fields.lookup (k.map lower) = some u) (hu : u a j = .error e) :
    updateObject fields a (object ((k, j) :: members)) = .error e := by
  rw [← folded_of_ascii hk] at h
  simp only [updateObject_object, List.foldlM_cons, updateMember, h, hu]
  rfl

theorem untagged_put_tag {type : NodeType} {tag : Text} (h : tag ≠ type.tag)
    (members : List (Text × Json)) :
    ((type.tagged members).put [0] (string tag)).untagged type =
      .error (.wrongType type tag) := by
  have hput : (type.tagged members).put [0] (string tag) =
      object [(ascii "Type", string tag), (ascii "Node", object members)] := rfl
  have hwrapper : wrapper ((type.tagged members).put [0] (string tag)) =
      .ok ⟨tag, some (object members)⟩ := by
    rw [hput, wrapper, updateObject_cons (by decide) rfl (by rw [updateText]; rfl),
      updateObject_cons (by decide) rfl rfl]
    rfl
  simp only [untagged, hwrapper, bind, Except.bind, if_neg h]
  rfl

/-- An item that is refused is reached if those before it are not. -/
theorem list?_set_error {α : Type} {f : α → Json} {item : Json → Except DecodeError α}
    {l : List α} (h : ∀ a ∈ l, item (f a) = .ok a) {i : Nat} (hi : i < l.length) {j : Json}
    {e : DecodeError} (hj : item j = .error e) :
    list? item (array ((l.map f).set i j)) = .error e := by
  have hitems : ((l.map f).set i j).mapM item = .error e := by
    induction l generalizing i with
    | nil => simp at hi
    | cons a l ih =>
      obtain ⟨ha, hl⟩ := List.forall_mem_cons.mp h
      cases i with
      | zero =>
        rw [List.map_cons, List.set_cons_zero, List.mapM_cons, hj]
        rfl
      | succ i =>
        rw [List.map_cons, List.set_cons_succ, List.mapM_cons, ha,
          ih hl (Nat.lt_of_succ_lt_succ hi)]
        rfl
  rw [list?_array, hitems]
  rfl

section Decoders

variable {j : Json} {rest : List (Text × Json)} {e : DecodeError}

theorem toProgram_statements_error (h : list? toStatement j = .error e) :
    toProgram (NodeType.program.tagged ((ascii "Statements", j) :: rest)) = .error e := by
  rw [toProgram, untagged_tagged]
  exact updateObject_error (by decide) rfl (by rw [h]; rfl)

theorem toCall_name_error (h : toName j = .error e) :
    toCall (NodeType.call.tagged ((ascii "Name", j) :: rest)) = .error e := by
  rw [toCall, untagged_tagged]
  exact updateObject_error (by decide) rfl (by rw [h]; rfl)

theorem toCall_args_error {n : Name} (hn : n.span.Is64) (h : list? toLiteral j = .error e) :
    toCall (NodeType.call.tagged ((ascii "Name", n.toJson) :: (ascii "Args", j) :: rest)) =
      .error e := by
  rw [toCall, untagged_tagged]
  simp only [bind, Except.bind]
  rw [updateObject_cons (by decide) rfl (by rw [toName_toJson hn]; rfl)]
  exact updateObject_error (by decide) rfl (by rw [h]; rfl)

theorem toStatement_error {type : NodeType} {members : List (Text × Json)}
    (h : toCall (type.tagged members) = .error e) :
    toStatement (type.tagged members) = .error e := by
  have hobject : toStatement (type.tagged members) = (toCall (type.tagged members)).map some := rfl
  rw [hobject, h]
  rfl

end Decoders

end Json

/-! ### Nodes and their values -/

namespace Node

/-- The type of a node, unless it is a gap or not part of a tree. -/
def type? : Node → Option NodeType
  | program _ => some .program
  | call (some _) => some .call
  | name _ => some .name
  | literal _ => some .literal
  | _ => none

/-- The value of a node of a tree, or `null` where there is none. -/
def toJson : Node → Json
  | program p => p.toJson
  | call c => .ofStatement c
  | name n => n.toJson
  | literal a => a.toJson
  | _ => .null

/-- Where the value of the `i`-th child stands in the value of a node. The first member of a node is
its type and the second one its contents, in which the name or the list of statements comes first
and the list of arguments second. -/
def childPlace : Node → Nat → Address
  | program _, i => [1, 0, i]
  | call _, 0 => [1, 0]
  | call _, i + 1 => [1, 1, i]
  | _, _ => []

/-- Where the value of the node at an address stands in the value of a node. -/
def place : Node → Address → Address
  | _, [] => []
  | n, i :: a => n.childPlace i ++ n.children[i]?.elim [] (·.place a)

/-- All spans have 64 bits. -/
def Is64 : Node → Prop
  | program p => ∀ s ∈ p.spans, s.Is64
  | call c => ∀ d ∈ c, ∀ s ∈ d.spans, s.Is64
  | name n => n.span.Is64
  | literal a => a.span.Is64
  | _ => True

/-- A value is refused where a node like this one is wanted. -/
def Refuses (n : Node) (j : Json) (e : DecodeError) : Prop :=
  match n with
  | program _ => j.toProgram = .error e
  | call _ => j.toStatement = .error e
  | name _ => j.toName = .error e
  | literal _ => j.toLiteral = .error e
  | _ => False

theorem place_cons {n m : Node} {i : Nat} (h : n.children[i]? = some m) (a : Address) :
    n.place (i :: a) = n.childPlace i ++ m.place a := by
  rw [place, h]
  rfl

section Child

variable {n m : Node} {i : Nat}

/-- A child is a statement of a program, or the name or an argument of a call. -/
theorem child_cases (h : n.children[i]? = some m) :
    (∃ p ss s, n = program p ∧ p.statements = some ss ∧ ss[i]? = some s ∧ m = call s) ∨
      (∃ c, n = call (some c) ∧ i = 0 ∧ m = name c.name) ∨
      ∃ c as k a, n = call (some c) ∧ c.args = some as ∧ i = k + 1 ∧ as[k]? = some a ∧
        m = literal a := by
  unfold children at h
  split at h
  · rename_i p
    rw [Program.statementList, List.getElem?_map] at h
    obtain ⟨s, hs, rfl⟩ := Option.map_eq_some_iff.mp h
    cases hp : p.statements with
    | none => simp [hp] at hs
    | some ss => exact .inl ⟨p, ss, s, rfl, hp, by simpa [hp] using hs, rfl⟩
  · rename_i c
    cases i with
    | zero => exact .inr (.inl ⟨c, rfl, rfl, (Option.some.inj h).symm⟩)
    | succ k =>
      rw [List.getElem?_cons_succ, Call.argList, List.getElem?_map] at h
      obtain ⟨a, ha, rfl⟩ := Option.map_eq_some_iff.mp h
      cases hc : c.args with
      | none => simp [hc] at ha
      | some as => exact .inr (.inr ⟨c, as, k, a, rfl, hc, rfl, by simpa [hc] using ha, rfl⟩)
  · cases h

theorem part?_childPlace (h : n.children[i]? = some m) :
    n.toJson.part? (n.childPlace i) = some m.toJson := by
  rcases child_cases h with ⟨p, ss, s, rfl, hp, hs, rfl⟩ | ⟨c, rfl, rfl, rfl⟩ |
    ⟨c, as, k, a, rfl, hc, rfl, ha, rfl⟩
  · simp [toJson, childPlace, Program.toJson, NodeType.tagged, Json.part?, Json.inner, hp,
      Json.ofList?, hs]
  · rfl
  · simp [toJson, childPlace, Json.ofStatement, Call.toJson, NodeType.tagged, Json.part?,
      Json.inner, hc, Json.ofList?, ha]

theorem Is64.child (hn : n.Is64) (h : m ∈ n.children) : m.Is64 := by
  obtain ⟨i, h⟩ := List.mem_iff_getElem?.mp h
  rcases child_cases h with ⟨p, ss, s, rfl, hp, hs, rfl⟩ | ⟨c, rfl, -, rfl⟩ |
    ⟨c, as, k, a, rfl, hc, -, ha, rfl⟩
  · rintro c rfl t ht
    have hmem : some c ∈ p.statementList := by
      rw [Program.statementList, hp]
      exact List.mem_of_getElem? hs
    exact hn t (List.mem_cons_of_mem _
      (List.mem_flatMap.mpr ⟨c, List.mem_filterMap.mpr ⟨_, hmem, rfl⟩, ht⟩))
  · exact hn c rfl _ (.tail _ (.head _))
  · have hmem : a ∈ c.argList := by
      rw [Call.argList, hc]
      exact List.mem_of_getElem? ha
    exact hn c rfl _ (.tail _ (.tail _ (List.mem_map_of_mem hmem)))

/-- **A node hands on the error** of a node inside it: what comes before that one is decoded. -/
theorem Refuses.of_child {j : Json} {e : DecodeError} (hn : n.Is64)
    (h : n.children[i]? = some m) (hj : m.Refuses j e) :
    n.Refuses (n.toJson.put (n.childPlace i) j) e := by
  have hchild : ∀ c ∈ n.children, c.Is64 := fun c hc => hn.child hc
  rcases child_cases h with ⟨p, ss, s, rfl, hp, hs, rfl⟩ | ⟨c, rfl, rfl, rfl⟩ |
    ⟨c, as, k, a, rfl, hc, rfl, ha, rfl⟩
  · obtain ⟨hi, -⟩ := List.getElem?_eq_some_iff.mp hs
    have hss : ∀ s ∈ ss, Json.toStatement (Json.ofStatement s) = .ok s := by
      rw [children, Program.statementList, hp, List.forall_mem_map] at hchild
      exact fun s hs => Json.toStatement_ofStatement (hchild s hs)
    have hput : p.toJson.put [1, 0, i] j = NodeType.program.tagged
        [(ascii "Statements", .array ((ss.map Json.ofStatement).set i j)),
          (ascii "Span", p.span.toJson)] := by
      rw [Program.toJson, hp]
      rfl
    show Json.toProgram (p.toJson.put [1, 0, i] j) = .error e
    rw [hput]
    exact Json.toProgram_statements_error (Json.list?_set_error hss hi hj)
  · exact Json.toStatement_error (Json.toCall_name_error hj)
  · obtain ⟨hk, -⟩ := List.getElem?_eq_some_iff.mp ha
    rw [children, Call.argList, hc, List.forall_mem_cons, List.forall_mem_map] at hchild
    have has : ∀ a ∈ as, Json.toLiteral a.toJson = .ok a := fun a ha =>
      Json.toLiteral_toJson (hchild.2 a ha)
    have hput : c.toJson.put [1, 1, k] j = NodeType.call.tagged
        [(ascii "Name", c.name.toJson), (ascii "Args", .array ((as.map Literal.toJson).set k j)),
          (ascii "Span", c.span.toJson)] := by
      rw [Call.toJson, hc]
      rfl
    show Json.toStatement (c.toJson.put [1, 1, k] j) = .error e
    rw [hput]
    exact Json.toStatement_error
      (Json.toCall_args_error hchild.1 (Json.list?_set_error has hk hj))

end Child

/-- **A node checks its own type.** -/
theorem refuses_tag {n : Node} {type : NodeType} (h : n.type? = some type) {tag : Text}
    (hne : tag ≠ type.tag) : n.Refuses (n.toJson.put [0] (.string tag)) (.wrongType type tag) := by
  rcases n with p | (_ | c) | n | a | _ | _ <;> cases h
  · show Json.toProgram (p.toJson.put [0] (.string tag)) = _
    rw [Json.toProgram, Program.toJson, Json.untagged_put_tag hne]
    rfl
  · show (Json.toCall (c.toJson.put [0] (.string tag))).map some = _
    rw [Json.toCall, Call.toJson, Json.untagged_put_tag hne]
    rfl
  · show Json.toName (n.toJson.put [0] (.string tag)) = _
    rw [Json.toName, Name.toJson, Json.untagged_put_tag hne]
    rfl
  · show Json.toLiteral (a.toJson.put [0] (.string tag)) = _
    rw [Json.toLiteral, Literal.toJson, Json.untagged_put_tag hne]
    rfl

theorem part?_place {n m : Node} {a : Address} (h : n.descendant? a = some m) :
    n.toJson.part? (n.place a) = some m.toJson := by
  induction a generalizing n with
  | nil =>
    cases h
    rfl
  | cons i a ih =>
    obtain ⟨c, hc, h⟩ := Option.bind_eq_some_iff.mp h
    rw [place_cons hc, Json.part?_append, part?_childPlace hc]
    exact ih h

theorem part?_tag {n : Node} {type : NodeType} (h : n.type? = some type) :
    n.toJson.part? [0] = some (.string type.tag) := by
  rcases n with _ | (_ | _) | _ | _ | _ | _ <;> cases h <;> rfl

theorem part?_tag_place {n m : Node} {a : Address} (h : n.descendant? a = some m)
    {type : NodeType} (htype : m.type? = some type) :
    n.toJson.part? (n.place a ++ [0]) = some (.string type.tag) := by
  rw [Json.part?_append, part?_place h]
  exact part?_tag htype

/-- **A wrong type is refused** from the root on. -/
theorem refuses_tag_place {n m : Node} {a : Address} (h : n.descendant? a = some m) (hn : n.Is64)
    {type : NodeType} (htype : m.type? = some type) {tag : Text} (hne : tag ≠ type.tag) :
    n.Refuses (n.toJson.put (n.place a ++ [0]) (.string tag)) (.wrongType type tag) := by
  induction a generalizing n with
  | nil =>
    cases h
    exact refuses_tag htype hne
  | cons i a ih =>
    obtain ⟨c, hc, h⟩ := Option.bind_eq_some_iff.mp h
    rw [place_cons hc, List.append_assoc, Json.put_append (part?_childPlace hc)]
    exact .of_child hn hc (ih h (hn.child (List.mem_of_getElem? hc)))

/-! ### Texts do not matter -/

/-- The node with all names and values changed. -/
def mapTexts (f : Text → Text) : Node → Node
  | program p => program (p.mapTexts f)
  | call c => call (c.map (Call.mapTexts f))
  | name n => name (n.mapText f)
  | literal a => literal (a.mapText f)
  | n => n

theorem children_mapTexts (f : Text → Text) (n : Node) :
    (n.mapTexts f).children = n.children.map (mapTexts f) := by
  rcases n with ⟨_ | ss, span⟩ | (_ | ⟨name, _ | as, span⟩) | _ | _ | _ | _
  all_goals
    simp [mapTexts, children, Program.mapTexts, Program.statementList, Call.mapTexts, Call.argList]

theorem type?_mapTexts (f : Text → Text) (n : Node) : (n.mapTexts f).type? = n.type? := by
  rcases n with _ | (_ | _) | _ | _ | _ | _ <;> rfl

theorem childPlace_mapTexts (f : Text → Text) (n : Node) (i : Nat) :
    (n.mapTexts f).childPlace i = n.childPlace i := by
  cases n <;> cases i <;> rfl

theorem descendant?_mapTexts (f : Text → Text) (n : Node) (a : Address) :
    (n.mapTexts f).descendant? a = (n.descendant? a).map (mapTexts f) := by
  induction a generalizing n with
  | nil => rfl
  | cons i a ih =>
    rw [descendant?, descendant?, children_mapTexts, List.getElem?_map]
    cases n.children[i]? with
    | none => rfl
    | some c => exact ih c

theorem place_mapTexts (f : Text → Text) (n : Node) (a : Address) :
    (n.mapTexts f).place a = n.place a := by
  induction a generalizing n with
  | nil => rfl
  | cons i a ih =>
    rw [place, place, childPlace_mapTexts, children_mapTexts, List.getElem?_map]
    cases n.children[i]? with
    | none => rfl
    | some c => exact congrArg _ (ih c)

end Node

/-- A tree with a wrong type in its value is not decoded. -/
theorem decode_put_tag {p : Program} (hp : ∀ s ∈ p.spans, s.Is64) {a : Address} {n : Node}
    (hn : (Node.program p).descendant? a = some n) {type : NodeType}
    (htype : n.type? = some type) {tag : Text} (htag : tag.IsUtf8) (hne : tag ≠ type.tag) :
    Json.decode Json.toProgram
        (Json.write .compact 0 (p.toJson.put ((Node.program p).place a ++ [0]) (.string tag))) =
      .error (.wrongType type tag) := by
  -- what is read is the value of the tree with its texts repaired, where nodes have their places
  have hdescendant : (Node.program (p.mapTexts repaired)).descendant? a =
      some (n.mapTexts repaired) := by
    have hmap := Node.descendant?_mapTexts repaired (.program p) a
    rwa [hn] at hmap
  have hplace : (Node.program (p.mapTexts repaired)).place a = (Node.program p).place a :=
    Node.place_mapTexts repaired (.program p) a
  have h64 : (Node.program (p.mapTexts repaired)).Is64 := by
    show ∀ s ∈ (p.mapTexts repaired).spans, s.Is64
    rwa [Program.spans_mapTexts]
  have htype' : (n.mapTexts repaired).type? = some type := by rwa [Node.type?_mapTexts]
  have hrefuses := Node.refuses_tag_place hdescendant h64 htype' hne
  rw [hplace] at hrefuses
  have hpart : p.toJson.part? ((Node.program p).place a ++ [0]) = some (.string type.tag) :=
    Node.part?_tag_place hn htype
  have hplain := Json.plain_put hpart (Json.plain_program p 9991) tag
  rw [Json.decode, Json.read?_write Json.Layout.isBlank_compact hplain, Json.repaired_put,
    Json.repaired_program, Json.repaired, repaired_eq_self_iff.mpr htag]
  exact hrefuses

/-- **A wrong type is refused at every depth.** In the text of a tree, the type of any of its nodes
has its place, and another text there, whatever it is, makes decoding fail with the error that says
which type was wanted and what was found. -/
theorem wrong_tag_refused (p : Program) (hp : ∀ s ∈ p.spans, s.Is64) (a : Address) (n : Node)
    (hn : (Node.program p).descendant? a = some n) (type : NodeType)
    (htype : n.type? = some type) (tag : Text) (htag : tag.IsUtf8) (hne : tag ≠ type.tag) :
    let place := (Node.program p).place a
    (p.toJson.part? place = some n.toJson ∧
        p.toJson.part? (place ++ [0]) = some (.string type.tag)) ∧
      ∃ before after,
        (∀ t, Json.write .compact 0 (p.toJson.put (place ++ [0]) (.string t)) =
            before ++ Json.stringText t ++ after) ∧
          Json.write .compact 0 p.toJson = before ++ Json.stringText type.tag ++ after ∧
          Json.decode Json.toProgram (before ++ Json.stringText tag ++ after) =
            .error (.wrongType type tag) ∧
          (DecodeError.wrongType type tag).message? =
            some (ascii "expected " ++ type.tag ++ ascii " node, got " ++ tag.quoted) := by
  intro place
  have htagPart := Node.part?_tag_place hn htype
  obtain ⟨before, after, hwrite⟩ := Json.exists_write_put htagPart .compact 0
  have htext : ∀ t, Json.write .compact 0 (p.toJson.put (place ++ [0]) (.string t)) =
      before ++ Json.stringText t ++ after := fun t => hwrite (.string t)
  refine ⟨⟨Node.part?_place hn, htagPart⟩, before, after, htext, ?_, ?_, rfl⟩
  · rw [← htext]
    exact congrArg _ (Json.put_self htagPart).symm
  · rw [← htext]
    exact decode_put_tag hp hn htype htag hne

/-- The second argument of the second statement behind a gap, with the type of a name and with a
text that has to be escaped. -/
theorem wrong_tag_refused_second_argument :
    let argument : Literal := ⟨⟨5, 8⟩, [0x41, 0xFF]⟩
    let p : Program := ⟨some [none, some ⟨⟨⟨0, 4⟩, ascii "log!"⟩,
      some [⟨⟨1, 2⟩, ascii "StrLit"⟩, argument], ⟨0, 9⟩⟩], ⟨0, 10⟩⟩
    (Node.program p).descendant? [1, 2] = some (.literal argument) ∧
      ∀ tag ∈ [ascii "Name", ascii "\"\n"], ∃ before after,
        Json.write .compact 0 p.toJson = before ++ Json.stringText (ascii "StrLit") ++ after ∧
          Json.decode Json.toProgram (before ++ Json.stringText tag ++ after) =
            .error (.wrongType .literal tag) := by
  intro argument p
  refine ⟨rfl, fun tag htag => ?_⟩
  have htag' : tag.IsUtf8 ∧ tag ≠ NodeType.literal.tag := by
    simp only [List.mem_cons, List.not_mem_nil, or_false] at htag
    rcases htag with rfl | rfl
    · exact ⟨repaired_eq_self_iff.mp (repaired_of_ascii (by decide)), by decide⟩
    · exact ⟨repaired_eq_self_iff.mp (repaired_of_ascii (by decide)), by decide⟩
  obtain ⟨-, before, after, -, hwrite, hdecode, -⟩ := wrong_tag_refused p (by decide) [1, 2]
    (.literal argument) rfl .literal rfl tag htag'.1 htag'.2
  exact ⟨before, after, hwrite, hdecode⟩

end MacroCalls
