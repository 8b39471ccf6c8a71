import MacroCalls.Proofs.Json.Validity
import MacroCalls.Proofs.RoundTrip

/-!
# Decoded trees are stable

A node that was decoded, from whatever text, comes back just as it is when it is encoded and
decoded again. Two things could be lost on the way: an offset that has more than 64 bits and a byte
that is not part of UTF-8 (`decode_write_repairs`). A decoded node has neither (`Portable`): its
texts are strings of a value that was read, and each offset fits.

Decoding updates a fresh node member by member, so that a node is portable is an invariant of the
members: each update keeps it (`Keeps`).

Main statement: `decode_stable`.
-/

namespace MacroCalls

open Text

/-! ### Nodes that survive -/

/-- The span has 64 bits and the text is valid UTF-8. -/
def Name.Portable (n : Name) : Prop := n.span.Is64 ∧ n.name.IsUtf8

/-- The span has 64 bits and the value is valid UTF-8. -/
def Literal.Portable (a : Literal) : Prop := a.span.Is64 ∧ a.val.IsUtf8

/-- All spans have 64 bits, and all texts are valid UTF-8. -/
structure Call.Portable (c : Call) : Prop where
  span : c.span.Is64
  name : c.name.Portable
  args : ∀ a ∈ c.argList, a.Portable

/-- All spans have 64 bits, and all texts are valid UTF-8. -/
structure Program.Portable (p : Program) : Prop where
  span : p.span.Is64
  calls : ∀ s ∈ p.statementList, ∀ c ∈ s, c.Portable

theorem Name.Portable.mapText_eq {n : Name} (h : n.Portable) : n.mapText repaired = n := by
  rw [mapText, repaired_eq_self_iff.mpr h.2]

theorem Literal.Portable.mapText_eq {a : Literal} (h : a.Portable) : a.mapText repaired = a := by
  rw [mapText, repaired_eq_self_iff.mpr h.2]

theorem Call.Portable.spans {c : Call} (h : c.Portable) : ∀ s ∈ c.spans, s.Is64 := by
  simp only [Call.spans, leafSpans, List.forall_mem_cons, List.forall_mem_map]
  exact ⟨h.span, h.name.1, fun a ha => (h.args a ha).1⟩

theorem Call.Portable.mapTexts_eq {c : Call} (h : c.Portable) : c.mapTexts repaired = c := by
  simp only [mapTexts_eq_self_iff, texts, List.forall_mem_cons, List.forall_mem_map,
    repaired_eq_self_iff]
  exact ⟨h.name.2, fun a ha => (h.args a ha).2⟩

theorem Program.Portable.call {p : Program} (h : p.Portable) {c : Call} (hc : c ∈ p.calls) :
    c.Portable := by
  obtain ⟨s, hs, hc⟩ := List.mem_filterMap.mp hc
  exact h.calls s hs c hc

theorem Program.Portable.spans {p : Program} (h : p.Portable) : ∀ s ∈ p.spans, s.Is64 := by
  refine List.forall_mem_cons.mpr ⟨h.span, fun s hs => ?_⟩
  obtain ⟨c, hc, hs⟩ := List.mem_flatMap.mp hs
  exact (h.call hc).spans s hs

theorem Program.Portable.mapTexts_eq {p : Program} (h : p.Portable) :
    p.mapTexts repaired = p := by
  refine mapTexts_eq_self_iff.mpr fun t ht => ?_
  obtain ⟨c, hc, ht⟩ := List.mem_flatMap.mp ht
  exact Call.mapTexts_eq_self_iff.mp (h.call hc).mapTexts_eq t ht

namespace Json

/-! ### What updates keep -/

/-- The update keeps a property, whatever valid value it is given. -/
def Keeps {α : Type} (P : α → Prop) (u : Update α) : Prop :=
  ∀ ⦃a a' : α⦄ ⦃j : Json⦄, P a → j.IsUtf8 → u a j = .ok a' → P a'

/-- What is read from a valid value has a property. -/
def Gives {α : Type} (P : α → Prop) (node : Json → Except DecodeError α) : Prop :=
  ∀ ⦃j : Json⦄ ⦃a : α⦄, j.IsUtf8 → node j = .ok a → P a

variable {α β : Type} {P : α → Prop} {Q : β → Prop}

theorem foldlM_keeps {f : α → β → Except DecodeError α} {bs : List β} {a a' : α} (ha : P a)
    (hf : ∀ b ∈ bs, ∀ a a', P a → f a b = .ok a' → P a') (h : bs.foldlM f a = .ok a') : P a' := by
  induction bs generalizing a with
  | nil =>
    cases h
    exact ha
  | cons b bs ih =>
    obtain ⟨hb, hbs⟩ := List.forall_mem_cons.mp hf
    rw [List.foldlM_cons] at h
    obtain ⟨next, hnext, h⟩ := exists_ok_of_bind h
    exact ih (hb a next ha hnext) hbs h

theorem forall_of_mapM_ok {f : β → Except DecodeError α} {bs : List β} {as : List α}
    (hf : ∀ b ∈ bs, ∀ a, f b = .ok a → P a) (h : bs.mapM f = .ok as) : ∀ a ∈ as, P a := by
  induction bs generalizing as with
  | nil =>
    cases h
    exact List.forall_mem_nil P
  | cons b bs ih =>
    obtain ⟨hb, hbs⟩ := List.forall_mem_cons.mp hf
    obtain ⟨a, rest, ha, hrest, rfl⟩ := exists_ok_of_mapM_cons h
    exact List.forall_mem_cons.mpr ⟨hb a ha, ih hbs hrest⟩

/-- A field keeps what its own reader keeps. -/
theorem Keeps.field {u : Update β} {get : α → β} {set : α → β → α} (hu : Keeps Q u)
    (hget : ∀ a, P a → Q (get a)) (hset : ∀ a b, P a → Q b → P (set a b)) :
    Keeps P fun a j => (u (get a) j).map (set a) := by
  intro a a' j ha hj h
  obtain ⟨b, hb, rfl⟩ := exists_ok_of_map h
  exact hset a b ha (hu (hget a ha) hj hb)

/-- A field that is read anew. -/
theorem Gives.field {node : Json → Except DecodeError β} {set : α → β → α} (hnode : Gives Q node)
    (hset : ∀ a b, P a → Q b → P (set a b)) : Keeps P fun a j => (node j).map (set a) := by
  intro a a' j ha hj h
  obtain ⟨b, hb, rfl⟩ := exists_ok_of_map h
  exact hset a b ha (hnode hj hb)

/-- **An object keeps** what each of its fields keeps. -/
theorem Keeps.updateObject {fields : List (Text × Update α)} (h : ∀ f ∈ fields, Keeps P f.2) :
    Keeps P (updateObject fields) := by
  intro a a' j ha hj hu
  cases hj with
  | null =>
    cases hu
    exact ha
  | object _ hvalues =>
    rw [updateObject_object] at hu
    refine foldlM_keeps ha (fun m hm b b' hb hstep => ?_) hu
    rw [updateMember] at hstep
    split at hstep
    · rename_i update hlookup
      obtain ⟨front, back, hfields, -⟩ := List.lookup_eq_some_iff.mp hlookup
      have hmem : (m.1.folded, update) ∈ fields := by simp [hfields]
      exact h _ hmem hb (hvalues m hm) hstep
    · cases hstep
      exact hb
  | _ => cases hu

/-! ### Offsets, texts and lists -/

theorem keeps_updateText : Keeps Text.IsUtf8 updateText := by
  intro t t' j ht hj h
  cases hj with
  | null =>
    cases h
    exact ht
  | string hs =>
    cases h
    exact hs
  | _ => cases h

theorem keeps_updateOffset :
    Keeps (fun n => -0x8000000000000000 ≤ n ∧ n < 0x8000000000000000) updateOffset := by
  intro n n' j hn hj h
  cases hj with
  | null =>
    cases h
    exact hn
  | number =>
    simp only [updateOffset] at h
    split at h <;> cases h
    rename_i hoffset
    simp only [offset?, Option.ite_none_right_eq_some] at hoffset
    obtain ⟨⟨-, hrange⟩, heq⟩ := hoffset
    exact Option.some.inj heq ▸ hrange
  | _ => cases h

theorem keeps_updateSpan : Keeps Span.Is64 updateSpan := by
  refine Keeps.updateObject (List.forall_mem_cons.mpr ⟨?_, List.forall_mem_singleton.mpr ?_⟩)
  · exact keeps_updateOffset.field (fun _ hs => hs.1) fun _ _ hs hn => ⟨hn, hs.2⟩
  · exact keeps_updateOffset.field (fun _ hs => hs.2) fun _ _ hs hn => ⟨hs.1, hn⟩

theorem Gives.list? {item : Json → Except DecodeError α} (hitem : Gives P item) :
    Gives (fun l : Option (List α) => ∀ a ∈ l.getD [], P a) (list? item) := by
  intro j l hj h
  cases hj with
  | null =>
    cases h
    exact List.forall_mem_nil P
  | array hitems =>
    rw [list?_array] at h
    obtain ⟨as, has, rfl⟩ := exists_ok_of_map h
    exact forall_of_mapM_ok (fun i hi a => hitem (hitems i hi)) has
  | _ => cases h

/-! ### Nodes -/

theorem gives_wrapper : Gives (fun w => ∀ j ∈ w.contents, j.IsUtf8) wrapper := by
  intro j w hj h
  refine Keeps.updateObject (P := fun w : Wrapper => ∀ j ∈ w.contents, j.IsUtf8)
    (List.forall_mem_cons.mpr ⟨?_, List.forall_mem_singleton.mpr ?_⟩) (by simp) hj h
  · intro w w' j hw _ h
    obtain ⟨type, -, rfl⟩ := exists_ok_of_map h
    exact hw
  · intro w w' j _ hj h
    cases h
    simpa using hj

theorem gives_untagged (wanted : NodeType) : Gives IsUtf8 (untagged wanted) := by
  intro j contents hj h
  obtain ⟨w, hw, h⟩ := exists_ok_of_bind h
  split at h
  · split at h <;> cases h
    rename_i hcontents
    exact gives_wrapper hj hw _ hcontents
  · cases h

/-- **A node has** what a fresh node has and each of its fields keeps. -/
theorem gives_node {wanted : NodeType} {fields : List (Text × Update α)} {fresh : α}
    (hfresh : P fresh) (h : ∀ f ∈ fields, Keeps P f.2) :
    Gives P fun j => j.untagged wanted >>= updateObject fields fresh := by
  intro j a hj hnode
  obtain ⟨contents, hcontents, hnode⟩ := exists_ok_of_bind hnode
  exact Keeps.updateObject h hfresh (gives_untagged wanted hj hcontents) hnode

theorem is64_default : ({} : Span).Is64 := by decide

theorem gives_toName : Gives Name.Portable toName := by
  refine gives_node (P := Name.Portable) ⟨is64_default, isUtf8_nil⟩
    (List.forall_mem_cons.mpr ⟨?_, List.forall_mem_singleton.mpr ?_⟩)
  · exact keeps_updateSpan.field (fun _ hn => hn.1) fun _ _ hn hs => ⟨hs, hn.2⟩
  · exact keeps_updateText.field (fun _ hn => hn.2) fun _ _ hn ht => ⟨hn.1, ht⟩

theorem gives_toLiteral : Gives Literal.Portable toLiteral := by
  refine gives_node (P := Literal.Portable) ⟨is64_default, isUtf8_nil⟩
    (List.forall_mem_cons.mpr ⟨?_, List.forall_mem_singleton.mpr ?_⟩)
  · exact keeps_updateSpan.field (fun _ ha => ha.1) fun _ _ ha hs => ⟨hs, ha.2⟩
  · exact keeps_updateText.field (fun _ ha => ha.2) fun _ _ ha ht => ⟨ha.1, ht⟩

theorem gives_toCall : Gives Call.Portable toCall := by
  have hfresh : ({} : Call).Portable :=
    ⟨is64_default, ⟨is64_default, isUtf8_nil⟩, List.forall_mem_nil _⟩
  refine gives_node hfresh (List.forall_mem_cons.mpr
    ⟨?_, List.forall_mem_cons.mpr ⟨?_, List.forall_mem_singleton.mpr ?_⟩⟩)
  · exact gives_toName.field fun _ _ hc hn => ⟨hc.span, hn, hc.args⟩
  · exact gives_toLiteral.list?.field fun _ _ hc ha => ⟨hc.span, hc.name, ha⟩
  · exact keeps_updateSpan.field (fun _ hc => hc.span) fun _ _ hc hs => ⟨hs, hc.name, hc.args⟩

theorem gives_toStatement : Gives (fun s => ∀ c ∈ s, c.Portable) toStatement := by
  intro j s hj h
  unfold toStatement at h
  split at h
  · cases h
    simp
  · obtain ⟨c, hc, rfl⟩ := exists_ok_of_map h
    simpa using gives_toCall hj hc

theorem gives_toProgram : Gives Program.Portable toProgram := by
  have hfresh : ({} : Program).Portable := ⟨is64_default, List.forall_mem_nil _⟩
  refine gives_node hfresh (List.forall_mem_cons.mpr ⟨?_, List.forall_mem_singleton.mpr ?_⟩)
  · exact gives_toStatement.list?.field fun _ _ hp hs => ⟨hp.span, hs⟩
  · exact keeps_updateSpan.field (fun _ hp => hp.span) fun _ _ hp hs => ⟨hs, hp.calls⟩

/-! ### Decoding what was decoded -/

theorem Gives.decode {node : Json → Except DecodeError α} (hnode : Gives P node) {t : Text} {a : α}
    (h : decode node t = .ok a) : P a := by
  unfold Json.decode at h
  split at h
  · rename_i hread
    exact hnode (isUtf8_of_read? hread) h
  · cases h

/-- Values without anything to repair are read back. -/
theorem decode_write_of_repaired {node : Json → Except DecodeError α} {j : Json}
    (hplain : j.Plain maxDepth) (hj : j.repaired = j) :
    Json.decode node (write .compact 0 j) = node j := by
  rw [Json.decode, read?_write Layout.isBlank_compact hplain, hj]

theorem decode_write_program {p : Program} (h : p.Portable) :
    decode toProgram (write .compact 0 p.toJson) = .ok p := by
  rw [decode_write_of_repaired (plain_program p 9991) (by rw [repaired_program, h.mapTexts_eq])]
  exact toProgram_toJson h.spans

theorem decode_write_call {c : Call} (h : c.Portable) :
    decode toCall (write .compact 0 c.toJson) = .ok c := by
  have hplain : c.toJson.Plain maxDepth := plain_statement (some c) 9994
  rw [decode_write_of_repaired hplain (by rw [repaired_call, h.mapTexts_eq])]
  exact toCall_toJson h.spans

theorem decode_write_name {n : Name} (h : n.Portable) :
    decode toName (write .compact 0 n.toJson) = .ok n := by
  rw [decode_write_of_repaired (plain_name n 9997) (by rw [repaired_name, h.mapText_eq])]
  exact toName_toJson h.1

theorem decode_write_literal {a : Literal} (h : a.Portable) :
    decode toLiteral (write .compact 0 a.toJson) = .ok a := by
  rw [decode_write_of_repaired (plain_literal a 9997) (by rw [repaired_literal, h.mapText_eq])]
  exact toLiteral_toJson h.1

/-- **Decoded nodes are stable.** Whatever the text, a node that is decoded from it is decoded
again, just as it is, from the text that it is encoded to. -/
theorem decode_stable (t : Text) :
    (∀ p, decode toProgram t = .ok p → decode toProgram (write .compact 0 p.toJson) = .ok p) ∧
      (∀ c, decode toCall t = .ok c → decode toCall (write .compact 0 c.toJson) = .ok c) ∧
      (∀ n, decode toName t = .ok n → decode toName (write .compact 0 n.toJson) = .ok n) ∧
      ∀ a, decode toLiteral t = .ok a → decode toLiteral (write .compact 0 a.toJson) = .ok a := by
  refine ⟨fun p h => ?_, fun c h => ?_, fun n h => ?_, fun a h => ?_⟩
  · exact decode_write_program (gives_toProgram.decode h)
  · exact decode_write_call (gives_toCall.decode h)
  · exact decode_write_name (gives_toName.decode h)
  · exact decode_write_literal (gives_toLiteral.decode h)

/-- A key in capitals comes before the type, another key is given twice and one is unknown, and the
name has a lone surrogate and a stray byte: both are decoded as replacement characters, and the
node is stable from there on. -/
theorem decode_stable_replaced :
    let t := ascii " \x7b\"NODE\":\x7b\"x\":[0], \"Name\":\"a\", \"name\":\"a\\ud800" ++
      0xFF :: ascii "\", \"span\":\x7b\"End\":-1\x7d\x7d, \"type\":\"Name\"\x7d"
    let n : Name := ⟨⟨0, -1⟩, [0x61, 0xEF, 0xBF, 0xBD, 0xEF, 0xBF, 0xBD]⟩
    decode toName t = .ok n ∧ decode toName (write .compact 0 n.toJson) = .ok n := by
  intro t n
  have hdecode : decode toName t = .ok n := by decide +kernel
  exact ⟨hdecode, (decode_stable t).2.2.1 n hdecode⟩

end Json

end MacroCalls
