import MacroCalls.Json.Read
import MacroCalls.Proofs.Utf8
import Mathlib.Tactic.SplitIfs

/-!
# Whatever is read is valid UTF-8

The strings and keys of a value that was read are valid UTF-8, whatever bytes and escapes the text
had in their place: a lone surrogate and a stray byte have become replacement characters. The
reader takes tokens one by one, so the statement is an invariant of its state: each token is valid,
a valid token keeps the state valid, and the value that the reader ends with is part of its state.

Main statement: `isUtf8_of_read?`.
-/

namespace MacroCalls

open Text

theorem Text.isUtf8_nil : IsUtf8 [] := isUtf8_iff.mpr ⟨[], rfl⟩

theorem Text.IsUtf8.encode_append {t : Text} (h : t.IsUtf8) (c : Char) :
    IsUtf8 (Glyph.encode c ++ t) := by
  obtain ⟨cs, rfl⟩ := isUtf8_iff.mp h
  exact isUtf8_iff.mpr ⟨c :: cs, List.flatMap_cons.symm⟩

namespace Json

/-- All strings and keys of a value are valid UTF-8. -/
inductive IsUtf8 : Json → Prop where
  | null : IsUtf8 null
  | bool {b : Bool} : IsUtf8 (bool b)
  | number {lexeme : Text} : IsUtf8 (number lexeme)
  | string {s : Text} (hs : s.IsUtf8) : IsUtf8 (string s)
  | array {items : List Json} (hitems : ∀ j ∈ items, IsUtf8 j) : IsUtf8 (array items)
  | object {members : List (Text × Json)} (hkeys : ∀ m ∈ members, m.1.IsUtf8)
      (hvalues : ∀ m ∈ members, IsUtf8 m.2) : IsUtf8 (object members)

/-! ### Tokens -/

theorem isUtf8_of_unescape? {t : Text} : ∀ s, unescape? t = some s → s.IsUtf8 := by
  fun_induction unescape? t with
  | case1 =>
    rintro s ⟨⟩
    exact isUtf8_nil
  | case2 rest c n hc ih =>
    intro s h
    obtain ⟨s', hs', rfl⟩ := Option.map_eq_some_iff.mp h
    exact (ih s' hs').encode_append c
  | case3 => rintro s ⟨⟩
  | case4 b rest hb x ih =>
    -- a stray byte is read as the replacement character, which is encoded like any other
    intro s h
    obtain ⟨s', hs', rfl⟩ := Option.map_eq_some_iff.mp h
    exact (ih s' hs').encode_append x.char

namespace Token

/-- The strings of a token are valid UTF-8. -/
def IsUtf8 : Token → Prop
  | string s => s.IsUtf8
  | atom j => j.IsUtf8
  | _ => True

variable {t after : Text} {k : Token}

theorem isUtf8_of_mark? {b : UInt8} (h : mark? b = some k) : k.IsUtf8 := by
  unfold mark? at h
  split_ifs at h <;> cases h <;> trivial

theorem isUtf8_of_string? (h : string? t = some (k, after)) : k.IsUtf8 := by
  unfold string? at h
  split at h
  · cases h
  · split_ifs at h
    obtain ⟨⟨body, after'⟩, -, h⟩ := Option.bind_eq_some_iff.mp h
    obtain ⟨s, hs, heq⟩ := Option.map_eq_some_iff.mp h
    cases heq
    exact isUtf8_of_unescape? s hs

theorem isUtf8_of_word? (h : word? t = some (k, after)) : k.IsUtf8 := by
  obtain ⟨⟨word, j⟩, hmem, h⟩ := List.exists_of_findSome?_eq_some h
  simp only [Option.ite_none_right_eq_some] at h
  obtain ⟨-, heq⟩ := h
  cases heq
  simp only [words, List.mem_cons, Prod.mk.injEq, List.not_mem_nil, or_false] at hmem
  rcases hmem with ⟨-, rfl⟩ | ⟨-, rfl⟩ | ⟨-, rfl⟩
  · exact .null
  · exact .bool
  · exact .bool

theorem isUtf8_of_number? (h : number? t = some (k, after)) : k.IsUtf8 := by
  obtain ⟨⟨lexeme, after'⟩, -, heq⟩ := Option.map_eq_some_iff.mp h
  cases heq
  exact .number

theorem isUtf8_of_first? (h : first? t = some (k, after)) : k.IsUtf8 := by
  unfold first? at h
  split at h
  · cases h
  · split at h
    · rename_i hmark
      cases h
      exact isUtf8_of_mark? hmark
    · simp only [Option.or_eq_some_iff] at h
      rcases h with (h | ⟨-, h⟩) | ⟨-, h⟩
      · exact isUtf8_of_string? h
      · exact isUtf8_of_word? h
      · exact isUtf8_of_number? h

end Token

theorem isUtf8_of_tokens? {t : Text} {ks : List Token} (h : tokens? t = some ks) :
    ∀ k ∈ ks, k.IsUtf8 := by
  fun_induction tokens? t generalizing ks with
  | case1 =>
    cases h
    simp
  | case2 => cases h
  | case3 t b rest hrest k after hk hlt ih =>
    obtain ⟨ks', hks', rfl⟩ := Option.map_eq_some_iff.mp h
    exact List.forall_mem_cons.mpr ⟨Token.isUtf8_of_first? hk, ih hks'⟩

/-! ### The reader -/

/-- The keys and values of members are valid UTF-8. -/
def ValidMembers (members : List (Text × Json)) : Prop :=
  (∀ m ∈ members, m.1.IsUtf8) ∧ ∀ m ∈ members, m.2.IsUtf8

/-- Everything in an open array or object is valid UTF-8. -/
def Frame.IsUtf8 : Frame → Prop
  | array items => ∀ j ∈ items, j.IsUtf8
  | object members key => ValidMembers members ∧ key.IsUtf8

namespace Reading

/-- Everything read so far is valid UTF-8. -/
def IsUtf8 : Reading → Prop
  | value stack | arrayStart stack | objectStart stack => ∀ f ∈ stack, f.IsUtf8
  | key members stack => ValidMembers members ∧ ∀ f ∈ stack, f.IsUtf8
  | colon members s stack => (ValidMembers members ∧ s.IsUtf8) ∧ ∀ f ∈ stack, f.IsUtf8
  | after j stack => j.IsUtf8 ∧ ∀ f ∈ stack, f.IsUtf8

variable {stack : List Frame} {j : Json} {k : Token} {r r' : Reading}

theorem isUtf8_of_stepValue (hstack : ∀ f ∈ stack, f.IsUtf8) (hk : k.IsUtf8)
    (h : stepValue stack k = some r) : r.IsUtf8 := by
  cases k with
  | atom j =>
    cases h
    exact ⟨hk, hstack⟩
  | string s =>
    cases h
    exact ⟨.string hk, hstack⟩
  | arrayOpen =>
    simp only [stepValue] at h
    split at h <;> cases h
    exact hstack
  | objectOpen =>
    simp only [stepValue] at h
    split at h <;> cases h
    exact hstack
  | _ => cases h

theorem isUtf8_of_stepAfter (hj : j.IsUtf8) (hstack : ∀ f ∈ stack, f.IsUtf8)
    (h : stepAfter j stack k = some r) : r.IsUtf8 := by
  rcases stack with _ | ⟨f, below⟩
  · cases h
  obtain ⟨hf, hbelow⟩ := List.forall_mem_cons.mp hstack
  cases f with
  | array items =>
    have hitems : ∀ i ∈ j :: items, i.IsUtf8 := List.forall_mem_cons.mpr ⟨hj, hf⟩
    cases k with
    | comma =>
      cases h
      exact List.forall_mem_cons.mpr ⟨hitems, hbelow⟩
    | arrayClose =>
      cases h
      exact ⟨.array fun i hi => hitems i (List.mem_reverse.mp hi), hbelow⟩
    | _ => cases h
  | object members key =>
    have hkeys : ∀ m ∈ (key, j) :: members, m.1.IsUtf8 :=
      List.forall_mem_cons.mpr ⟨hf.2, hf.1.1⟩
    have hvalues : ∀ m ∈ (key, j) :: members, m.2.IsUtf8 :=
      List.forall_mem_cons.mpr ⟨hj, hf.1.2⟩
    cases k with
    | comma =>
      cases h
      exact ⟨⟨hkeys, hvalues⟩, hbelow⟩
    | objectClose =>
      cases h
      exact ⟨.object (fun m hm => hkeys m (List.mem_reverse.mp hm))
        fun m hm => hvalues m (List.mem_reverse.mp hm), hbelow⟩
    | _ => cases h

/-- **One token** keeps what has been read valid. -/
theorem IsUtf8.step (hr : r.IsUtf8) (hk : k.IsUtf8) (h : r.step k = some r') : r'.IsUtf8 := by
  unfold Reading.step at h
  split at h
  · exact isUtf8_of_stepValue hr hk h
  · cases h
    exact ⟨.array (by simp), hr⟩
  · exact isUtf8_of_stepValue (List.forall_mem_cons.mpr ⟨by simp [Frame.IsUtf8], hr⟩) hk h
  · cases h
    exact ⟨.object (by simp) (by simp), hr⟩
  · cases h
    exact ⟨⟨by simp [ValidMembers], hk⟩, hr⟩
  · cases h
    exact ⟨⟨hr.1, hk⟩, hr.2⟩
  · cases h
    exact List.forall_mem_cons.mpr hr
  · exact isUtf8_of_stepAfter hr.1 hr.2 h
  · cases h

theorem IsUtf8.run {ks : List Token} (hr : r.IsUtf8) (hks : ∀ k ∈ ks, k.IsUtf8)
    (h : r.run ks = some r') : r'.IsUtf8 := by
  induction ks generalizing r with
  | nil =>
    cases h
    exact hr
  | cons k ks ih =>
    obtain ⟨hk, hks⟩ := List.forall_mem_cons.mp hks
    unfold Reading.run at h
    split at h
    · rename_i next hstep
      exact ih (hr.step hk hstep) hks h
    · cases h

end Reading

/-- **Whatever is read is valid UTF-8.** -/
theorem isUtf8_of_read? {t : Text} {j : Json} (h : read? t = some j) : j.IsUtf8 := by
  obtain ⟨ks, hks, h⟩ := Option.bind_eq_some_iff.mp h
  have hstart : (Reading.value []).IsUtf8 := by simp [Reading.IsUtf8]
  unfold ofTokens? at h
  split at h
  · rename_i hrun
    cases h
    exact (hstart.run (isUtf8_of_tokens? hks) hrun).1
  · cases h

end Json

end MacroCalls
