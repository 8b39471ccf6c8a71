import MacroCalls.Proofs.Json.Reading
import MacroCalls.Proofs.Trails

/-!
# Parts of a JSON value

The parts of a value have addresses as the nodes of a program have, and the part at an address can
be replaced by another value. In the text this replaces the text of the part: what stands before
and behind it is the same whatever is put there (`exists_write_put`). The value that is read back
is the repaired one with the part replaced (`repaired_put`).

Each step of an address goes from a list with one place in it to that place, so the inductions are
on the address and take the list apart there (`exists_front`).
-/

namespace MacroCalls.Json

open Text

/-! ### Parts of a value -/

/-- The values right inside a value: the items of an array, or the values of the members of an
object. -/
def inner : Json → List Json
  | array items => items
  | object members => members.map Prod.snd
  | _ => []

/-- The part at an address. -/
def part? : Json → Address → Option Json
  | j, [] => some j
  | j, i :: a => j.inner[i]?.bind (·.part? a)

/-- The value with another one in the place of the `i`-th inside it. -/
def setInner : Json → Nat → Json → Json
  | array items, i, v => array (items.set i v)
  | object members, i, v => object (members.modify i fun m => (m.1, v))
  | j, _, _ => j

/-- The value with another one in the place of the part at an address. -/
def put : Json → Address → Json → Json
  | _, [], v => v
  | j, i :: a, v => j.setInner i ((j.inner.getD i null).put a v)

section Parts

variable {j w c : Json} {a : Address} {i : Nat}

theorem part?_append (j : Json) (a b : Address) :
    j.part? (a ++ b) = (j.part? a).bind (·.part? b) := by
  induction a generalizing j with
  | nil => rfl
  | cons i a ih =>
    rw [List.cons_append, part?, part?, Option.bind_assoc]
    simp only [ih]

theorem put_cons (h : j.inner[i]? = some c) (a : Address) (v : Json) :
    j.put (i :: a) v = j.setInner i (c.put a v) := by
  rw [put, List.getD_eq_getElem?_getD, h, Option.getD_some]

/-- To replace a part of a part is to replace the part by what it then is. -/
theorem put_append (h : j.part? a = some w) (b : Address) (v : Json) :
    j.put (a ++ b) v = j.put a (w.put b v) := by
  induction a generalizing j with
  | nil =>
    cases h
    rfl
  | cons i a ih =>
    obtain ⟨c, hc, h⟩ := Option.bind_eq_some_iff.mp h
    rw [List.cons_append, put_cons hc, put_cons hc, ih h]

/-- **The values inside a value** are a list in which one place can be filled anew. -/
theorem exists_front (h : j.inner[i]? = some c) :
    (∃ front back, j = array (front ++ c :: back) ∧
        ∀ v, j.setInner i v = array (front ++ v :: back)) ∨
      ∃ front k back, j = object (front ++ (k, c) :: back) ∧
        ∀ v, j.setInner i v = object (front ++ (k, v) :: back) := by
  cases j with
  | array items =>
    rw [inner] at h
    obtain ⟨hi, rfl⟩ := List.getElem?_eq_some_iff.mp h
    refine .inl ⟨items.take i, items.drop (i + 1), ?_, fun v => ?_⟩
    · rw [List.getElem_cons_drop, List.take_append_drop]
    · rw [setInner, List.set_eq_take_append_cons_drop, if_pos hi]
  | object members =>
    rw [inner, List.getElem?_map] at h
    obtain ⟨⟨k, c⟩, hm, rfl⟩ := Option.map_eq_some_iff.mp h
    obtain ⟨hi, hm⟩ := List.getElem?_eq_some_iff.mp hm
    refine .inr ⟨members.take i, k, members.drop (i + 1), ?_, fun v => ?_⟩
    · rw [← hm, List.getElem_cons_drop, List.take_append_drop]
    · rw [setInner, List.modify_eq_take_cons_drop hi, hm]
  | _ => cases h

/-- A part in its own place changes nothing. -/
theorem put_self (h : j.part? a = some w) : j.put a w = j := by
  induction a generalizing j with
  | nil =>
    cases h
    rfl
  | cons i a ih =>
    obtain ⟨c, hc, h⟩ := Option.bind_eq_some_iff.mp h
    rw [put_cons hc, ih h]
    rcases exists_front hc with ⟨front, back, hj, hset⟩ | ⟨front, k, back, hj, hset⟩
    · rw [hset, hj]
    · rw [hset, hj]

end Parts

/-! ### Replacing a part in the text -/

theorem writeItems_eq_map (l : Layout) (depth : Nat) (items : List Json) :
    writeItems l depth items = items.map (write l depth) := by
  induction items with
  | nil => rfl
  | cons j items ih => rw [writeItems, ih, List.map_cons]

theorem writeMembers_eq_map (l : Layout) (depth : Nat) (members : List (Text × Json)) :
    writeMembers l depth members =
      members.map fun m => stringText m.1 ++ 0x3A :: l.afterColon ++ write l depth m.2 := by
  induction members with
  | nil => rfl
  | cons m members ih => rw [writeMembers, ih, List.map_cons]

/-- What stands around one of the written items. -/
theorem Layout.exists_enclose_append (l : Layout) (depth : Nat) (first last : UInt8)
    (front back : List Text) :
    ∃ before after, ∀ item,
      l.enclose depth first last (front ++ item :: back) = before ++ item ++ after := by
  cases front with
  | nil =>
    refine ⟨first :: l.lineBreak (depth + 1), l.behind depth last back, fun item => ?_⟩
    rw [List.nil_append, enclose_cons]
    simp
  | cons head front =>
    refine ⟨first :: (l.lineBreak (depth + 1) ++ head ++
        front.flatMap (fun t => 0x2C :: l.lineBreak (depth + 1) ++ t) ++
        0x2C :: l.lineBreak (depth + 1)), l.behind depth last back, fun item => ?_⟩
    rw [List.cons_append, enclose_cons]
    simp [behind]

/-- **Replacing a part** replaces its text and leaves what stands before and behind it. -/
theorem exists_write_put {j w : Json} {a : Address} (h : j.part? a = some w) (l : Layout)
    (depth : Nat) : ∃ before after, ∀ v,
      write l depth (j.put a v) = before ++ write l (depth + a.length) v ++ after := by
  induction a generalizing j depth with
  | nil => exact ⟨[], [], fun v => by simp [put]⟩
  | cons i a ih =>
    obtain ⟨c, hc, h⟩ := Option.bind_eq_some_iff.mp h
    obtain ⟨before, after, hwrite⟩ := ih h (depth + 1)
    have hdepth : depth + (i :: a).length = depth + 1 + a.length := by
      rw [List.length_cons]
      omega
    rcases exists_front hc with ⟨front, back, -, hset⟩ | ⟨front, k, back, -, hset⟩
    · obtain ⟨opening, closing, henclose⟩ := l.exists_enclose_append depth 0x5B 0x5D
        (front.map (write l (depth + 1))) (back.map (write l (depth + 1)))
      refine ⟨opening ++ before, after ++ closing, fun v => ?_⟩
      rw [put_cons hc, hset, write, writeItems_eq_map, List.map_append, List.map_cons, henclose,
        hwrite, hdepth]
      simp
    · obtain ⟨opening, closing, henclose⟩ := l.exists_enclose_append depth openBrace closeBrace
        (writeMembers l (depth + 1) front) (writeMembers l (depth + 1) back)
      refine ⟨opening ++ (stringText k ++ 0x3A :: l.afterColon) ++ before, after ++ closing,
        fun v => ?_⟩
      rw [put_cons hc, hset, write, writeMembers_eq_map, List.map_append, List.map_cons,
        ← writeMembers_eq_map, ← writeMembers_eq_map, henclose, hwrite, hdepth]
      simp

/-! ### What is read of a replaced part -/

theorem repairedItems_eq_map (items : List Json) : repairedItems items = items.map repaired := by
  induction items with
  | nil => rfl
  | cons j items ih => rw [repairedItems, ih, List.map_cons]

theorem repairedMembers_eq_map (members : List (Text × Json)) :
    repairedMembers members = members.map fun m => (m.1.repaired, m.2.repaired) := by
  induction members with
  | nil => rfl
  | cons m members ih => rw [repairedMembers, ih, List.map_cons]

theorem inner_repaired (j : Json) : j.repaired.inner = j.inner.map repaired := by
  cases j with
  | array items => rw [repaired, inner, inner, repairedItems_eq_map]
  | object members => simp [repaired, inner, repairedMembers_eq_map]
  | _ => rfl

theorem repaired_setInner (j : Json) (i : Nat) (v : Json) :
    (j.setInner i v).repaired = j.repaired.setInner i v.repaired := by
  cases j with
  | array items =>
    simp only [setInner, repaired, repairedItems_eq_map, List.map_set]
  | object members =>
    simp only [setInner, repaired, repairedMembers_eq_map, object.injEq]
    induction members generalizing i with
    | nil => simp
    | cons m members ih =>
      cases i with
      | zero => simp
      | succ i => simp [ih]
  | _ => rfl

theorem repaired_put (j : Json) (a : Address) (v : Json) :
    (j.put a v).repaired = j.repaired.put a v.repaired := by
  induction a generalizing j with
  | nil => rfl
  | cons i a ih =>
    have hinner : j.repaired.inner.getD i null = (j.inner.getD i null).repaired := by
      rw [inner_repaired, List.getD_eq_getElem?_getD, List.getD_eq_getElem?_getD,
        List.getElem?_map]
      cases j.inner[i]? <;> rfl
    rw [put, put, repaired_setInner, ih, hinner]

theorem plainItems_iff {n : Nat} {items : List Json} :
    PlainItems n items ↔ ∀ j ∈ items, j.Plain n := by
  induction items with
  | nil => simp [PlainItems]
  | cons j items ih => rw [PlainItems, ih, List.forall_mem_cons]

theorem plainMembers_iff {n : Nat} {members : List (Text × Json)} :
    PlainMembers n members ↔ ∀ m ∈ members, m.2.Plain n := by
  induction members with
  | nil => simp [PlainMembers]
  | cons m members ih => rw [PlainMembers, ih, List.forall_mem_cons]

theorem plain_put {j w : Json} {a : Address} (h : j.part? a = some w) {n : Nat} (hj : j.Plain n)
    (s : Text) : (j.put a (string s)).Plain n := by
  induction a generalizing j n with
  | nil => trivial
  | cons i a ih =>
    obtain ⟨c, hc, hw⟩ := Option.bind_eq_some_iff.mp h
    rw [put_cons hc]
    rcases exists_front hc with ⟨front, back, rfl, hset⟩ | ⟨front, k, back, rfl, hset⟩
    · rw [hset]
      simp only [Plain, plainItems_iff, List.forall_mem_append, List.forall_mem_cons] at hj ⊢
      obtain ⟨hpos, hfront, hc, hback⟩ := hj
      exact ⟨hpos, hfront, ih hw hc, hback⟩
    · rw [hset]
      simp only [Plain, plainMembers_iff, List.forall_mem_append, List.forall_mem_cons] at hj ⊢
      obtain ⟨hpos, hfront, hc, hback⟩ := hj
      exact ⟨hpos, hfront, ih hw hc, hback⟩

end MacroCalls.Json
