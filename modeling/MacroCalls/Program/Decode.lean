import MacroCalls.Json.Read
import MacroCalls.Program
import MacroCalls.Text.Quoted

/-!
# Trees from JSON

A tree is read from JSON node by node. Each node is an object with a type, which has to be the
type that is wanted, and the contents. Keys are compared without regard to case, unknown keys are
ignored, and a later member overrides an earlier one. `null` stands for a missing list and leaves
everything else as it is.

What does not fit is passed over, and reading goes on to the end; but of several things that do not
fit the first in the text is kept and is what comes of it all (`Progress.run`). So nothing behind
the first of them has any effect (`Progress.run_eq_foldlM`).
-/

namespace MacroCalls

/-- Why a text could not be read as a tree. -/
inductive DecodeError where
  /-- The text is not JSON, or a node lacks its contents. -/
  | malformed
  /-- A value has another JSON type than it should. -/
  | wrongShape
  /-- A node has another type than it should. -/
  | wrongType (wanted : NodeType) (found : Text)
  deriving DecidableEq, Repr

/-- What is wrong with the types of nodes, in words. -/
def DecodeError.message? : DecodeError → Option Text
  | wrongType wanted found =>
    some (ascii "expected " ++ wanted.tag ++ ascii " node, got " ++ found.quoted)
  | _ => none

/-- A scalar value without regard to case: capital letters count as small ones, and so do the long
`s` and the sign for kelvin, which are the only others with a capital among the ASCII letters. -/
def Text.caseless (c : Char) : Char :=
  if 0x41 ≤ c.toNat ∧ c.toNat ≤ 0x5A then Char.ofNat (c.toNat + 0x20)
  else if c.toNat = 0x17F then Char.ofNat 0x73
  else if c.toNat = 0x212A then Char.ofNat 0x6B
  else c

/-- A text without regard to case. -/
def Text.folded (t : Text) : Text := t.glyphs.flatMap fun x => Glyph.encode (caseless x.char)

/-- A value on the way, and the first thing that did not fit. -/
structure Progress (α : Type) where
  value : α
  misfit? : Option DecodeError := none
  deriving Repr

namespace Progress

variable {α β : Type}

/-- The progress with one more thing, which leaves the value as it is if it does not fit. -/
def step (f : α → β → Except DecodeError α) (p : Progress α) (b : β) : Progress α :=
  match f p.value b with
  | .ok a => { p with value := a }
  | .error e => { p with misfit? := p.misfit?.or (some e) }

/-- What has come of it. -/
def result (p : Progress α) : Except DecodeError α :=
  match p.misfit? with
  | none => .ok p.value
  | some e => .error e

/-- Go through a list from a value on. -/
def run (f : α → β → Except DecodeError α) (a : α) (bs : List β) : Except DecodeError α :=
  (bs.foldl (step f) { value := a }).result

theorem foldl_of_misfit (f : α → β → Except DecodeError α) {p : Progress α} {e : DecodeError}
    (h : p.misfit? = some e) (bs : List β) : (bs.foldl (step f) p).result = .error e := by
  induction bs generalizing p with
  | nil => rw [List.foldl_nil, result, h]
  | cons b bs ih =>
    rw [List.foldl_cons]
    refine ih ?_
    rw [step]
    split
    · exact h
    · rw [h, Option.or_some, Option.getD_some]

/-- **The first thing that does not fit** is what comes of it, whatever is behind. -/
theorem run_eq_foldlM (f : α → β → Except DecodeError α) (a : α) (bs : List β) :
    run f a bs = bs.foldlM f a := by
  induction bs generalizing a with
  | nil => rfl
  | cons b bs ih =>
    rw [run, List.foldl_cons, step, List.foldlM_cons]
    cases f a b with
    | ok a' => exact ih a'
    | error e => exact foldl_of_misfit f rfl bs

end Progress

namespace Json

/-- A reader of a value that may build on an earlier value. -/
abbrev Update (α : Type) := α → Json → Except DecodeError α

/-- Update a value by a member of an object. The fields that can be given are listed by their keys
without regard to case. -/
def updateMember {α : Type} (fields : List (Text × Update α)) (a : α) (m : Text × Json) :
    Except DecodeError α :=
  match fields.lookup m.1.folded with
  | some update => update a m.2
  | none => .ok a

/-- Update a value by the members of an object, in order. -/
def updateObject {α : Type} (fields : List (Text × Update α)) : Update α
  | a, null => .ok a
  | a, object members => Progress.run (updateMember fields) a members
  | _, _ => .error .wrongShape

theorem updateObject_object {α : Type} (fields : List (Text × Update α)) (a : α)
    (members : List (Text × Json)) :
    updateObject fields a (object members) = members.foldlM (updateMember fields) a :=
  Progress.run_eq_foldlM ..

/-- A string; `null` leaves what was there. -/
def updateText : Update Text
  | t, null => .ok t
  | _, string s => .ok s
  | _, _ => .error .wrongShape

/-- The number that decimal digits spell. -/
def natOfDigits (t : Text) : Nat := t.foldl (fun n b => n * 10 + (b.toNat - 0x30)) 0

/-- The integer of a plain literal, without a fraction or an exponent, if it fits into 64 bits. -/
def offset? (lexeme : Text) : Option Int :=
  let negative := lexeme.head? = some 0x2D
  let digits := if negative then lexeme.tail else lexeme
  let n : Int := if negative then -natOfDigits digits else natOfDigits digits
  if digits.all isDigit ∧ -0x8000000000000000 ≤ n ∧ n < 0x8000000000000000 then some n else none

/-- An offset; `null` leaves what was there. -/
def updateOffset : Update Int
  | n, null => .ok n
  | _, number lexeme =>
    match offset? lexeme with
    | some n => .ok n
    | none => .error .wrongShape
  | _, _ => .error .wrongShape

/-- A span, of which each end may be given or left. -/
def updateSpan : Update Span :=
  updateObject
    [(ascii "start", fun s j => (updateOffset s.start j).map ({ s with start := · })),
      (ascii "end", fun s j => (updateOffset s.stop j).map ({ s with stop := · }))]

/-- A list of which each item is read by itself; `null` is a missing list. -/
def list? {α : Type} (item : Json → Except DecodeError α) :
    Json → Except DecodeError (Option (List α))
  | null => .ok none
  | array items =>
    (Progress.run (fun read j => (item j).map read.push) #[] items).map fun read =>
      some read.toList
  | _ => .error .wrongShape

theorem run_push_eq_mapM {α : Type} (item : Json → Except DecodeError α) (read : Array α)
    (items : List Json) :
    Progress.run (fun read j => (item j).map read.push) read items =
      (items.mapM item).map fun more => read ++ more.toArray := by
  rw [Progress.run_eq_foldlM]
  induction items generalizing read with
  | nil => exact congrArg Except.ok (by simp)
  | cons j items ih =>
    rw [List.foldlM_cons, List.mapM_cons]
    cases item j with
    | error e => rfl
    | ok a =>
      refine (ih (read.push a)).trans ?_
      cases items.mapM item with
      | error e => rfl
      | ok more => exact congrArg Except.ok (by simp)

theorem list?_array {α : Type} (item : Json → Except DecodeError α) (items : List Json) :
    list? item (array items) = (items.mapM item).map some := by
  rw [list?, run_push_eq_mapM]
  cases items.mapM item with
  | error e => rfl
  | ok more => exact congrArg Except.ok (by simp)

/-- What is given of a node's type and contents. -/
structure Wrapper where
  type : Text := []
  contents : Option Json := none
  deriving Repr

/-- The type and the contents of a node. -/
def wrapper : Json → Except DecodeError Wrapper :=
  updateObject
    [(ascii "type", fun w j => (updateText w.type j).map ({ w with type := · })),
      (ascii "node", fun w j => .ok { w with contents := some j })]
    {}

/-- The contents of a node of the wanted type. -/
def untagged (wanted : NodeType) (j : Json) : Except DecodeError Json := do
  let w ← wrapper j
  if w.type = wanted.tag then
    match w.contents with
    | some contents => return contents
    | none => throw .malformed
  else throw (.wrongType wanted w.type)

/-- The name of a call. -/
def toName (j : Json) : Except DecodeError Name := do
  updateObject
    [(ascii "span", fun n j => (updateSpan n.span j).map ({ n with span := · })),
      (ascii "name", fun n j => (updateText n.name j).map ({ n with name := · }))]
    {} (← j.untagged .name)

/-- A literal. -/
def toLiteral (j : Json) : Except DecodeError Literal := do
  updateObject
    [(ascii "span", fun l j => (updateSpan l.span j).map ({ l with span := · })),
      (ascii "val", fun l j => (updateText l.val j).map ({ l with val := · }))]
    {} (← j.untagged .literal)

/-- A call. -/
def toCall (j : Json) : Except DecodeError Call := do
  updateObject
    [(ascii "name", fun c j => j.toName.map ({ c with name := · })),
      (ascii "args", fun c j => (j.list? toLiteral).map ({ c with args := · })),
      (ascii "span", fun c j => (updateSpan c.span j).map ({ c with span := · }))]
    {} (← j.untagged .call)

/-- A statement; `null` is a gap. -/
def toStatement : Json → Except DecodeError (Option Call)
  | null => .ok none
  | j => j.toCall.map some

/-- A program. -/
def toProgram (j : Json) : Except DecodeError Program := do
  updateObject
    [(ascii "statements", fun p j => (j.list? toStatement).map ({ p with statements := · })),
      (ascii "span", fun p j => (updateSpan p.span j).map ({ p with span := · }))]
    {} (← j.untagged .program)

/-- Read a text as JSON, then the JSON as a node. -/
def decode {α : Type} (node : Json → Except DecodeError α) (t : Text) : Except DecodeError α :=
  match read? t with
  | some j => node j
  | none => .error .malformed

end Json

end MacroCalls
