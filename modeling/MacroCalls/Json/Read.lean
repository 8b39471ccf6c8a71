import MacroCalls.Json.Token

/-!
# Reading JSON

The tokens of a JSON text are put together to a value from left to right, with a stack of the
arrays and objects that are still open. Values may be nested `maxDepth` deep.
-/

namespace MacroCalls.Json

/-- An array or object that is still open, with what it holds so far, newest first. -/
inductive Frame where
  | array (items : List Json)
  /-- The value of `key` is being read. -/
  | object (members : List (Text × Json)) (key : Text)
  deriving Repr

/-- What comes next, inside the open arrays and objects of a stack. -/
inductive Reading where
  /-- A value. -/
  | value (stack : List Frame)
  /-- The first item of an array, or its end. -/
  | arrayStart (stack : List Frame)
  /-- The first key of an object, or its end. -/
  | objectStart (stack : List Frame)
  /-- A further key of an object. -/
  | key (members : List (Text × Json)) (stack : List Frame)
  /-- The colon behind a key. -/
  | colon (members : List (Text × Json)) (key : Text) (stack : List Frame)
  /-- What follows a finished value. -/
  | after (j : Json) (stack : List Frame)
  deriving Repr

/-- How deep arrays and objects may be nested. -/
def maxDepth : Nat := 10000

namespace Reading

/-- A token where a value comes next. -/
def stepValue (stack : List Frame) : Token → Option Reading
  | .atom j => some (after j stack)
  | .string s => some (after (.string s) stack)
  | .arrayOpen => if stack.length < maxDepth then some (arrayStart stack) else none
  | .objectOpen => if stack.length < maxDepth then some (objectStart stack) else none
  | _ => none

/-- A token behind a finished value, which goes into the innermost open array or object. -/
def stepAfter (j : Json) : List Frame → Token → Option Reading
  | .array items :: stack, .comma => some (value (.array (j :: items) :: stack))
  | .array items :: stack, .arrayClose => some (after (.array (j :: items).reverse) stack)
  | .object members k :: stack, .comma => some (key ((k, j) :: members) stack)
  | .object members k :: stack, .objectClose =>
    some (after (.object ((k, j) :: members).reverse) stack)
  | _, _ => none

/-- What comes next behind a token, if the token can stand there. -/
def step : Reading → Token → Option Reading
  | value stack, k => stepValue stack k
  | arrayStart stack, .arrayClose => some (after (.array []) stack)
  | arrayStart stack, k => stepValue (.array [] :: stack) k
  | objectStart stack, .objectClose => some (after (.object []) stack)
  | objectStart stack, .string s => some (colon [] s stack)
  | key members stack, .string s => some (colon members s stack)
  | colon members s stack, .colon => some (value (.object members s :: stack))
  | after j stack, k => stepAfter j stack k
  | _, _ => none

/-- Read tokens one by one. -/
def run (r : Reading) : List Token → Option Reading
  | [] => some r
  | k :: rest =>
    match r.step k with
    | some r => r.run rest
    | none => none

end Reading

/-- The value that tokens spell, if they spell exactly one. -/
def ofTokens? (tokens : List Token) : Option Json :=
  match (Reading.value []).run tokens with
  | some (.after j []) => some j
  | _ => none

/-- The value of a JSON text. -/
def read? (t : Text) : Option Json := (tokens? t).bind ofTokens?

end MacroCalls.Json
