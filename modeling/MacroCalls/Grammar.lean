import MacroCalls.Token.Scanner

/-!
# Terminals of the grammar

    program   = "fn" "main" "(" ")" "{" statement* "}"
    statement = macro name "(" arguments ")" ";"
    arguments = (literal ",")* literal?

The terminals of the grammar are classes of tokens: the keywords, the punctuation marks, macro
names, string literals and the end of the input. Each class has a description, by which messages
call it.
-/

namespace MacroCalls

/-- A class of tokens: those of one kind and, unless `text` is empty, with that text. -/
structure Terminal where
  kind : Token.Kind
  text : Text := []
  deriving DecidableEq, Repr

namespace Terminal

/-- Whether a token belongs to the class. -/
def admits (e : Terminal) (t : Token) : Bool :=
  t.kind = e.kind && (e.text.isEmpty || t.text = e.text)

/-- How a class is called in messages. -/
def description (e : Terminal) : Text :=
  if e.text.isEmpty then
    match e.kind with
    | .macroName => ascii "macro name"
    | .literal => ascii "string literal"
    | .endOfInput => ascii "end of input"
    | .identifier => ascii "identifier"
    | .invalid | .punctuation => ascii "token"
  else Text.quoteMark :: e.text ++ [Text.quoteMark]

/-- A keyword. -/
def keyword (word : String) : Terminal := ⟨.identifier, ascii word⟩

/-- A punctuation mark. -/
def mark (b : UInt8) : Terminal := ⟨.punctuation, [b]⟩

end Terminal

end MacroCalls
