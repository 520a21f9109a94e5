import SmallJava.Lexical.Token
import SmallJava.Location

/-!
# Lexemes

A `Lexeme` is one token of a text: its kind, the bytes it was read from and where they stand.
`Lexeme.describe` is the form in which messages name it.
-/

namespace SmallJava

/-- A token with its text and location. The default value is an invalid token at no location. -/
structure Lexeme where
  token : Token
  text : Bytes
  location : Location
deriving DecidableEq, Repr, Inhabited

namespace Lexeme

/-- The longest text, in bytes, that a message shows in full. -/
def previewSize : Nat := 24

/-- The text as a message shows it: a longer one is cut and marked. -/
def preview (text : Bytes) : Bytes :=
  if previewSize < text.length then text.take previewSize ++ utf8 "..." else text

/-- How a message names the lexeme. Tokens whose text varies are shown with it. -/
def describe (x : Lexeme) : Bytes :=
  match x.token with
  | .ident | .integer | .float | .string | .invalid =>
    utf8 x.token.name ++ utf8 " <" ++ preview x.text ++ utf8 ">"
  | t => utf8 t.name

end Lexeme

end SmallJava
