import SmallJava.Text.Decimal
import SmallJava.Text.StringLiteral
import SmallJava.Tree.Basic

/-!
# The values of literals

A literal has a value of the kind it is of. To ask for a value of another kind, or for the value of a text that
does not spell one, is an error.
-/

namespace SmallJava

/-- Why a literal has no value of the kind asked for. -/
inductive LiteralError where
  | notInteger (text : Bytes)
  | notNumeric (text : Bytes)
  | notBoolean (text : Bytes)
  | notString (text : Bytes)
deriving DecidableEq, Repr

/-- The wording of an error. -/
def LiteralError.message : LiteralError → Bytes
  | .notInteger text => utf8 "not an integer literal: " ++ text
  | .notNumeric text => utf8 "not a numeric literal: " ++ text
  | .notBoolean text => utf8 "not a Boolean literal: " ++ text
  | .notString text => utf8 "not a string literal: " ++ text

namespace Literal

/-- The value of an integer literal. -/
def integer (l : Literal) : Except LiteralError Int :=
  match l.kind, Decimal.integer? l.text with
  | .integer, some v => .ok v
  | _, _ => .error (.notInteger l.text)

/-- The value of an integer or floating-point literal. -/
def float (l : Literal) : Except LiteralError Float :=
  match l.kind, Decimal.float? l.text with
  | .integer, some v => .ok v
  | .float, some v => .ok v
  | _, _ => .error (.notNumeric l.text)

/-- The value of a Boolean literal. -/
def boolean (l : Literal) : Except LiteralError Bool :=
  match l.kind with
  | .trueWord => .ok true
  | .falseWord => .ok false
  | _ => .error (.notBoolean l.text)

/-- The value of a string literal. -/
def string (l : Literal) : Except LiteralError Bytes :=
  match l.kind, StringLiteral.unquote l.text with
  | .string, .ok v => .ok v
  | _, _ => .error (.notString l.text)

end Literal

end SmallJava
