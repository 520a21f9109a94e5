import SmallJava.Text.Bytes

/-!
# The text of string literals

A string literal stands between double quotes. Inside, a backslash before a quote or before another
backslash stands for that byte; before any other byte it is an ordinary byte itself. A literal holds no
line break.

* `StringLiteral.quote` — the literal of a value;
* `StringLiteral.unquote` — the value of a literal.
-/

namespace SmallJava.StringLiteral

/-- Why a text has no literal, or a literal no value. -/
inductive Failure where
  /-- A value with a line break has no literal. -/
  | lineBreak
  /-- The text does not stand between double quotes. -/
  | missingQuotes
  /-- The text ends in a backslash that nothing follows. -/
  | incompleteEscape
deriving DecidableEq, Repr

/-- The wording of a failure. -/
def Failure.message : Failure → String
  | .lineBreak => "string contains a line break"
  | .missingQuotes => "missing quotations"
  | .incompleteEscape => "incomplete escape sequence"

/-- Whether a byte needs a backslash before it, and loses one when it is read back. -/
def isEscaped (b : UInt8) : Bool := b == byte '"' || b == byte '\\'

/-- The inside of the literal of a value. -/
def escape (value : Bytes) : Bytes :=
  value.flatMap fun b => if isEscaped b then [byte '\\', b] else [b]

/-- The literal of a value. -/
def quote (value : Bytes) : Except Failure Bytes :=
  if value.contains (byte '\n') then .error .lineBreak
  else .ok (byte '"' :: escape value ++ [byte '"'])

/-- The value of the inside of a literal: everything up to a backslash is taken as it is, then the backslash and
the byte after it. -/
def unescape (text : Bytes) : Except Failure Bytes :=
  let chunk := text.takeWhile (· != byte '\\')
  match h : text.dropWhile (· != byte '\\') with
  | [] => .ok chunk
  | [_] => .error .incompleteEscape
  | slash :: b :: rest => do
    have : rest.length < text.length := by
      have := (List.dropWhile_suffix (l := text) (· != byte '\\')).length_le
      simp only [h, List.length_cons] at this
      omega
    let value ← unescape rest
    return chunk ++ (if isEscaped b then [b] else [slash, b]) ++ value
termination_by text.length

/-- The value of a literal. -/
def unquote (text : Bytes) : Except Failure Bytes :=
  match text with
  | q :: r =>
    if q = byte '"' ∧ r.getLast? = some (byte '"') then unescape r.dropLast
    else .error .missingQuotes
  | [] => .error .missingQuotes

end SmallJava.StringLiteral
