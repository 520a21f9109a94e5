import SmallJava.Lexical.Lexeme
import SmallJava.StableSort
import SmallJava.Text.Quoted
import SmallJava.Text.Utf8

/-!
# Diagnostics

A `Diagnostic` says what is wrong with a text, where and how badly.

* `Problem` — the causes, with `Problem.code` their stable identifiers and `Problem.message` their wording;
* `Diagnostic.text` — the line that is shown for a diagnostic;
* `Diagnostics.sorted`, `Diagnostics.merge` — source order; `Diagnostics.summary?` — all errors in one text.
-/

namespace SmallJava

/-- How bad a problem is. -/
inductive Severity where
  /-- The text is malformed. -/
  | error
  /-- The text is suspicious but usable. -/
  | warning
deriving DecidableEq, Repr, Inhabited

/-- The word for a severity. -/
def Severity.name : Severity → String
  | .error => "error"
  | .warning => "warning"

/-- The stable identifier of a kind of problem. -/
inductive Code where
  | unexpectedCharacter | unterminatedString | unterminatedComment | malformedNumber
  | unexpectedToken | tryRequiresCatchOrFinally | unterminatedBlock | maxNestingDepthExceeded
  | invalidAssignmentTarget | tooManyErrors
  /-- An identifier that the scanner and the parser do not use. -/
  | other (name : String)
deriving DecidableEq, Repr, Inhabited

namespace Code

/-- The spelling of an identifier. -/
def name : Code → String
  | .unexpectedCharacter => "UnexpectedCharacter"
  | .unterminatedString => "UnterminatedString"
  | .unterminatedComment => "UnterminatedComment"
  | .malformedNumber => "MalformedNumber"
  | .unexpectedToken => "UnexpectedToken"
  | .tryRequiresCatchOrFinally => "TryRequiresCatchOrFinally"
  | .unterminatedBlock => "UnterminatedBlock"
  | .maxNestingDepthExceeded => "MaxNestingDepthExceeded"
  | .invalidAssignmentTarget => "InvalidAssignmentTarget"
  | .tooManyErrors => "TooManyErrors"
  | .other n => n

/-- The identifiers that the scanner and the parser use. -/
def known : List Code :=
  [.unexpectedCharacter, .unterminatedString, .unterminatedComment, .malformedNumber,
   .unexpectedToken, .tryRequiresCatchOrFinally, .unterminatedBlock, .maxNestingDepthExceeded,
   .invalidAssignmentTarget, .tooManyErrors]

/-- The identifier with the given spelling. -/
def ofName (s : String) : Code := (known.find? (·.name = s)).getD (.other s)

end Code

/-- What can be wrong with a text. -/
inductive Problem where
  /-- A character that starts no token. -/
  | unexpectedCharacter (c : Char)
  /-- A string literal without its closing quote. -/
  | unterminatedString
  /-- A block comment without its end. -/
  | unterminatedComment
  /-- A number that runs into a word. -/
  | malformedNumber (text : Bytes)
  /-- One of the tokens `wanted` should stand where `got` stands. -/
  | expectedToken (wanted : List Token) (got : Lexeme)
  /-- An expression should start where `got` stands. -/
  | expectedExpression (got : Lexeme)
  /-- A `try` block that nothing handles. -/
  | tryWithoutHandler
  /-- A block that is open at the end of the text; its brace stands at `opened`. -/
  | unterminatedBlock (opened : LineCol)
  /-- More constructs inside each other than `limit`. -/
  | nestedTooDeeply (limit : Nat)
  /-- An assignment to something that cannot be assigned to. -/
  | cannotAssign (target : String)
  /-- So many problems that the rest is not looked at. -/
  | tooManyErrors
  /-- A problem found by someone else, in their words. -/
  | noted (code : Code) (message : Bytes)
deriving DecidableEq, Repr

namespace Problem

/-- The identifier of a problem's kind. -/
def code : Problem → Code
  | .unexpectedCharacter _ => .unexpectedCharacter
  | .unterminatedString => .unterminatedString
  | .unterminatedComment => .unterminatedComment
  | .malformedNumber _ => .malformedNumber
  | .expectedToken .. => .unexpectedToken
  | .expectedExpression _ => .unexpectedToken
  | .tryWithoutHandler => .tryRequiresCatchOrFinally
  | .unterminatedBlock _ => .unterminatedBlock
  | .nestedTooDeeply _ => .maxNestingDepthExceeded
  | .cannotAssign _ => .invalidAssignmentTarget
  | .tooManyErrors => .tooManyErrors
  | .noted code _ => code

/-- Alternatives in a sentence: commas between all but the last two. -/
def alternatives : List Token → String
  | [] => ""
  | [t] => t.name
  | [t, u] => t.name ++ " or " ++ u.name
  | t :: ts => t.name ++ ", " ++ alternatives ts

/-- The wording of a problem. -/
def message : Problem → Bytes
  | .unexpectedCharacter c => utf8 "unexpected character " ++ utf8 (Quoted.char c)
  | .unterminatedString => utf8 "string literal not terminated"
  | .unterminatedComment => utf8 "block comment not terminated"
  | .malformedNumber text => utf8 "malformed number " ++ utf8 (Quoted.string (Utf8.decode text))
  | .expectedToken wanted got =>
    utf8 "expected " ++ utf8 (alternatives wanted) ++ utf8 ", got " ++ got.describe
  | .expectedExpression got => utf8 "expected expression, got " ++ got.describe
  | .tryWithoutHandler => utf8 "\"try\" requires a \"catch\" or \"finally\" clause"
  | .unterminatedBlock opened => utf8 "missing \"\x7d\" for \"\x7b\" at " ++ utf8 opened.text
  | .nestedTooDeeply limit => utf8 "nesting depth exceeds " ++ utf8 (toString limit)
  | .cannotAssign target => utf8 "cannot assign to " ++ utf8 target
  | .tooManyErrors => utf8 "too many errors"
  | .noted _ message => message

end Problem

/-- A problem at a place. -/
structure Diagnostic where
  problem : Problem
  location : Location
  /-- The name of the text, empty if it has none. -/
  source : String
  severity : Severity := .error
deriving DecidableEq, Repr

namespace Diagnostic

/-- The identifier of the kind of problem. -/
def code (d : Diagnostic) : Code := d.problem.code

/-- The wording of the problem. -/
def message (d : Diagnostic) : Bytes := d.problem.message

/-- The line shown for a diagnostic: source name if there is one, position, a mark for a warning, message. -/
def text (d : Diagnostic) : Bytes :=
  utf8 (if d.source = "" then "" else d.source ++ ":") ++ utf8 d.location.first.text ++ utf8 ": "
    ++ utf8 (if d.severity = .warning then "warning: " else "") ++ d.message

/-- Whether `d` starts before `e`: the sign of the difference of their offsets as a signed 64-bit word. -/
def before (d e : Diagnostic) : Bool := word (d.location.span.start - e.location.span.start) < 0

end Diagnostic

/-- Diagnostics in the order in which they were found. -/
abbrev Diagnostics := List Diagnostic

namespace Diagnostics

/-- Whether there is an error among them. -/
def hasErrors (ds : Diagnostics) : Bool := ds.any (·.severity = .error)

/-- How many have the given identifier. -/
def countCode (ds : Diagnostics) (c : Code) : Nat := ds.countP (·.code = c)

/-- All errors, a line each, or nothing if there are none. -/
def summary? (ds : Diagnostics) : Option Bytes :=
  match ds.filter (·.severity = .error) with
  | [] => none
  | es => some (Bytes.join (utf8 "\n") (es.map (·.text)))

/-- Ordered by starting offset; those at one offset keep their order. -/
def sorted (ds : Diagnostics) : Diagnostics := stableSort Diagnostic.before ds

/-- Several lists as one, ordered by starting offset. -/
def merge (lists : List Diagnostics) : Diagnostics := sorted lists.flatten

end Diagnostics

end SmallJava
