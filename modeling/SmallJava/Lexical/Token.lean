import SmallJava.Text.Bytes

/-!
# Tokens

The kinds of token of the language, in a fixed order: markers, names and literals, keywords, operators
and punctuation, comments.

* `Token.spelling` — the fixed text of a keyword, an operator or a literal word;
* `Token.name` — what a message calls the token;
* `Token.reserved`, `Token.operators` — the tables that the scanner reads.
-/

namespace SmallJava

/-- A kind of token. -/
inductive Token where
  | invalid | eof | ident | integer | float | string
  | trueWord | falseWord | nullWord
  | kwIf | kwElse | kwDo | kwWhile | kwFor | kwTry | kwCatch | kwFinally
  | kwNew | kwReturn | kwClass | kwPublic | kwPrivate | kwProtected | kwStatic
  | lBrace | rBrace | lParen | rParen | lSquare | rSquare | semi | comma | dot
  | plus | minus | star | slash | percent | inc | dec
  | addAssign | subAssign | mulAssign | divAssign
  | eq | ne | lt | le | gt | ge | andAnd | orOr | not | assign
  | blockComment | lineComment
deriving DecidableEq, Repr, Inhabited

namespace Token

/-- The tokens in their order. -/
def all : List Token :=
  [.invalid, .eof, .ident, .integer, .float, .string, .trueWord, .falseWord, .nullWord,
   .kwIf, .kwElse, .kwDo, .kwWhile, .kwFor, .kwTry, .kwCatch, .kwFinally,
   .kwNew, .kwReturn, .kwClass, .kwPublic, .kwPrivate, .kwProtected, .kwStatic,
   .lBrace, .rBrace, .lParen, .rParen, .lSquare, .rSquare, .semi, .comma, .dot,
   .plus, .minus, .star, .slash, .percent, .inc, .dec,
   .addAssign, .subAssign, .mulAssign, .divAssign,
   .eq, .ne, .lt, .le, .gt, .ge, .andAnd, .orOr, .not, .assign,
   .blockComment, .lineComment]

/-- The token at position `n` of the order; past its end every number stands for the invalid token. -/
def ofIndex (n : Nat) : Token := all.getD n .invalid

/-- The fixed text of a token, empty for tokens whose text varies. -/
def spelling : Token → String
  | .trueWord => "true" | .falseWord => "false" | .nullWord => "null"
  | .kwIf => "if" | .kwElse => "else" | .kwDo => "do" | .kwWhile => "while" | .kwFor => "for"
  | .kwTry => "try" | .kwCatch => "catch" | .kwFinally => "finally" | .kwNew => "new"
  | .kwReturn => "return" | .kwClass => "class" | .kwPublic => "public" | .kwPrivate => "private"
  | .kwProtected => "protected" | .kwStatic => "static"
  | .lBrace => "\x7b" | .rBrace => "\x7d" | .lParen => "(" | .rParen => ")"
  | .lSquare => "[" | .rSquare => "]" | .semi => ";" | .comma => "," | .dot => "."
  | .plus => "+" | .minus => "-" | .star => "*" | .slash => "/" | .percent => "%"
  | .inc => "++" | .dec => "--"
  | .addAssign => "+=" | .subAssign => "-=" | .mulAssign => "*=" | .divAssign => "/="
  | .eq => "==" | .ne => "!=" | .lt => "<" | .le => "<=" | .gt => ">" | .ge => ">="
  | .andAnd => "&&" | .orOr => "||" | .not => "!" | .assign => "="
  | .invalid | .eof | .ident | .integer | .float | .string | .blockComment | .lineComment => ""

/-- Whether the token is a keyword. -/
def isKeyword : Token → Bool
  | .kwIf | .kwElse | .kwDo | .kwWhile | .kwFor | .kwTry | .kwCatch | .kwFinally
  | .kwNew | .kwReturn | .kwClass | .kwPublic | .kwPrivate | .kwProtected | .kwStatic => true
  | _ => false

/-- Whether the token is a literal. -/
def isLiteral : Token → Bool
  | .integer | .float | .string | .trueWord | .falseWord | .nullWord => true
  | _ => false

/-- Whether the token is a comment. -/
def isComment : Token → Bool
  | .blockComment | .lineComment => true
  | _ => false

/-- Whether the token is an assignment operator. -/
def isAssign : Token → Bool
  | .assign | .addAssign | .subAssign | .mulAssign | .divAssign => true
  | _ => false

/-- Whether the token is an access or storage modifier. -/
def isModifier : Token → Bool
  | .kwPublic | .kwPrivate | .kwProtected | .kwStatic => true
  | _ => false

/-- Whether the token is an operator or a punctuation mark. -/
def isOperator : Token → Bool
  | .lBrace | .rBrace | .lParen | .rParen | .lSquare | .rSquare | .semi | .comma | .dot
  | .plus | .minus | .star | .slash | .percent | .inc | .dec
  | .addAssign | .subAssign | .mulAssign | .divAssign
  | .eq | .ne | .lt | .le | .gt | .ge | .andAnd | .orOr | .not | .assign => true
  | _ => false

/-- The text of an operator or a punctuation mark, and nothing for any other token. -/
def operatorText (t : Token) : String := if t.isOperator then t.spelling else ""

/-- The token as a word: its spelling if it has one, else a description. -/
def word : Token → String
  | .invalid => "invalid token"
  | .eof => "end of input"
  | .ident => "identifier"
  | .integer => "integer"
  | .float => "float"
  | .string => "string"
  | .blockComment => "block comment"
  | .lineComment => "line comment"
  | t => t.spelling

/-- What a message calls the token: keywords and operators stand between quotes. -/
def name (t : Token) : String :=
  if t.isKeyword || t.isOperator then "\"" ++ t.word ++ "\"" else t.word

/-- The token with the given name. -/
def ofName? (s : String) : Option Token := all.find? (·.name = s)

/-- The words that are no identifiers, with their tokens. -/
def reserved : List (Bytes × Token) :=
  (all.filter fun t => t.isKeyword || t = .trueWord || t = .falseWord || t = .nullWord).map
    fun t => (utf8 t.spelling, t)

/-- Whether a word is reserved. -/
def isReserved (w : Bytes) : Bool := (reserved.lookup w).isSome

/-- The token of a word: a reserved word is its own token, and every other word is an identifier. -/
def ofWord (w : Bytes) : Token := (reserved.lookup w).getD .ident

/-- The operators and punctuation marks with their texts, those of two bytes before those of one: the first
entry that a text starts with is the longest. -/
def operators : List (Bytes × Token) :=
  let table := (all.filter isOperator).map fun t => (utf8 t.spelling, t)
  table.filter (·.1.length = 2) ++ table.filter (·.1.length = 1)

/-- The longest operator that a text starts with. -/
def operatorAt? (text : Bytes) : Option (Bytes × Token) := operators.find? (·.1.isPrefixOf text)

/-- The binding strength of a binary operator, from one (loosest) to six (tightest). -/
def precedence? : Token → Option Nat
  | .orOr => some 1
  | .andAnd => some 2
  | .eq | .ne => some 3
  | .lt | .le | .gt | .ge => some 4
  | .plus | .minus => some 5
  | .star | .slash | .percent => some 6
  | _ => none

end Token

end SmallJava
