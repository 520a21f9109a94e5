import SmallJava.Diagnostic
import SmallJava.Source

/-!
# Cutting a text into pieces

A text is a sequence of pieces: blanks, comments, tokens, and characters that belong nowhere. `cut` says
what the piece at the start of a text is, by its first byte and the longest continuation, and
`Source.pieces` cuts a whole source. Every piece is as long as its kind allows, and together they are the
text.

A piece may carry a fault. A malformed number or string is an invalid token, an unfinished comment is
still a comment, and a stray character is no token at all; in each case cutting goes on behind the piece.
-/

namespace SmallJava

/-! ## Classes of bytes -/

/-- Space, carriage return, line feed, tab or form feed. -/
def isBlank (b : UInt8) : Bool :=
  b == byte ' ' || b == byte '\r' || b == byte '\n' || b == byte '\t' || b == 0x0C

/-- A decimal digit. -/
def isDigit (b : UInt8) : Bool := byte '0' ≤ b && b ≤ byte '9'

/-- An ASCII letter or an underscore: what a word starts with. -/
def isLetter (b : UInt8) : Bool :=
  (byte 'a' ≤ b && b ≤ byte 'z') || (byte 'A' ≤ b && b ≤ byte 'Z') || b == byte '_'

/-- A letter or a digit: what a word goes on with. -/
def isWordByte (b : UInt8) : Bool := isLetter b || isDigit b

/-! ## One piece -/

/-- What the start of a text is: how many bytes, which token if any, and a problem with the first so many of
these bytes. -/
structure Cut where
  size : Nat
  token : Option Token := none
  fault : Option (Problem × Nat) := none
deriving DecidableEq, Repr

/-- The number of bytes at the start of `text` that satisfy `p`. -/
def run (p : UInt8 → Bool) (text : Bytes) : Nat := (text.takeWhile p).length

/-- A word: an identifier or a reserved word. -/
def cutWord (text : Bytes) : Cut :=
  let size := run isWordByte text
  { size := size, token := some (Token.ofWord (text.take size)) }

/-- The size of a decimal point and the digits behind it; zero if no digit follows the point. -/
def fractionSize : Bytes → Nat
  | p :: r => if p = byte '.' ∧ 0 < run isDigit r then 1 + run isDigit r else 0
  | [] => 0

/-- A number: digits and perhaps a fraction. One that runs into a word is malformed, and the word belongs to
it. -/
def cutNumber (text : Bytes) : Cut :=
  let whole := run isDigit text
  let fraction := fractionSize (text.drop whole)
  let number := whole + fraction
  let excess := run isWordByte (text.drop number)
  if 0 < excess then
    let size := number + excess
    { size := size, token := some .invalid, fault := some (.malformedNumber (text.take size), size) }
  else { size := number, token := some (if 0 < fraction then .float else .integer) }

/-- How far a string literal reaches behind its opening quote, and whether it is closed there. A backslash
hides the byte after it, unless that is a line feed; an open literal ends before the line feed. -/
def stringEnd : Bytes → Nat × Bool
  | [] => (0, false)
  | b :: r =>
    if b = byte '"' then (1, true)
    else if b = byte '\n' then (0, false)
    else if b = byte '\\' then
      match r with
      | [] => (1, false)
      | c :: r' =>
        if c = byte '\n' then (1, false)
        else let (n, closed) := stringEnd r'; (n + 2, closed)
    else let (n, closed) := stringEnd r; (n + 1, closed)

/-- A string literal, whose opening quote `text` starts with. One that is not closed on its line is invalid; a
carriage return before the line break is not part of it. -/
def cutString (text : Bytes) : Cut :=
  let (n, closed) := stringEnd (text.drop 1)
  if closed then { size := 1 + n, token := some .string }
  else
    let size := if (text.take (1 + n)).getLast? = some (byte '\r') then n else 1 + n
    { size := size, token := some .invalid, fault := some (.unterminatedString, size) }

/-- A line comment, which `text` starts with: up to the line feed. -/
def cutLineComment (text : Bytes) : Cut :=
  { size := run (· != byte '\n') text, token := some .lineComment }

/-- The number of bytes up to and including the first end of a block comment. -/
def commentEnd? : Bytes → Option Nat
  | [] => none
  | b :: r =>
    if b = byte '*' ∧ r.head? = some (byte '/') then some 2 else (commentEnd? r).map (· + 1)

/-- A block comment, which `text` starts with: up to its first end. One without an end takes all the rest, and
its opening is at fault. -/
def cutBlockComment (text : Bytes) : Cut :=
  match commentEnd? (text.drop 2) with
  | some n => { size := 2 + n, token := some .blockComment }
  | none =>
    { size := text.length, token := some .blockComment, fault := some (.unterminatedComment, 2) }

/-- A character that belongs nowhere. -/
def cutStray (text : Bytes) : Cut :=
  let (c, size) := match Utf8.first? text with
    | some c => (c, c.utf8Size)
    | none => ('\uFFFD', 1)
  { size := size, fault := some (.unexpectedCharacter c, size) }

/-- What the text `b :: r` starts with. -/
def cut (b : UInt8) (r : Bytes) : Cut :=
  if isBlank b then { size := 1 }
  else if isLetter b then cutWord (b :: r)
  else if isDigit b then cutNumber (b :: r)
  else if b = byte '"' then cutString (b :: r)
  else if b = byte '/' ∧ r.head? = some (byte '/') then cutLineComment (b :: r)
  else if b = byte '/' ∧ r.head? = some (byte '*') then cutBlockComment (b :: r)
  else match Token.operatorAt? (b :: r) with
    | some (spelling, t) => { size := spelling.length, token := some t }
    | none => cutStray (b :: r)

/-! ## All pieces -/

/-- A piece of a text: the offset at which it starts, its bytes, its token if it has one, and a problem with its
first so many bytes. -/
structure Piece where
  start : Nat
  text : Bytes
  token : Option Token
  fault : Option (Problem × Nat)
deriving DecidableEq, Repr

/-- The pieces of a text that starts at offset `start`; its first `skip` bytes belong to a piece already
made. -/
def piecesFrom (start : Nat) : Nat → Bytes → List Piece
  | _, [] => []
  | skip + 1, _ :: r => piecesFrom (start + 1) skip r
  | 0, b :: r =>
    let c := cut b r
    { start := start, text := (b :: r).take c.size, token := c.token, fault := c.fault }
      :: piecesFrom (start + 1) (c.size - 1) r

namespace Piece

/-- The token of a piece, with its text and location in the source. -/
def lexeme? (s : Source) (p : Piece) : Option Lexeme :=
  p.token.map fun t =>
    { token := t, text := p.text, location := s.location ⟨p.start, p.start + p.text.length⟩ }

/-- The fault of a piece, as a diagnostic of the source. -/
def diagnostics (s : Source) (p : Piece) : Diagnostics :=
  match p.fault with
  | none => []
  | some (problem, size) =>
    [{ problem := problem, location := s.location ⟨p.start, p.start + size⟩, source := s.name }]

end Piece

namespace Source

/-- The pieces of the whole text. -/
def pieces (s : Source) : List Piece := piecesFrom 0 0 s.text

/-- All tokens and comments of the text, without the end marker. -/
def lexemes (s : Source) : List Lexeme := s.pieces.filterMap (Piece.lexeme? s)

/-- The tokens of the text, without comments and without the end marker. -/
def tokens (s : Source) : List Lexeme := s.lexemes.filter fun x => !x.token.isComment

/-- The comments of the text. -/
def comments (s : Source) : List Lexeme := s.lexemes.filter (·.token.isComment)

/-- The lexical problems of the text. -/
def faults (s : Source) : Diagnostics := s.pieces.flatMap (Piece.diagnostics s)

/-- The marker at the end of the text. -/
def endMarker (s : Source) : Lexeme :=
  { token := .eof, text := [], location := s.location ⟨s.size, s.size⟩ }

end Source

end SmallJava
