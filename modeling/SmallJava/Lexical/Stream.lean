import SmallJava.Lexical.Scanner

/-!
# Token streams

A `Stream` reads tokens from a scanner ahead of their use. The current token and any number of tokens behind
it can be looked at before they are taken. Comments are never tokens of the stream; those read while
somebody listens are delivered to the listener. Behind the last token there are only end markers.
-/

namespace SmallJava

/-- A buffer of lookahead over a scanner. -/
structure Stream where
  scanner : Scanner
  /-- Whether somebody listens for comments. -/
  listening : Bool := false
  /-- The tokens read but not taken; the first is the current token. -/
  buffer : List Lexeme := []
  /-- The token taken last. -/
  last : Lexeme := default

namespace Stream

/-- A stream over a scanner. -/
def ofScanner (s : Scanner) : Stream := { scanner := s }

/-- A stream over a source. -/
def ofSource (s : Source) : Stream := ofScanner (.ofSource s)

/-- Starts or stops listening for comments. -/
def listen (s : Stream) (listening : Bool) : Stream :=
  { s with listening := listening, scanner := { s.scanner with keepComments := listening } }

/-- The comments that `scanner` passes before its next token, and the scanner at that token. Every comment takes
a piece, so that the number of pieces bounds their number. -/
def skipComments : Nat → Scanner → List Lexeme × Scanner
  | 0, s => ([], s.next)
  | n + 1, s =>
    let s := s.next
    if s.token.isComment then
      let (xs, last) := skipComments n s
      (s.lexeme :: xs, last)
    else ([], s)

/-- Reads one token into the buffer, and gives the comments delivered on the way. -/
def pull (s : Stream) : List Lexeme × Stream :=
  let (xs, scanner) := skipComments s.scanner.pending.length s.scanner
  (if s.listening then xs else [],
    { s with scanner := scanner, buffer := s.buffer ++ [scanner.lexeme] })

/-- Reads `n` tokens into the buffer, and gives the comments delivered on the way. -/
def pullMany : Nat → Stream → List Lexeme × Stream
  | 0, s => ([], s)
  | n + 1, s =>
    let (xs, s) := s.pull
    let (ys, s) := pullMany n s
    (xs ++ ys, s)

/-- Reads until the buffer holds at least `n` tokens. -/
def fill (s : Stream) (n : Nat) : List Lexeme × Stream := pullMany (n - s.buffer.length) s

/-- The token `n` places behind the current one; there is none before it. With it come the comments delivered by
looking so far ahead. -/
def peek? (s : Stream) (n : Int) : Option Lexeme × List Lexeme × Stream :=
  if n < 0 then (none, [], s)
  else
    let (xs, s) := s.fill (n.toNat + 1)
    (s.buffer[n.toNat]?, xs, s)

/-- Takes the current token. The last end marker stays. -/
def next (s : Stream) : Lexeme × List Lexeme × Stream :=
  let (xs, s) := s.fill 1
  match s.buffer with
  | [] => (s.last, xs, s)
  | x :: r =>
    (x, xs, { s with last := x, buffer := if x.token = .eof ∧ r = [] then [x] else r })

end Stream

end SmallJava
