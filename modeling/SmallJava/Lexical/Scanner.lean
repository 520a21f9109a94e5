import SmallJava.Lexical.Piece

/-!
# Scanners

A `Scanner` goes through the pieces of a source one token at a time. It stands at a current token, collects
the problems of the pieces it has passed, and passes over comments unless it is told to keep them. At the end
it stays at an end marker.
-/

namespace SmallJava

/-- A position in the pieces of a source. -/
structure Scanner where
  source : Source
  /-- Whether comments are tokens. -/
  keepComments : Bool := false
  /-- The pieces not yet passed. -/
  pending : List Piece
  /-- The current token, its offset and its text. -/
  token : Token := .invalid
  start : Nat := 0
  text : Bytes := []
  /-- Whether the last step found the end of the text. -/
  atEnd : Bool := false
  /-- The problems found so far. -/
  diagnostics : Diagnostics := []

namespace Scanner

/-- A scanner before the first token. -/
def ofSource (s : Source) : Scanner := { source := s, pending := s.pieces }

/-- Goes on to the next token among `pieces`, with the problems `ds` found before them. -/
def seek (s : Scanner) (ds : Diagnostics) : List Piece → Scanner
  | [] =>
    { s with
      pending := [], token := .eof, start := s.source.size, text := [], atEnd := true,
      diagnostics := ds }
  | p :: ps =>
    let ds := ds ++ p.diagnostics s.source
    match p.token with
    | none => seek s ds ps
    | some t =>
      if t.isComment && !s.keepComments then seek s ds ps
      else
        { s with
          pending := ps, token := t, start := p.start, text := p.text, atEnd := false,
          diagnostics := ds }

/-- Goes on to the next token. -/
def next (s : Scanner) : Scanner := s.seek s.diagnostics s.pending

/-- The span of the current token. -/
def span (s : Scanner) : Span := ⟨s.start, s.start + s.text.length⟩

/-- The location of the current token. -/
def location (s : Scanner) : Location := s.source.location s.span

/-- The current token with its text and location. -/
def lexeme (s : Scanner) : Lexeme := { token := s.token, text := s.text, location := s.location }

/-- All tokens from the next one on, the end marker included, and the scanner at the end. -/
def drain (s : Scanner) : List Lexeme × Scanner :=
  go s.pending.length s
where
  /-- Every token takes a piece, so that the number of pieces bounds the tokens before the end marker. -/
  go : Nat → Scanner → List Lexeme × Scanner
    | 0, s => let s := s.next; ([s.lexeme], s)
    | n + 1, s =>
      let s := s.next
      if s.atEnd then ([s.lexeme], s)
      else let (xs, last) := go n s; (s.lexeme :: xs, last)

end Scanner

end SmallJava
