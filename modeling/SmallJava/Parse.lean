import SmallJava.Lexical.Piece
import SmallJava.Options
import SmallJava.Parser.Stmt

/-!
# Parsing a source

`parse` reads a whole source. There is always a tree; what could not be understood is in it as bad nodes, and
the diagnostics, lexical and syntactic, say why, in the order of the text.
-/

namespace SmallJava

/-- What a parse gives. -/
structure Parsed where
  program : Program
  diagnostics : Diagnostics
  /-- The steps of error recovery. -/
  log : List Event

/-- What the parser is told about a source. -/
def Options.setup (o : Options) (s : Source) : Setup :=
  { name := s.name, maxDepth := o.depthLimit, maxErrors := o.errorLimit?, endMarker := s.endMarker }

/-- The comments of a source as nodes. -/
def Source.commentNodes (s : Source) : List Comment :=
  s.comments.map fun x => { location := x.location, text := x.text }

/-- The statements read from a source, and the state at the end. Reading the whole text never bails out, since every
statement recovers on its own. -/
def readStatements (o : Options) (s : Source) : List Stmt × State :=
  match Parser.topStmts o.depthLimit (o.setup s) { rest := s.tokens } with
  | .ok stmts final => (stmts, final)
  | .error _ final => ([], final)

/-- Parses a source. -/
def parse (o : Options) (s : Source) : Parsed :=
  let (stmts, final) := readStatements o s
  { program :=
      { location := s.extent, body := stmts, comments := if o.keepComments then s.commentNodes else [] }
    diagnostics := Diagnostics.merge [s.faults, final.problems]
    log := final.log }

/-- Parses a text that was read, if it is a source. -/
def parseInput (o : Options) (input : Except String Bytes) : Except SourceError Parsed :=
  (Source.read o.name input).map (parse o)

end SmallJava
