import SmallJava.Diagnostic

/-!
# The state of a parse

A parse takes tokens from a list, from left to right. Its state is the tokens not yet taken, the last one
taken, the problems reported, and whether the parse has been halted.

When something is wrong, a parser reports it and bails out, and whoever can recover discards tokens up to a
place where parsing can go on. The functions here are the steps of that: reporting, halting, and the two ways
to measure how much to discard. Every such step is logged as an `Event`.
-/

namespace SmallJava

/-- What a parse is given, besides tokens. -/
structure Setup where
  /-- The name of the text. -/
  name : String
  /-- How deeply constructs may be nested. -/
  maxDepth : Nat
  /-- How many errors are reported before the parse is halted. -/
  maxErrors : Option Nat
  /-- The marker behind the last token. -/
  endMarker : Lexeme
deriving Repr

/-- A step of error recovery. -/
inductive Event where
  /-- Parsing goes on at a new line after a malformed token. -/
  | resumed (position : LineCol)
  /-- The rest of the text is given up. -/
  | halted (position : LineCol) (errors : Nat)
  /-- Tokens up to a statement boundary have been discarded. -/
  | resynchronized (skipped : Nat) (position : LineCol)
deriving DecidableEq, Repr

namespace Event

/-- What the log calls an event. -/
def message : Event → String
  | .resumed _ => "resume after lexical error"
  | .halted .. => "parse halted"
  | .resynchronized .. => "resynchronized"

/-- The details of an event, by name. -/
def details : Event → List (String × String)
  | .resumed position => [("at", position.text)]
  | .halted position errors => [("at", position.text), ("errors", toString errors)]
  | .resynchronized skipped position => [("skipped", toString skipped), ("at", position.text)]

end Event

/-- How far a parse has got. -/
structure State where
  /-- The tokens not yet taken. -/
  rest : List Lexeme
  /-- The token taken last. -/
  last : Option Lexeme := none
  /-- The problems reported, in order. -/
  problems : Diagnostics := []
  /-- Whether the rest of the text has been given up; then nothing more is reported. -/
  halted : Bool := false
  /-- The steps of error recovery, in order. -/
  log : List Event := []

namespace State

/-- The current token: the first one not yet taken, or the end marker. -/
def current (setup : Setup) (s : State) : Lexeme := s.rest.headD setup.endMarker

/-- Takes `n` tokens, or all if there are fewer. -/
def skip (s : State) (n : Nat) : State :=
  { s with rest := s.rest.drop n, last := (s.rest.take n).getLast?.or s.last }

/-- Adds an event to the log. -/
def note (s : State) (e : Event) : State := { s with log := s.log ++ [e] }

/-- Gives up the rest of the text. -/
def stop (setup : Setup) (s : State) : State :=
  if s.halted then s
  else
    { (s.note (.halted (s.current setup).location.first s.problems.length)).skip s.rest.length with
      halted := true }

/-- Adds a problem at a location. -/
def addProblem (setup : Setup) (p : Problem) (loc : Location) (s : State) : State :=
  { s with problems := s.problems ++ [{ problem := p, location := loc, source := setup.name }] }

/-- Reports a problem, unless the parse has been halted. The last problem that the limit allows halts the parse,
and that too is a problem. -/
def report (setup : Setup) (p : Problem) (loc : Location) (s : State) : State :=
  if s.halted then s
  else
    let s := s.addProblem setup p loc
    match setup.maxErrors with
    | some limit =>
      if limit ≤ s.problems.length then (s.stop setup).addProblem setup .tooManyErrors loc else s
    | none => s

theorem stop_of_halted {setup : Setup} {s : State} (h : s.halted = true) : s.stop setup = s := if_pos h

theorem report_of_halted {setup : Setup} {s : State} (h : s.halted = true) (p : Problem) (loc : Location) :
    s.report setup p loc = s :=
  if_pos h

/-- The location from `start` to the end of the last token taken; empty if none was taken since `start`. -/
def spanFrom (s : State) (start : Location) : Location :=
  match s.last with
  | some l => if l.location.span.stop ≤ start.span.start then start.atStart else start.through l.location
  | none => start.atStart

/-- Whether the last token taken is malformed and `x` stands on a later line: then the scanner has already
reported what is wrong. -/
def afterMalformed (s : State) (x : Lexeme) : Bool :=
  match s.last with
  | some l => l.token = .invalid && l.location.last.line < x.location.first.line
  | none => false

end State

/-! ## How much to discard -/

/-- Whether a token is a statement boundary. -/
def isBoundary : Token → Bool
  | .semi | .lBrace | .rBrace | .eof | .kwIf | .kwDo | .kwWhile | .kwFor | .kwTry | .kwReturn | .kwClass
  | .kwPublic | .kwPrivate | .kwProtected | .kwStatic => true
  | _ => false

/-- Whether a name followed by this token looks like the start of a statement. -/
def followsName (t : Token) : Bool :=
  match t with
  | .ident | .dot | .inc | .dec => true
  | t => t.isAssign

/-- Whether `x` is the first token of a line, after `last`, and looks like the start of a statement. -/
def startsLine (last : Option Lexeme) (x : Lexeme) (following : List Lexeme) : Bool :=
  x.token = .ident
    && last.any (·.location.last.line < x.location.first.line)
    && following.head?.any (followsName ·.token)

/-- The number of tokens before the first statement boundary. -/
def boundaryDistance : Option Lexeme → List Lexeme → Nat
  | _, [] => 0
  | last, x :: r =>
    if isBoundary x.token || startsLine last x r then 0 else boundaryDistance (some x) r + 1

/-- The number of tokens before the parenthesis that closes at nesting level zero, or before a token that no
expression in parentheses goes beyond. -/
def closerDistance : Int → List Lexeme → Nat
  | _, [] => 0
  | nest, x :: r =>
    match x.token with
    | .semi | .lBrace | .rBrace => 0
    | .rParen => if nest = 0 then 0 else closerDistance (nest - 1) r + 1
    | .lParen | .lSquare => closerDistance (nest + 1) r + 1
    | .rSquare => closerDistance (nest - 1) r + 1
    | _ => closerDistance nest r + 1

namespace State

/-- Discards tokens up to a statement boundary, and the boundary too if it is a semicolon. -/
def synchronize (setup : Setup) (s : State) : State :=
  let distance := boundaryDistance s.last s.rest
  let skipped := if (s.rest.drop distance).head?.any (·.token = .semi) then distance + 1 else distance
  let s := s.skip skipped
  s.note (.resynchronized skipped (s.current setup).location.first)

/-- Gives up a statement that starts with `start`. Tokens up to a statement boundary are discarded if `sync` says
so, and `start` is discarded in any case. -/
def abandon (setup : Setup) (start : Lexeme) (sync : Bool) (s : State) : State :=
  let s := if sync then s.synchronize setup else s
  let x := s.current setup
  if x.location.span.start = start.location.span.start ∧ x.token ≠ .eof then s.skip 1 else s

/-- Discards tokens up to the closing parenthesis, or to a statement boundary. -/
def skipToCloser (s : State) : State := s.skip (closerDistance 0 s.rest)

end State

end SmallJava
