import SmallJava.Parser.State
import SmallJava.Tree.Basic

/-!
# Parsers

A parser reads part of a tree from the tokens of a state. It may bail out, and then the state is what it has
come to. This module has the small parsers that the grammar is made of, the two ways to recover, and the
lookahead that tells declarations from expressions.

A construct that is nested in another one is read by a parser that has one level less to spend; `nested`
halts the parse when there is no level left. A list is read by `loop`, which runs a step until the step says
that it is done. Each step takes a token, so the number of tokens bounds the number of steps; a loop that
went on longer would bail out as stalled, and nobody recovers from that.
-/

namespace SmallJava

/-- How a parser gives up. -/
inductive Bailout where
  /-- Tokens have to be discarded before parsing goes on. -/
  | resync
  /-- Parsing goes on at the current token. -/
  | resume
  /-- A loop went on longer than there were tokens. -/
  | stalled
deriving DecidableEq, Repr

/-- A parser. -/
abbrev Parser := ReaderT Setup (EStateM Bailout State)

namespace Parser

/-! ## Tokens -/

/-- The current token. -/
def current : Parser Lexeme := do return (← get).current (← read)

/-- The kind of the current token. -/
def token : Parser Token := do return (← current).token

/-- Takes the current token. -/
def next : Parser Lexeme := do
  let s ← get
  let x ← current
  set { s with rest := s.rest.tail, last := some x }
  return x

/-- Takes the current token if it is of kind `t`, and says whether it did. -/
def got (t : Token) : Parser Bool := do
  if (← token) = t then
    let _ ← next
    return true
  else return false

/-- The location from `start` to the end of the last token taken. -/
def spanFrom (start : Location) : Parser Location := do return (← get).spanFrom start

/-! ## Problems -/

/-- Reports a problem and goes on. -/
def report (p : Problem) (loc : Location) : Parser Unit := do
  let setup ← read
  modify (·.report setup p loc)

/-- Reports a problem at the current token and bails out. After a malformed token on an earlier line there is
nothing to report. -/
def fail {α : Type} (p : Problem) : Parser α := do
  let x ← current
  if (← get).afterMalformed x then
    modify (·.note (.resumed x.location.first))
    throw .resume
  else
    report p x.location
    throw .resync

/-- Reports a problem at the current token, gives up the rest of the text and bails out. -/
def halt {α : Type} (p : Problem) : Parser α := do
  let setup ← read
  report p (← current).location
  modify (·.stop setup)
  throw .resync

/-- Takes the current token, which has to be of kind `t`. -/
def want (t : Token) : Parser Lexeme := do
  let x ← current
  if x.token = t then next else fail (.expectedToken [t] x)

/-- Goes one level deeper, if there is one left. -/
def nested {ι α : Type} (inner : Option ι) (p : ι → Parser α) : Parser α := do
  match inner with
  | some i => p i
  | none => halt (.nestedTooDeeply (← read).maxDepth)

/-! ## Repetition -/

/-- Runs `step` until it is done. It is run at most once for every token in `bound` and once more; if it is not
done then, the loop has stalled. -/
def loopWithin {α : Type} (step : α → Parser (ForInStep α)) (bound : List Lexeme) (a : α) : Parser α := do
  match ← step a with
  | .done a => return a
  | .yield a =>
    match bound with
    | [] => throw .stalled
    | _ :: bound => loopWithin step bound a

/-- Runs `step` until it is done. A step that is not the last takes a token, so there are at most as many of them
as tokens, and the last. -/
def loop {α : Type} (a : α) (step : α → Parser (ForInStep α)) : Parser α := do
  loopWithin step (← get).rest a

/-- One more item, and the comma if another one follows. -/
def itemStep {α : Type} (item : Parser α) (items : List α) : Parser (ForInStep (List α)) := do
  let items := items ++ [← item]
  if ← got .comma then return .yield items else return .done items

/-- One or more items, with commas between them. -/
def separated {α : Type} (item : Parser α) : Parser (List α) := loop [] (itemStep item)

/-- Items with commas between them, or none if the current token is the one that ends them. -/
def separatedUntil {α : Type} (ending : Token) (item : Parser α) : Parser (List α) := do
  if (← token) = ending then return [] else separated item

/-- Takes the current token if it is of kind `t`, and then reads what has to follow it. -/
def optionalAfter {α : Type} (t : Token) (p : Parser α) : Parser (Option α) := do
  if ← got t then return some (← p) else return none

/-! ## Recovery -/

/-- Goes on after a statement that started with `start` and failed: the statement is then the text discarded. -/
def abandonStmt (start : Lexeme) (b : Bailout) : Parser Stmt := do
  if b = .stalled then throw b
  else
    let setup ← read
    modify (·.abandon setup start (b = .resync))
    return .bad (← spanFrom start.location)

/-- Reads a statement. If that fails, discards tokens up to a place where the next statement may start; the
statement is then the text discarded. At least one token is taken. -/
def recoverStmt (p : Parser Stmt) : Parser Stmt := do
  let start ← current
  tryCatch p (abandonStmt start)

/-- Reads an expression up to a closing parenthesis, which is left. -/
def upToCloser (p : Parser Expr) : Parser Expr := do
  let x ← p
  let t ← current
  if t.token = .rParen then return x else fail (.expectedToken [.rParen] t)

/-- Goes on after an expression that started with `start` and failed: the expression is then the text discarded. -/
def abandonExpr (start : Lexeme) (b : Bailout) : Parser Expr := do
  if b ≠ .resync ∨ (← get).halted then throw b
  else
    modify (·.skipToCloser)
    return .bad (← spanFrom start.location)

/-- Reads an expression up to a closing parenthesis, which is left. If that fails, discards tokens up to the
parenthesis; the expression is then the text discarded. -/
def recoverExpr (p : Parser Expr) : Parser Expr := do
  let start ← current
  tryCatch (upToCloser p) (abandonExpr start)

/-! ## Names and types -/

/-- A name. -/
def ident : Parser Ident := do
  let x ← want .ident
  return { location := x.location, name := x.text }

/-- Adds a dot and a name, if they follow, to a dotted name. -/
def dottedStep (t : TypeName) : Parser (ForInStep TypeName) := do
  match (← get).rest with
  | x :: y :: _ =>
    if x.token = .dot ∧ y.token = .ident then
      let _ ← next
      let id ← next
      return .yield
        { t with location := t.location.through id.location, name := t.name ++ utf8 "." ++ id.text }
    else return .done t
  | _ => return .done t

/-- A dotted name, as a type without dimensions. -/
def qualifiedName : Parser TypeName := do
  let first ← want .ident
  loop { location := first.location, name := first.text, dims := 0 } dottedStep

/-- Adds an empty pair of brackets, if one follows, to the dimensions of a type, and, if `extend`, to its
location. -/
def bracketsStep (extend : Bool) (t : TypeName) : Parser (ForInStep TypeName) := do
  match (← get).rest with
  | x :: y :: _ =>
    if x.token = .lSquare ∧ y.token = .rSquare then
      let _ ← next
      let close ← next
      return .yield
        { t with
          location := if extend then t.location.through close.location else t.location,
          dims := t.dims + 1 }
    else return .done t
  | _ => return .done t

/-- Adds the empty pairs of brackets that follow to the dimensions of a type, and, if `extend`, to its
location. -/
def dimensions (t : TypeName) (extend : Bool) : Parser TypeName := loop t (bracketsStep extend)

/-- The name of a type, with its dimensions. -/
def typeName : Parser TypeName := do dimensions (← qualifiedName) true

/-! ## Lookahead -/

/-- What follows the dotted rest of a name. -/
def afterDots : List Lexeme → List Lexeme
  | x :: y :: r => if x.token = .dot ∧ y.token = .ident then afterDots r else x :: y :: r
  | xs => xs

/-- What follows empty pairs of brackets. -/
def afterBrackets : List Lexeme → List Lexeme
  | x :: y :: r => if x.token = .lSquare ∧ y.token = .rSquare then afterBrackets r else x :: y :: r
  | xs => xs

/-- What follows the name of a type, if the tokens start with one. -/
def afterTypeName? : List Lexeme → Option (List Lexeme)
  | x :: r => if x.token = .ident then some (afterBrackets (afterDots r)) else none
  | [] => none

/-- Whether the tokens start with a type and a name. -/
def startsVarDecl (xs : List Lexeme) : Bool :=
  match afterTypeName? xs with
  | some (x :: _) => x.token = .ident
  | _ => false

/-- Whether the tokens start with a type, a name and an opening parenthesis. -/
def startsMethodDecl (xs : List Lexeme) : Bool :=
  match afterTypeName? xs with
  | some (x :: y :: _) => x.token = .ident && y.token = .lParen
  | _ => false

/-- Whether a variable declaration starts here. -/
def atVarDecl : Parser Bool := do return startsVarDecl (← get).rest

/-- Whether a method declaration starts here. -/
def atMethodDecl : Parser Bool := do return startsMethodDecl (← get).rest

end Parser

end SmallJava
