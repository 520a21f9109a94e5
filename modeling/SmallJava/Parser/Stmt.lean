import SmallJava.Parser.Expr

/-!
# Reading statements and declarations

Blocks and class bodies go one level deeper. A `Level` has what a statement at one nesting level is made of:
the parser for its expressions, and the parser for the statements inside its blocks, if there is a level left
for them. Each statement of a block, of a class and of the whole text recovers on its own.
-/

namespace SmallJava.Parser

/-- The parsers at one nesting level. -/
structure Level where
  /-- An expression at this level. -/
  expr : Parser Expr
  /-- A statement inside a block of this level. -/
  inside : Option (Parser Stmt)

/-! ## Braces -/

/-- One more statement, unless a closing brace or the end of the text is reached. -/
def stmtStep (stmt : Parser Stmt) (stmts : List Stmt) : Parser (ForInStep (List Stmt)) := do
  let t ← token
  if t = .rBrace ∨ t = .eof then return .done stmts
  else return .yield (stmts ++ [← recoverStmt stmt])

/-- Statements up to a closing brace or the end of the text, each recovering on its own. -/
def statements (stmt : Parser Stmt) : Parser (List Stmt) := loop [] (stmtStep stmt)

/-- Takes the brace that closes `opened`, and gives the location of the whole. At the end of the text the missing
brace is reported. -/
def closeBrace (opened : Lexeme) : Parser Location := do
  let x ← current
  if x.token = .eof then
    report (.unterminatedBlock opened.location.first) x.location
    spanFrom opened.location
  else
    let closed ← want .rBrace
    return opened.location.through closed.location

/-- Statements between braces. -/
def block (l : Level) : Parser Block := nested l.inside fun stmt => do
  let opened ← want .lBrace
  let stmts ← statements stmt
  return .mk (← closeBrace opened) stmts

/-! ## Statements -/

/-- A condition in parentheses. A malformed one is replaced by a bad expression. -/
def condition (l : Level) : Parser Expr := do
  let _ ← want .lParen
  let x ← recoverExpr l.expr
  let _ ← want .rParen
  return x

/-- A variable declaration without its semicolon. -/
def varDecl (l : Level) (start : Location) (modifiers : List Token) : Parser VarDecl := do
  let type ← typeName
  let name ← ident
  let init ← optionalAfter .assign l.expr
  return { location := ← spanFrom start, modifiers, type, name, init }

/-- One more arm of a conditional: an `else if`, or the `else` at the end. -/
def armStep (l : Level) (arms : List ElseIf × Option Block) :
    Parser (ForInStep (List ElseIf × Option Block)) := do
  if (← token) = .kwElse then
    let kw ← next
    if ← got .kwIf then
      let cond ← condition l
      let body ← block l
      return .yield (arms.1 ++ [.mk (kw.location.through body.location) cond body], none)
    else return .done (arms.1, some (← block l))
  else return .done (arms.1, none)

/-- The arms of a conditional: each `else if`, and an `else` at the end. -/
def arms (l : Level) : Parser (List ElseIf × Option Block) := loop ([], none) (armStep l)

/-- A conditional. -/
def ifStmt (l : Level) : Parser Stmt := do
  let kw ← want .kwIf
  let cond ← condition l
  let body ← block l
  let (elseIfs, otherwise) ← arms l
  return .ifElse (← spanFrom kw.location) cond body elseIfs otherwise

/-- A loop with its condition in front. -/
def whileStmt (l : Level) : Parser Stmt := do
  let kw ← want .kwWhile
  let cond ← condition l
  let body ← block l
  return .whileLoop (← spanFrom kw.location) cond body

/-- A loop with its condition at the end. -/
def doWhileStmt (l : Level) : Parser Stmt := do
  let kw ← want .kwDo
  let body ← block l
  let _ ← want .kwWhile
  let cond ← condition l
  let _ ← want .semi
  return .doWhile (← spanFrom kw.location) body cond

/-- An expression, unless the current token is the one that ends it. -/
def optionalExpr (l : Level) (ending : Token) : Parser (Option Expr) := do
  if (← token) = ending then return none else return some (← l.expr)

/-- The first clause of a counted loop. -/
def forInit (l : Level) : Parser (Option Stmt) := do
  if ← atVarDecl then return some (.varDecl (← varDecl l (← current).location []))
  else
    match ← optionalExpr l .semi with
    | some x => return some (.expr x.location x)
    | none => return none

/-- A counted loop, each of whose clauses may be absent. -/
def forStmt (l : Level) : Parser Stmt := do
  let kw ← want .kwFor
  let _ ← want .lParen
  let init ← forInit l
  let _ ← want .semi
  let cond ← optionalExpr l .semi
  let _ ← want .semi
  let update ← optionalExpr l .rParen
  let _ ← want .rParen
  let body ← block l
  return .forLoop (← spanFrom kw.location) init cond update body

/-- One more `catch` clause of a protected block, if one follows. -/
def catchStep (l : Level) (clauses : List CatchClause) : Parser (ForInStep (List CatchClause)) := do
  if (← token) = .kwCatch then
    let kw ← next
    let _ ← want .lParen
    let type ← typeName
    let name ← ident
    let _ ← want .rParen
    let body ← block l
    return .yield (clauses ++ [.mk (kw.location.through body.location) type name body])
  else return .done clauses

/-- The `catch` clauses of a protected block. -/
def catchClauses (l : Level) : Parser (List CatchClause) := loop [] (catchStep l)

/-- A protected block. One that nothing handles is reported, and read all the same. -/
def tryStmt (l : Level) : Parser Stmt := do
  let kw ← want .kwTry
  let body ← block l
  let catches ← catchClauses l
  let cleanup ← optionalAfter .kwFinally (block l)
  let loc ← spanFrom kw.location
  if catches.isEmpty && cleanup.isNone then report .tryWithoutHandler loc
  return .tryCatch loc body catches cleanup

/-- A return statement. -/
def returnStmt (l : Level) : Parser Stmt := do
  let kw ← want .kwReturn
  let result ← optionalExpr l .semi
  let _ ← want .semi
  return .ret (← spanFrom kw.location) result

/-- A declaration or an expression, and a semicolon. -/
def simpleStmt (l : Level) : Parser Stmt := do
  if ← atVarDecl then
    let d ← varDecl l (← current).location []
    let semi ← want .semi
    return .varDecl { d with location := d.location.through semi.location }
  else
    let x ← l.expr
    let semi ← want .semi
    return .expr (x.location.through semi.location) x

/-- A statement at a level. -/
def stmtAt (l : Level) : Parser Stmt := do
  match ← token with
  | .lBrace => return .block (← block l)
  | .semi => return .empty (← next).location
  | .kwIf => ifStmt l
  | .kwWhile => whileStmt l
  | .kwDo => doWhileStmt l
  | .kwFor => forStmt l
  | .kwTry => tryStmt l
  | .kwReturn => returnStmt l
  | _ => simpleStmt l

/-- A statement, with `depth` levels of nesting left. -/
def stmt (depth : Nat) : Parser Stmt :=
  match depth with
  | 0 => stmtAt { expr := expr 0, inside := none }
  | depth + 1 => stmtAt { expr := expr (depth + 1), inside := some (stmt depth) }

/-- The parsers with `depth` levels of nesting left. -/
def level (depth : Nat) : Level :=
  { expr := expr depth, inside := match depth with | 0 => none | depth + 1 => some (stmt depth) }

theorem stmt_eq_stmtAt (depth : Nat) : stmt depth = stmtAt (level depth) := by
  cases depth <;> rfl

/-- The level inside a class body, with `depth` levels of nesting left outside. -/
def levelInside (depth : Nat) : Option Level :=
  match depth with
  | 0 => none
  | depth + 1 => some (level depth)

/-! ## Declarations -/

/-- Access and storage modifiers. -/
def modifiers : Parser (List Token) := do
  let mods := ((← get).rest.takeWhile (·.token.isModifier)).map (·.token)
  modify (·.skip mods.length)
  return mods

/-- A parameter. -/
def param : Parser Param := do
  let start ← current
  let type ← typeName
  let name ← ident
  return { location := ← spanFrom start.location, type, name }

/-- A method, after its modifiers. -/
def methodDecl (l : Level) (start : Location) (modifiers : List Token) : Parser Stmt := do
  let result ← typeName
  let name ← ident
  let _ ← want .lParen
  let params ← separatedUntil .rParen param
  let _ ← want .rParen
  let body ← block l
  return .methodDecl (← spanFrom start) modifiers result name params body

/-- A method or a field of a class. -/
def member (l : Level) : Parser Stmt := do
  let start := (← current).location
  let mods ← modifiers
  if ← atMethodDecl then methodDecl l start mods
  else
    let d ← varDecl l start mods
    let _ ← want .semi
    return .varDecl { d with location := ← spanFrom start }

/-- A class, after its modifiers. -/
def classDecl (inside : Option Level) (start : Location) (modifiers : List Token) : Parser Stmt := do
  let _ ← want .kwClass
  let name ← ident
  nested inside fun l => do
    let opened ← want .lBrace
    let members ← statements (member l)
    let loc ← closeBrace opened
    return .classDecl (start.through loc) modifiers name members

/-- A statement or declaration of the whole text, with `depth` levels of nesting left. Classes and methods stand
only here. -/
def topStmt (depth : Nat) : Parser Stmt := do
  let x ← current
  if x.token.isModifier || x.token = .kwClass || (← atMethodDecl) then
    let mods ← modifiers
    if (← token) = .kwClass then classDecl (levelInside depth) x.location mods
    else if ← atMethodDecl then methodDecl (level depth) x.location mods
    else fail (.expectedToken [.kwClass, .ident] (← current))
  else stmt depth

/-- One more statement or declaration, unless the end of the text is reached. -/
def topStep (depth : Nat) (stmts : List Stmt) : Parser (ForInStep (List Stmt)) := do
  if (← token) = .eof then return .done stmts
  else return .yield (stmts ++ [← recoverStmt (topStmt depth)])

/-- All statements and declarations up to the end of the text. -/
def topStmts (depth : Nat) : Parser (List Stmt) := loop [] (topStep depth)

end SmallJava.Parser
