import SmallJava.Parser.Basic

/-!
# Reading expressions

Assignments bind loosest and to the right; below them are six levels of binary operators, which bind to the
left, then prefix operators, postfix operators and operands.

A parser for one nesting level is made from the parsers for the level below it, its `Inner` parsers; the
parser for a nesting limit is built up level by level. Assignments, prefix operators, parentheses and array
literals go one level deeper.
-/

namespace SmallJava

namespace Expr

/-- Whether an expression may stand on the left of an assignment. -/
def isAssignable : Expr → Bool
  | .ident _ | .index .. | .select .. | .bad _ => true
  | .paren _ x => x.isAssignable
  | _ => false

/-- What a message calls an expression that cannot be assigned to. -/
def describe : Expr → String
  | .literal l => l.kind.name ++ " literal"
  | .call .. => "call result"
  | .unary _ op .. => op.name ++ " expression"
  | .binary _ op .. => op.name ++ " expression"
  | .assign .. => "assignment"
  | .new .. => "new expression"
  | .array _ => "array initializer"
  | _ => "expression"

end Expr

namespace Parser

/-- The parsers for expressions one level deeper. -/
structure Inner where
  /-- Any expression. -/
  expr : Parser Expr
  /-- An operand of a binary operator. -/
  unary : Parser Expr

/-! ## Operators -/

/-- Joins `x` and another operand, if an operator of the given precedence follows. -/
def binaryStep (precedence : Nat) (operand : Parser Expr) (x : Expr) : Parser (ForInStep Expr) := do
  let op ← current
  if op.token.precedence? = some precedence then
    let _ ← next
    let y ← operand
    return .yield (.binary (x.location.through y.location) op.token x y)
  else return .done x

/-- Operands joined by the operators of one precedence, from left to right. -/
def binaryLevel (precedence : Nat) (operand : Parser Expr) : Parser Expr := do
  loop (← operand) (binaryStep precedence operand)

/-- The `levels` tightest levels of binary operators, over operands. -/
def binaryLevels (operand : Parser Expr) : Nat → Parser Expr
  | 0 => operand
  | levels + 1 => binaryLevel (6 - levels) (binaryLevels operand levels)

/-- All levels of binary operators, over operands. -/
def binary (operand : Parser Expr) : Parser Expr := binaryLevels operand 6

/-- An expression: a binary expression, or an assignment to one. An assignment to something that cannot be
assigned to is reported, and read all the same. -/
def exprWith (inner : Option Inner) : Parser Expr := nested inner fun inner => do
  let x ← binary inner.unary
  if (← token).isAssign then
    let op ← next
    if !x.isAssignable then report (.cannotAssign x.describe) x.location
    let v ← inner.expr
    return .assign (x.location.through v.location) op.token x v
  else return x

/-! ## Operands -/

/-- Arguments between parentheses, with the closing one. -/
def arguments (expr : Parser Expr) : Parser (List Expr × Lexeme) := do
  let _ ← want .lParen
  let args ← separatedUntil .rParen expr
  return (args, ← want .rParen)

/-- One more element of an array literal, and the comma after it; or none before the closing brace. -/
def elementStep (expr : Parser Expr) (elems : List Expr) : Parser (ForInStep (List Expr)) := do
  if (← token) = .rBrace then return .done elems else itemStep expr elems

/-- An array literal. A comma after the last element is allowed. -/
def arrayLit (inner : Option Inner) : Parser ArrayLit := nested inner fun inner => do
  let opened ← want .lBrace
  let elems ← loop [] (elementStep inner.expr)
  let closed ← want .rBrace
  return .mk (opened.location.through closed.location) elems

/-- An allocation: `new` and a name, then arguments, or a length and perhaps more dimensions, or dimensions and
an array literal. -/
def allocation (inner : Option Inner) (expr : Parser Expr) : Parser Expr := do
  let kw ← want .kwNew
  let type ← qualifiedName
  match ← token with
  | .lParen =>
    let (args, _) ← arguments expr
    return .new (← spanFrom kw.location) type args none none
  | .lSquare =>
    if ((← get).rest.tail.head?).any (·.token = .rSquare) then
      let type ← dimensions type true
      let elems ← arrayLit inner
      return .new (← spanFrom kw.location) type [] none (some elems)
    else
      let _ ← next
      let len ← expr
      let _ ← want .rSquare
      let type ← dimensions type false
      return .new (← spanFrom kw.location) { type with dims := type.dims + 1 } [] (some len) none
  | _ => fail (.expectedToken [.lParen, .lSquare] (← current))

/-- An operand: a literal, a name, an expression in parentheses, an array literal or an allocation. A malformed
token has been reported by the scanner and is taken as it stands. -/
def primary (inner : Option Inner) (expr : Parser Expr) : Parser Expr := do
  let x ← current
  match x.token with
  | .integer | .float | .string | .trueWord | .falseWord | .nullWord =>
    let _ ← next
    return .literal { location := x.location, kind := x.token, text := x.text }
  | .ident => return .ident (← ident)
  | .lParen => nested inner fun inner => do
    let opened ← next
    let x ← inner.expr
    let closed ← want .rParen
    return .paren (opened.location.through closed.location) x
  | .lBrace => return .array (← arrayLit inner)
  | .kwNew => allocation inner expr
  | .invalid =>
    let _ ← next
    return .bad x.location
  | _ => fail (.expectedExpression x)

/-- An index, arguments, a selector, or an increment or decrement, which is the last thing applied to an
operand. -/
def suffixStep (expr : Parser Expr) (x : Expr) : Parser (ForInStep Expr) := do
  match ← token with
  | .lSquare =>
    let _ ← next
    let i ← expr
    let closed ← want .rSquare
    return .yield (.index (x.location.through closed.location) x i)
  | .lParen =>
    let (args, closed) ← arguments expr
    return .yield (.call (x.location.through closed.location) x args)
  | .dot =>
    let _ ← next
    let sel ← ident
    return .yield (.select (x.location.through sel.location) x sel)
  | .inc | .dec =>
    let op ← next
    return .done (.unary (x.location.through op.location) op.token x .after)
  | _ => return .done x

/-- All that is applied to an operand from the right. -/
def suffixes (expr : Parser Expr) (x : Expr) : Parser Expr := loop x (suffixStep expr)

/-- Whether a token is a prefix operator. -/
def isPrefixOperator : Token → Bool
  | .not | .minus | .plus | .inc | .dec => true
  | _ => false

/-- An operand of a binary operator: a prefix operator applied to another one, or an operand with what is applied
to it from the right. -/
def unaryWith (inner : Option Inner) : Parser Expr := do
  if isPrefixOperator (← token) then
    nested inner fun inner => do
      let op ← next
      let x ← inner.unary
      return .unary (op.location.through x.location) op.token x .before
  else
    let expr := exprWith inner
    suffixes expr (← primary inner expr)

/-! ## All levels -/

mutual

/-- An expression, with `depth` levels of nesting left. -/
def expr (depth : Nat) : Parser Expr :=
  match depth with
  | 0 => exprWith none
  | depth + 1 => exprWith (some { expr := expr depth, unary := unary depth })

/-- An operand of a binary operator, with `depth` levels of nesting left. -/
def unary (depth : Nat) : Parser Expr :=
  match depth with
  | 0 => unaryWith none
  | depth + 1 => unaryWith (some { expr := expr depth, unary := unary depth })

end

end Parser

end SmallJava
