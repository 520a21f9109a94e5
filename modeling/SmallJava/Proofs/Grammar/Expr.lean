import SmallJava.Parser.Expr

/-!
# The grammar of expressions

The tokens that an expression may be made of, and the tree that they stand for, as an inductive relation with
one constructor for each production. A production says how the tokens are put together and what the node
above them is; the location of a node is the `extent` of its tokens.

* `Mode` — whether derivations may use more than the grammar: error productions stand for what a parser makes
  of text that it does not understand;
* `QualName`, `Brackets`, `TypeRef` — names and types;
* `DerivesExpr` — expressions, with `ExprSymbol` the symbols of the grammar.

`Mode.plain` is the grammar of the language; `Mode.tight` also asks that assignments have proper targets.
-/

namespace SmallJava

/-- From the start of the first token to the end of the last one. -/
def extent : List Lexeme → Location
  | [] => default
  | x :: xs => x.location.through (xs.getLastD x).location

/-- A token as a name. -/
def Lexeme.ident (x : Lexeme) : Ident := { location := x.location, name := x.text }

/-- A token as a literal. -/
def Lexeme.literal (x : Lexeme) : Literal := { location := x.location, kind := x.token, text := x.text }

namespace Grammar

/-- What a derivation may use besides the productions of the language. -/
structure Mode where
  /-- Bad nodes may stand for tokens. -/
  errors : Prop
  /-- Braces may be left open. -/
  opens : Prop
  /-- Tokens behind a `try` statement may be given up. -/
  halts : Prop
  /-- Anything may be assigned to, and a `try` statement needs no handler. -/
  lax : Prop

namespace Mode

/-- The grammar of the language. -/
def plain : Mode := { errors := False, opens := False, halts := False, lax := True }

/-- The grammar of the language, with proper targets of assignments and handlers for every `try`. -/
def tight : Mode := { errors := False, opens := False, halts := False, lax := False }

/-- All error productions. -/
def lenient : Mode := { errors := True, opens := True, halts := True, lax := True }

end Mode

/-! ## Names and types -/

/-- `QualName := IDENT ('.' IDENT)*`, as a type without dimensions. -/
inductive QualName : List Lexeme → TypeName → Prop where
  | single {x : Lexeme} : x.token = .ident →
      QualName [x] { location := extent [x], name := x.text, dims := 0 }
  | dotted {xs : List Lexeme} {t : TypeName} {d x : Lexeme} :
      QualName xs t → d.token = .dot → x.token = .ident →
      QualName (xs ++ [d, x])
        { location := extent (xs ++ [d, x]), name := t.name ++ utf8 "." ++ x.text, dims := 0 }

/-- `('[' ']')*`, with the number of pairs. -/
inductive Brackets : List Lexeme → Nat → Prop where
  | none : Brackets [] 0
  | pair {l r : Lexeme} {xs : List Lexeme} {n : Nat} :
      l.token = .lSquare → r.token = .rSquare → Brackets xs n → Brackets (l :: r :: xs) (n + 1)

/-- `Type := QualName ('[' ']')*` -/
inductive TypeRef : List Lexeme → TypeName → Prop where
  | mk {xs ys : List Lexeme} {t : TypeName} {n : Nat} :
      QualName xs t → Brackets ys n →
      TypeRef (xs ++ ys) { location := extent (xs ++ ys), name := t.name, dims := n }

/-! ## Expressions -/

/-- The symbols of the grammar of expressions. -/
inductive ExprSymbol where
  /-- `Expr := Binary 1 (AssignOp Expr)?` -/
  | expr
  /-- `Binary p := Binary p BinaryOp Binary (p + 1) | Binary (p + 1)`, and `Binary 7 := Unary` -/
  | binary (precedence : Nat)
  /-- `Unary := ('!' | '-' | '+' | '++' | '--') Unary | Chain ('++' | '--')?` -/
  | unary
  /-- `Chain := Operand ( '[' Expr ']' | Arguments | '.' IDENT )*` -/
  | chain
  /-- `Operand := Literal | IDENT | '(' Expr ')' | Array | New` -/
  | operand
  /-- `Items := Expr (',' Expr)*` -/
  | items
  /-- `Arguments := '(' Items? ')'` -/
  | arguments
  /-- `Array := '{' (Items ','?)? '}'` -/
  | array

/-- **The grammar of expressions.** `DerivesExpr m symbol xs ts`: the tokens `xs` are derived from `symbol`, and the
trees of the derivation are `ts`; every symbol but `items` and `arguments` has one tree. -/
inductive DerivesExpr (m : Mode) : ExprSymbol → List Lexeme → List Expr → Prop where
  -- `Expr`
  | value {xs : List Lexeme} {x : Expr} : DerivesExpr m (.binary 1) xs [x] → DerivesExpr m .expr xs [x]
  | assign {xs ys : List Lexeme} {op : Lexeme} {x v : Expr} :
      DerivesExpr m (.binary 1) xs [x] → op.token.isAssign = true → m.lax ∨ x.isAssignable = true →
      DerivesExpr m .expr ys [v] →
      DerivesExpr m .expr (xs ++ op :: ys) [.assign (extent (xs ++ op :: ys)) op.token x v]
  -- `Binary`
  | joined {p : Nat} {xs ys : List Lexeme} {op : Lexeme} {x y : Expr} :
      DerivesExpr m (.binary p) xs [x] → op.token.precedence? = some p →
      DerivesExpr m (.binary (p + 1)) ys [y] →
      DerivesExpr m (.binary p) (xs ++ op :: ys) [.binary (extent (xs ++ op :: ys)) op.token x y]
  | tighter {p : Nat} {xs : List Lexeme} {x : Expr} :
      p ≤ 6 → DerivesExpr m (.binary (p + 1)) xs [x] → DerivesExpr m (.binary p) xs [x]
  | term {xs : List Lexeme} {x : Expr} : DerivesExpr m .unary xs [x] → DerivesExpr m (.binary 7) xs [x]
  -- `Unary`
  | signed {op : Lexeme} {xs : List Lexeme} {x : Expr} :
      Parser.isPrefixOperator op.token = true → DerivesExpr m .unary xs [x] →
      DerivesExpr m .unary (op :: xs) [.unary (extent (op :: xs)) op.token x .before]
  | unsigned {xs : List Lexeme} {x : Expr} : DerivesExpr m .chain xs [x] → DerivesExpr m .unary xs [x]
  | stepped {xs : List Lexeme} {op : Lexeme} {x : Expr} :
      DerivesExpr m .chain xs [x] → op.token = .inc ∨ op.token = .dec →
      DerivesExpr m .unary (xs ++ [op]) [.unary (extent (xs ++ [op])) op.token x .after]
  -- `Chain`
  | start {xs : List Lexeme} {x : Expr} : DerivesExpr m .operand xs [x] → DerivesExpr m .chain xs [x]
  | index {xs ys : List Lexeme} {l r : Lexeme} {x i : Expr} :
      DerivesExpr m .chain xs [x] → l.token = .lSquare → DerivesExpr m .expr ys [i] → r.token = .rSquare →
      DerivesExpr m .chain (xs ++ l :: (ys ++ [r])) [.index (extent (xs ++ l :: (ys ++ [r]))) x i]
  | call {xs ys : List Lexeme} {x : Expr} {args : List Expr} :
      DerivesExpr m .chain xs [x] → DerivesExpr m .arguments ys args →
      DerivesExpr m .chain (xs ++ ys) [.call (extent (xs ++ ys)) x args]
  | select {xs : List Lexeme} {d i : Lexeme} {x : Expr} :
      DerivesExpr m .chain xs [x] → d.token = .dot → i.token = .ident →
      DerivesExpr m .chain (xs ++ [d, i]) [.select (extent (xs ++ [d, i])) x i.ident]
  -- `Operand`
  | literal {x : Lexeme} : x.token.isLiteral = true → DerivesExpr m .operand [x] [.literal x.literal]
  | ident {x : Lexeme} : x.token = .ident → DerivesExpr m .operand [x] [.ident x.ident]
  | paren {l r : Lexeme} {xs : List Lexeme} {x : Expr} :
      l.token = .lParen → DerivesExpr m .expr xs [x] → r.token = .rParen →
      DerivesExpr m .operand (l :: (xs ++ [r])) [.paren (extent (l :: (xs ++ [r]))) x]
  | arrayOperand {xs : List Lexeme} {x : Expr} : DerivesExpr m .array xs [x] → DerivesExpr m .operand xs [x]
  -- `New := 'new' QualName Arguments | 'new' QualName '[' Expr ']' ('[' ']')* | 'new' QualName ('[' ']')+ Array`
  | newObject {kw : Lexeme} {xs ys : List Lexeme} {t : TypeName} {args : List Expr} :
      kw.token = .kwNew → QualName xs t → DerivesExpr m .arguments ys args →
      DerivesExpr m .operand (kw :: (xs ++ ys)) [.new (extent (kw :: (xs ++ ys))) t args none none]
  | newLength {kw l r : Lexeme} {xs ys zs : List Lexeme} {t : TypeName} {len : Expr} {n : Nat} :
      kw.token = .kwNew → QualName xs t → l.token = .lSquare → DerivesExpr m .expr ys [len] →
      r.token = .rSquare → Brackets zs n →
      DerivesExpr m .operand (kw :: (xs ++ l :: (ys ++ r :: zs)))
        [.new (extent (kw :: (xs ++ l :: (ys ++ r :: zs)))) { t with dims := n + 1 } [] (some len) none]
  | newElements {kw : Lexeme} {xs ys : List Lexeme} {t : TypeName} {a : ArrayLit} :
      kw.token = .kwNew → TypeRef xs t → 0 < t.dims → DerivesExpr m .array ys [.array a] →
      DerivesExpr m .operand (kw :: (xs ++ ys)) [.new (extent (kw :: (xs ++ ys))) t [] none (some a)]
  -- error production: a malformed token
  | malformed {x : Lexeme} : m.errors → x.token = .invalid → DerivesExpr m .operand [x] [.bad x.location]
  -- `Items`
  | one {xs : List Lexeme} {x : Expr} : DerivesExpr m .expr xs [x] → DerivesExpr m .items xs [x]
  | more {xs ys : List Lexeme} {c : Lexeme} {x : Expr} {ts : List Expr} :
      DerivesExpr m .expr xs [x] → c.token = .comma → DerivesExpr m .items ys ts →
      DerivesExpr m .items (xs ++ c :: ys) (x :: ts)
  -- `Arguments`
  | noArguments {l r : Lexeme} : l.token = .lParen → r.token = .rParen → DerivesExpr m .arguments [l, r] []
  | someArguments {l r : Lexeme} {xs : List Lexeme} {ts : List Expr} :
      l.token = .lParen → DerivesExpr m .items xs ts → r.token = .rParen →
      DerivesExpr m .arguments (l :: (xs ++ [r])) ts
  -- `Array`
  | noElements {l r : Lexeme} : l.token = .lBrace → r.token = .rBrace →
      DerivesExpr m .array [l, r] [.array (.mk (extent [l, r]) [])]
  | elements {l r : Lexeme} {xs : List Lexeme} {ts : List Expr} :
      l.token = .lBrace → DerivesExpr m .items xs ts → r.token = .rBrace →
      DerivesExpr m .array (l :: (xs ++ [r])) [.array (.mk (extent (l :: (xs ++ [r]))) ts)]
  | elementsComma {l c r : Lexeme} {xs : List Lexeme} {ts : List Expr} :
      l.token = .lBrace → DerivesExpr m .items xs ts → c.token = .comma → r.token = .rBrace →
      DerivesExpr m .array (l :: (xs ++ [c, r])) [.array (.mk (extent (l :: (xs ++ [c, r]))) ts)]

end Grammar

end SmallJava
