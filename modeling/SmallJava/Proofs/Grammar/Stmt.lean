import SmallJava.Proofs.Grammar.Expr
import SmallJava.Tree.Node

/-!
# The grammar of statements and declarations

The grammar goes on from expressions to statements, members of classes and whole texts. What a loop of the
language repeats on the right (`else if` arms, `catch` clauses) is derived from left to right: a conditional is
a conditional with one arm less and the arm.

* `Condition`, `OptExpr`, `Declares`, `ForInit`, `IsParam`, `Params` — the parts of statements;
* `DerivesStmt` — statements and lists of them, with `StmtSymbol` the symbols of the grammar;
* `DerivesProgram` — whole texts.
-/

namespace SmallJava.Grammar

/-! ## Parts of statements -/

/-- `Condition := '(' Expr ')'`. As an error production, any tokens between the parentheses; a bad expression that
covers none of them stands right before the closing parenthesis. -/
inductive Condition (m : Mode) : List Lexeme → Expr → Prop where
  | good {l r : Lexeme} {xs : List Lexeme} {x : Expr} :
      l.token = .lParen → DerivesExpr m .expr xs [x] → r.token = .rParen → Condition m (l :: (xs ++ [r])) x
  | bad {l r : Lexeme} {xs : List Lexeme} :
      m.errors → l.token = .lParen → r.token = .rParen →
      Condition m (l :: (xs ++ [r])) (.bad (if xs = [] then r.location.atStart else extent xs))

/-- `Expr?` -/
inductive OptExpr (m : Mode) : List Lexeme → Option Expr → Prop where
  | none : OptExpr m [] none
  | some {xs : List Lexeme} {x : Expr} : DerivesExpr m .expr xs [x] → OptExpr m xs (some x)

/-- `VarDeclNoSemi := Type IDENT ('=' Expr)?`, as its type, name and initial value. -/
inductive Declares (m : Mode) : List Lexeme → TypeName → Ident → Option Expr → Prop where
  | bare {xs : List Lexeme} {t : TypeName} {i : Lexeme} :
      TypeRef xs t → i.token = .ident → Declares m (xs ++ [i]) t i.ident none
  | init {xs ys : List Lexeme} {t : TypeName} {i a : Lexeme} {x : Expr} :
      TypeRef xs t → i.token = .ident → a.token = .assign → DerivesExpr m .expr ys [x] →
      Declares m (xs ++ i :: a :: ys) t i.ident (some x)

/-- `ForInit := (VarDeclNoSemi | Expr)?` -/
inductive ForInit (m : Mode) : List Lexeme → Option Stmt → Prop where
  | none : ForInit m [] none
  | decl {xs : List Lexeme} {t : TypeName} {i : Ident} {x : Option Expr} :
      Declares m xs t i x →
      ForInit m xs (some (.varDecl { location := extent xs, modifiers := [], type := t, name := i, init := x }))
  | expr {xs : List Lexeme} {x : Expr} : DerivesExpr m .expr xs [x] → ForInit m xs (some (.expr (extent xs) x))

/-- `Param := Type IDENT` -/
inductive IsParam : List Lexeme → Param → Prop where
  | mk {xs : List Lexeme} {t : TypeName} {i : Lexeme} :
      TypeRef xs t → i.token = .ident →
      IsParam (xs ++ [i]) { location := extent (xs ++ [i]), type := t, name := i.ident }

/-- `Param (',' Param)*` -/
inductive ParamList : List Lexeme → List Param → Prop where
  | one {xs : List Lexeme} {p : Param} : IsParam xs p → ParamList xs [p]
  | more {xs ys : List Lexeme} {c : Lexeme} {p : Param} {ps : List Param} :
      IsParam xs p → c.token = .comma → ParamList ys ps → ParamList (xs ++ c :: ys) (p :: ps)

/-- `Params := '(' (Param (',' Param)*)? ')'` -/
inductive Params : List Lexeme → List Param → Prop where
  | none {l r : Lexeme} : l.token = .lParen → r.token = .rParen → Params [l, r] []
  | some {l r : Lexeme} {xs : List Lexeme} {ps : List Param} :
      l.token = .lParen → ParamList xs ps → r.token = .rParen → Params (l :: (xs ++ [r])) ps

/-! ## Statements -/

/-- Where a statement or declaration stands. -/
inductive Place where
  /-- In a block. -/
  | inside
  /-- In the body of a class. -/
  | member
  /-- On its own. -/
  | top

/-- The symbols of the grammar of statements. -/
inductive StmtSymbol where
  /-- `Statement`, `Member` or `TopStmt`, by place -/
  | item (p : Place)
  /-- `Statement*`, `Member*` or `TopStmt*` -/
  | list (p : Place)
  /-- `Block := '{' Statement* '}'` -/
  | block
  /-- `Arms := 'if' Condition Block ('else' 'if' Condition Block)*` -/
  | arms
  /-- `Clauses := 'try' Block ('catch' '(' Type IDENT ')' Block)*` -/
  | clauses

/-- **The grammar of statements.** `DerivesStmt m symbol xs ss`: the tokens `xs` are derived from `symbol`, and the
trees of the derivation are `ss`; every symbol but a list has one tree. -/
inductive DerivesStmt (m : Mode) : StmtSymbol → List Lexeme → List Stmt → Prop where
  -- `Statement := Block | VarDecl | If | While | DoWhile | For | Try | Return | ';' | ExprStmt`
  | braced {xs : List Lexeme} {s : Stmt} : DerivesStmt m .block xs [s] → DerivesStmt m (.item .inside) xs [s]
  | varDecl {xs : List Lexeme} {semi : Lexeme} {t : TypeName} {i : Ident} {x : Option Expr} :
      Declares m xs t i x → semi.token = .semi →
      DerivesStmt m (.item .inside) (xs ++ [semi])
        [.varDecl { location := extent (xs ++ [semi]), modifiers := [], type := t, name := i, init := x }]
  -- an expression statement does not start with a brace
  | expr {x semi : Lexeme} {xs : List Lexeme} {e : Expr} :
      DerivesExpr m .expr (x :: xs) [e] → x.token ≠ .lBrace → semi.token = .semi →
      DerivesStmt m (.item .inside) (x :: xs ++ [semi]) [.expr (extent (x :: xs ++ [semi])) e]
  | empty {semi : Lexeme} : semi.token = .semi → DerivesStmt m (.item .inside) [semi] [.empty semi.location]
  | ret {kw semi : Lexeme} {xs : List Lexeme} {x : Option Expr} :
      kw.token = .kwReturn → OptExpr m xs x → semi.token = .semi →
      DerivesStmt m (.item .inside) (kw :: (xs ++ [semi])) [.ret (extent (kw :: (xs ++ [semi]))) x]
  | whileLoop {kw : Lexeme} {xs ys : List Lexeme} {c : Expr} {b : Block} :
      kw.token = .kwWhile → Condition m xs c → DerivesStmt m .block ys [.block b] →
      DerivesStmt m (.item .inside) (kw :: (xs ++ ys)) [.whileLoop (extent (kw :: (xs ++ ys))) c b]
  | doWhile {kw wh semi : Lexeme} {xs ys : List Lexeme} {c : Expr} {b : Block} :
      kw.token = .kwDo → DerivesStmt m .block xs [.block b] → wh.token = .kwWhile → Condition m ys c →
      semi.token = .semi →
      DerivesStmt m (.item .inside) (kw :: (xs ++ wh :: (ys ++ [semi])))
        [.doWhile (extent (kw :: (xs ++ wh :: (ys ++ [semi])))) b c]
  | forLoop {kw l s₁ s₂ r : Lexeme} {xs ys zs ws : List Lexeme} {init : Option Stmt} {c u : Option Expr}
      {b : Block} :
      kw.token = .kwFor → l.token = .lParen → ForInit m xs init → s₁.token = .semi → OptExpr m ys c →
      s₂.token = .semi → OptExpr m zs u → r.token = .rParen → DerivesStmt m .block ws [.block b] →
      DerivesStmt m (.item .inside) (kw :: l :: (xs ++ s₁ :: (ys ++ s₂ :: (zs ++ r :: ws))))
        [.forLoop (extent (kw :: l :: (xs ++ s₁ :: (ys ++ s₂ :: (zs ++ r :: ws))))) init c u b]
  -- `If := Arms ('else' Block)?`
  | ifStmt {xs : List Lexeme} {s : Stmt} : DerivesStmt m .arms xs [s] → DerivesStmt m (.item .inside) xs [s]
  | ifElse {xs ys : List Lexeme} {els : Lexeme} {loc : Location} {c : Expr} {b e : Block} {as : List ElseIf} :
      DerivesStmt m .arms xs [.ifElse loc c b as none] → els.token = .kwElse →
      DerivesStmt m .block ys [.block e] →
      DerivesStmt m (.item .inside) (xs ++ els :: ys) [.ifElse (extent (xs ++ els :: ys)) c b as (some e)]
  -- `Try := Clauses ('finally' Block)?`; as an error production, with tokens that are given up behind it
  | tryStmt {xs junk : List Lexeme} {loc : Location} {b : Block} {cs : List CatchClause} :
      DerivesStmt m .clauses xs [.tryCatch loc b cs none] → m.lax ∨ cs ≠ [] → junk = [] ∨ m.halts →
      DerivesStmt m (.item .inside) (xs ++ junk) [.tryCatch loc b cs none]
  | tryFinally {xs ys : List Lexeme} {kw : Lexeme} {loc : Location} {b f : Block} {cs : List CatchClause} :
      DerivesStmt m .clauses xs [.tryCatch loc b cs none] → kw.token = .kwFinally →
      DerivesStmt m .block ys [.block f] →
      DerivesStmt m (.item .inside) (xs ++ kw :: ys) [.tryCatch (extent (xs ++ kw :: ys)) b cs (some f)]
  -- `Arms`
  | arm {kw : Lexeme} {xs ys : List Lexeme} {c : Expr} {b : Block} :
      kw.token = .kwIf → Condition m xs c → DerivesStmt m .block ys [.block b] →
      DerivesStmt m .arms (kw :: (xs ++ ys)) [.ifElse (extent (kw :: (xs ++ ys))) c b [] none]
  | elseIf {xs ys zs : List Lexeme} {els kw : Lexeme} {loc : Location} {c c' : Expr} {b b' : Block}
      {as : List ElseIf} :
      DerivesStmt m .arms xs [.ifElse loc c b as none] → els.token = .kwElse → kw.token = .kwIf →
      Condition m ys c' → DerivesStmt m .block zs [.block b'] →
      DerivesStmt m .arms (xs ++ els :: kw :: (ys ++ zs))
        [.ifElse (extent (xs ++ els :: kw :: (ys ++ zs))) c b
          (as ++ [.mk (extent (els :: kw :: (ys ++ zs))) c' b']) none]
  -- `Clauses`
  | guarded {kw : Lexeme} {xs : List Lexeme} {b : Block} :
      kw.token = .kwTry → DerivesStmt m .block xs [.block b] →
      DerivesStmt m .clauses (kw :: xs) [.tryCatch (extent (kw :: xs)) b [] none]
  | catchClause {xs ys zs : List Lexeme} {kw l i r : Lexeme} {loc : Location} {b b' : Block}
      {cs : List CatchClause} {t : TypeName} :
      DerivesStmt m .clauses xs [.tryCatch loc b cs none] → kw.token = .kwCatch → l.token = .lParen →
      TypeRef ys t → i.token = .ident → r.token = .rParen → DerivesStmt m .block zs [.block b'] →
      DerivesStmt m .clauses (xs ++ kw :: l :: (ys ++ i :: r :: zs))
        [.tryCatch (extent (xs ++ kw :: l :: (ys ++ i :: r :: zs))) b
          (cs ++ [.mk (extent (kw :: l :: (ys ++ i :: r :: zs))) t i.ident b']) none]
  -- `Block`, and one that is open at the end
  | block {l r : Lexeme} {xs : List Lexeme} {ss : List Stmt} :
      l.token = .lBrace → DerivesStmt m (.list .inside) xs ss → r.token = .rBrace →
      DerivesStmt m .block (l :: (xs ++ [r])) [.block (.mk (extent (l :: (xs ++ [r]))) ss)]
  | openBlock {l : Lexeme} {xs : List Lexeme} {ss : List Stmt} :
      m.opens → l.token = .lBrace → DerivesStmt m (.list .inside) xs ss →
      DerivesStmt m .block (l :: xs) [.block (.mk (extent (l :: xs)) ss)]
  -- `Member := Modifier* Type IDENT ( Params Block | ('=' Expr)? ';' )`
  | field {mods xs : List Lexeme} {semi : Lexeme} {t : TypeName} {i : Ident} {x : Option Expr} :
      (∀ k ∈ mods, k.token.isModifier = true) → Declares m xs t i x → semi.token = .semi →
      DerivesStmt m (.item .member) (mods ++ (xs ++ [semi]))
        [.varDecl { location := extent (mods ++ (xs ++ [semi])), modifiers := mods.map (·.token), type := t,
                    name := i, init := x }]
  -- `Method := Modifier* Type IDENT Params Block`, in a class or on its own
  | method {p : Place} {mods xs ys zs : List Lexeme} {i : Lexeme} {t : TypeName} {ps : List Param} {b : Block} :
      p ≠ .inside → (∀ k ∈ mods, k.token.isModifier = true) → TypeRef xs t → i.token = .ident → Params ys ps →
      DerivesStmt m .block zs [.block b] →
      DerivesStmt m (.item p) (mods ++ (xs ++ i :: (ys ++ zs)))
        [.methodDecl (extent (mods ++ (xs ++ i :: (ys ++ zs)))) (mods.map (·.token)) t i.ident ps b]
  -- `TopStmt := Class | Method | Statement`
  | stmt {xs : List Lexeme} {s : Stmt} :
      DerivesStmt m (.item .inside) xs [s] → DerivesStmt m (.item .top) xs [s]
  -- `Class := Modifier* 'class' IDENT '{' Member* '}'`, and one that is open at the end
  | classDecl {mods xs : List Lexeme} {kw i l r : Lexeme} {ss : List Stmt} :
      (∀ k ∈ mods, k.token.isModifier = true) → kw.token = .kwClass → i.token = .ident → l.token = .lBrace →
      DerivesStmt m (.list .member) xs ss → r.token = .rBrace →
      DerivesStmt m (.item .top) (mods ++ kw :: i :: l :: (xs ++ [r]))
        [.classDecl (extent (mods ++ kw :: i :: l :: (xs ++ [r]))) (mods.map (·.token)) i.ident ss]
  | openClass {mods xs : List Lexeme} {kw i l : Lexeme} {ss : List Stmt} :
      m.opens → (∀ k ∈ mods, k.token.isModifier = true) → kw.token = .kwClass → i.token = .ident →
      l.token = .lBrace → DerivesStmt m (.list .member) xs ss →
      DerivesStmt m (.item .top) (mods ++ kw :: i :: l :: xs)
        [.classDecl (extent (mods ++ kw :: i :: l :: xs)) (mods.map (·.token)) i.ident ss]
  -- lists; as an error production, a bad statement covers any tokens
  | nil {p : Place} : DerivesStmt m (.list p) [] []
  | cons {p : Place} {xs ys : List Lexeme} {s : Stmt} {ss : List Stmt} :
      DerivesStmt m (.item p) xs [s] → DerivesStmt m (.list p) ys ss →
      DerivesStmt m (.list p) (xs ++ ys) (s :: ss)
  | skip {p : Place} {xs ys : List Lexeme} {ss : List Stmt} :
      m.errors → xs ≠ [] → DerivesStmt m (.list p) ys ss →
      DerivesStmt m (.list p) (xs ++ ys) (.bad (extent xs) :: ss)

/-- `Program := TopStmt*` -/
def DerivesProgram (m : Mode) (xs : List Lexeme) (ss : List Stmt) : Prop := DerivesStmt m (.list .top) xs ss

end SmallJava.Grammar
