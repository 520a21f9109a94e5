import SmallJava.Lexical.Lexeme

/-!
# Syntax trees

The nodes of a program. Every node has the location of the text it was read from.

* `Expr` — expressions; `Stmt` — statements and declarations; `Program` — a whole text;
* `Expr.bad` and `Stmt.bad` stand for text that could not be understood.

The parser builds only some of these trees. Printing and navigation take them all: any token as an operator
or a modifier, any statement as the first clause of a `for` or as a member of a class, and a negative number
of array dimensions.
-/

namespace SmallJava

/-- A name. -/
structure Ident where
  location : Location
  name : Bytes
deriving DecidableEq, Repr, Inhabited

/-- The name of a type, perhaps dotted, and its number of array dimensions. -/
structure TypeName where
  location : Location
  name : Bytes
  dims : Int
deriving DecidableEq, Repr, Inhabited

/-- The type as it is written. -/
def TypeName.text (t : TypeName) : Bytes := t.name ++ Bytes.copies t.dims (utf8 "[]")

/-- A parameter of a method. -/
structure Param where
  location : Location
  type : TypeName
  name : Ident
deriving DecidableEq, Repr, Inhabited

/-- A comment, with the marks around it. -/
structure Comment where
  location : Location
  text : Bytes
deriving DecidableEq, Repr, Inhabited

/-- Whether this is a block comment. -/
def Comment.isBlock (c : Comment) : Bool := c.text[1]? = some (byte '*')

/-- A constant as it is written. -/
structure Literal where
  location : Location
  kind : Token
  text : Bytes
deriving DecidableEq, Repr, Inhabited

/-- On which side of its operand an operator stands. -/
inductive Fixity where
  | before
  | after
deriving DecidableEq, Repr, Inhabited

mutual

/-- An expression. -/
inductive Expr where
  | literal (l : Literal)
  | ident (i : Ident)
  | array (a : ArrayLit)
  /-- An element `x[i]`. -/
  | index (location : Location) (x i : Expr)
  /-- A member `x.sel`. -/
  | select (location : Location) (x : Expr) (sel : Ident)
  | call (location : Location) (fn : Expr) (args : List Expr)
  /-- An allocation: an array of a given length, an array with given elements, or an object. -/
  | new (location : Location) (type : TypeName) (args : List Expr) (len : Option Expr)
      (elems : Option ArrayLit)
  | paren (location : Location) (x : Expr)
  | unary (location : Location) (op : Token) (x : Expr) (fixity : Fixity)
  | binary (location : Location) (op : Token) (x y : Expr)
  | assign (location : Location) (op : Token) (target value : Expr)
  | bad (location : Location)

/-- A list of elements between braces. -/
inductive ArrayLit where
  | mk (location : Location) (elems : List Expr)

end

/-- The location of the braces and all between them. -/
def ArrayLit.location : ArrayLit → Location
  | .mk loc _ => loc

/-- The elements in order. -/
def ArrayLit.elems : ArrayLit → List Expr
  | .mk _ es => es

instance : Inhabited Expr := ⟨.bad default⟩

instance : Inhabited ArrayLit := ⟨.mk default []⟩

/-- The location of an expression. -/
def Expr.location : Expr → Location
  | .literal l => l.location
  | .ident i => i.location
  | .array a => a.location
  | .index loc .. | .select loc .. | .call loc .. | .new loc .. | .paren loc _ | .unary loc ..
  | .binary loc .. | .assign loc .. | .bad loc => loc

/-- A declaration of a variable or a field. -/
structure VarDecl where
  location : Location
  modifiers : List Token
  type : TypeName
  name : Ident
  init : Option Expr

mutual

/-- A statement or a declaration. -/
inductive Stmt where
  | block (b : Block)
  | varDecl (d : VarDecl)
  | expr (location : Location) (x : Expr)
  | ifElse (location : Location) (cond : Expr) (body : Block) (elseIfs : List ElseIf)
      (otherwise : Option Block)
  | whileLoop (location : Location) (cond : Expr) (body : Block)
  | doWhile (location : Location) (body : Block) (cond : Expr)
  | forLoop (location : Location) (init : Option Stmt) (cond update : Option Expr) (body : Block)
  | tryCatch (location : Location) (body : Block) (catches : List CatchClause)
      (cleanup : Option Block)
  | ret (location : Location) (result : Option Expr)
  | empty (location : Location)
  | classDecl (location : Location) (modifiers : List Token) (name : Ident) (members : List Stmt)
  | methodDecl (location : Location) (modifiers : List Token) (result : TypeName) (name : Ident)
      (params : List Param) (body : Block)
  | bad (location : Location)

/-- Statements between braces. -/
inductive Block where
  | mk (location : Location) (stmts : List Stmt)

/-- An `else if` arm of a conditional. -/
inductive ElseIf where
  | mk (location : Location) (cond : Expr) (body : Block)

/-- A `catch` clause. -/
inductive CatchClause where
  | mk (location : Location) (type : TypeName) (name : Ident) (body : Block)

end

/-- The location of the braces and all between them. -/
def Block.location : Block → Location
  | .mk loc _ => loc

/-- The statements in order. -/
def Block.stmts : Block → List Stmt
  | .mk _ ss => ss

/-- The location of an arm, from its `else` to the end of its block. -/
def ElseIf.location : ElseIf → Location
  | .mk loc _ _ => loc

/-- The location of a clause, from its `catch` to the end of its block. -/
def CatchClause.location : CatchClause → Location
  | .mk loc _ _ _ => loc

instance : Inhabited Stmt := ⟨.bad default⟩

instance : Inhabited Block := ⟨.mk default []⟩

instance : Inhabited ElseIf := ⟨.mk default default default⟩

instance : Inhabited CatchClause := ⟨.mk default default default default⟩

/-- The location of a statement. -/
def Stmt.location : Stmt → Location
  | .block b => b.location
  | .varDecl d => d.location
  | .expr loc _ | .ifElse loc .. | .whileLoop loc .. | .doWhile loc .. | .forLoop loc ..
  | .tryCatch loc .. | .ret loc _ | .empty loc | .classDecl loc .. | .methodDecl loc ..
  | .bad loc => loc

/-- A whole text: its statements and declarations, and its comments if they were asked for. -/
structure Program where
  location : Location
  body : List Stmt
  comments : List Comment

end SmallJava
