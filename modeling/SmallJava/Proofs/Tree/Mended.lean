import SmallJava.Tree.Node

/-!
# Mended trees

A tree with bad nodes is mended by putting something printable in their places: an empty statement for each bad
statement, and a name for each bad expression. `fill` chooses the name by the place where it is to stand; all other
nodes, and all locations, stay.
-/

namespace SmallJava

mutual

/-- The expression with a name for each bad expression in it. -/
@[simp] def Expr.mended (fill : Location → Ident) : Expr → Expr
  | .literal l => .literal l
  | .ident i => .ident i
  | .array a => .array (a.mended fill)
  | .index loc x i => .index loc (x.mended fill) (i.mended fill)
  | .select loc x sel => .select loc (x.mended fill) sel
  | .call loc fn args => .call loc (fn.mended fill) (Expr.mendedAll fill args)
  | .new loc type args len elems =>
    .new loc type (Expr.mendedAll fill args) (match len with | none => none | some x => some (x.mended fill))
      (match elems with | none => none | some a => some (a.mended fill))
  | .paren loc x => .paren loc (x.mended fill)
  | .unary loc op x fixity => .unary loc op (x.mended fill) fixity
  | .binary loc op x y => .binary loc op (x.mended fill) (y.mended fill)
  | .assign loc op target value => .assign loc op (target.mended fill) (value.mended fill)
  | .bad loc => .ident (fill loc)

/-- The array literal with a name for each bad expression in it. -/
@[simp] def ArrayLit.mended (fill : Location → Ident) : ArrayLit → ArrayLit
  | .mk loc elems => .mk loc (Expr.mendedAll fill elems)

/-- The expressions with a name for each bad expression in them. -/
@[simp] def Expr.mendedAll (fill : Location → Ident) : List Expr → List Expr
  | [] => []
  | x :: xs => x.mended fill :: Expr.mendedAll fill xs

end

/-- The declaration with a name for each bad expression in it. -/
def VarDecl.mended (fill : Location → Ident) (d : VarDecl) : VarDecl := { d with init := d.init.map (Expr.mended fill) }

mutual

/-- The statement with its bad statements and expressions replaced. -/
@[simp] def Stmt.mended (fill : Location → Ident) : Stmt → Stmt
  | .block b => .block (b.mended fill)
  | .varDecl d => .varDecl (d.mended fill)
  | .expr loc x => .expr loc (x.mended fill)
  | .ifElse loc cond body elseIfs otherwise =>
    .ifElse loc (cond.mended fill) (body.mended fill) (ElseIf.mendedAll fill elseIfs)
      (match otherwise with | none => none | some b => some (b.mended fill))
  | .whileLoop loc cond body => .whileLoop loc (cond.mended fill) (body.mended fill)
  | .doWhile loc body cond => .doWhile loc (body.mended fill) (cond.mended fill)
  | .forLoop loc init cond update body =>
    .forLoop loc (match init with | none => none | some s => some (s.mended fill)) (cond.map (Expr.mended fill))
      (update.map (Expr.mended fill)) (body.mended fill)
  | .tryCatch loc body catches cleanup =>
    .tryCatch loc (body.mended fill) (CatchClause.mendedAll fill catches)
      (match cleanup with | none => none | some b => some (b.mended fill))
  | .ret loc result => .ret loc (result.map (Expr.mended fill))
  | .empty loc => .empty loc
  | .classDecl loc mods name members => .classDecl loc mods name (Stmt.mendedAll fill members)
  | .methodDecl loc mods result name params body => .methodDecl loc mods result name params (body.mended fill)
  | .bad loc => .empty loc

/-- The block with its bad statements and expressions replaced. -/
@[simp] def Block.mended (fill : Location → Ident) : Block → Block
  | .mk loc stmts => .mk loc (Stmt.mendedAll fill stmts)

/-- The arms with their bad statements and expressions replaced. -/
@[simp] def ElseIf.mendedAll (fill : Location → Ident) : List ElseIf → List ElseIf
  | [] => []
  | .mk loc cond body :: rest => .mk loc (cond.mended fill) (body.mended fill) :: ElseIf.mendedAll fill rest

/-- The clauses with their bad statements and expressions replaced. -/
@[simp] def CatchClause.mendedAll (fill : Location → Ident) : List CatchClause → List CatchClause
  | [] => []
  | .mk loc type name body :: rest => .mk loc type name (body.mended fill) :: CatchClause.mendedAll fill rest

/-- The statements with their bad statements and expressions replaced. -/
@[simp] def Stmt.mendedAll (fill : Location → Ident) : List Stmt → List Stmt
  | [] => []
  | s :: ss => s.mended fill :: Stmt.mendedAll fill ss

end

/-- The program with its bad statements and expressions replaced. -/
def Program.mended (fill : Location → Ident) (p : Program) : Program := { p with body := Stmt.mendedAll fill p.body }

end SmallJava
