import SmallJava.Tree.Basic

/-!
# How deeply a tree is nested

`Expr.nesting` and `Stmt.nesting` count the constructs inside each other on the deepest path of a tree: blocks,
class bodies, parentheses, array literals, prefix operators, and complete expressions. An expression is complete
where the grammar has `Expr`: in a statement, between parentheses, as an argument, an index, a length or an
element, and as the value of an assignment. `Expr.nesting` does not count the expression itself, so that a
complete expression `x` has depth `x.nesting + 1`.
-/

namespace SmallJava

mutual

/-- The nesting inside an expression. -/
@[simp] def Expr.nesting : Expr → Nat
  | .literal _ | .ident _ | .bad _ => 0
  | .array a => a.nesting
  | .index _ x i => max x.nesting (i.nesting + 1)
  | .select _ x _ => x.nesting
  | .call _ fn args => max fn.nesting (Expr.depths args)
  | .new _ _ args len elems =>
    max (Expr.depths args)
      (max (match len with | none => 0 | some x => x.nesting + 1)
        (match elems with | none => 0 | some a => a.nesting))
  | .paren _ x => x.nesting + 1 + 1
  | .unary _ _ x .before => x.nesting + 1
  | .unary _ _ x .after => x.nesting
  | .binary _ _ x y => max x.nesting y.nesting
  | .assign _ _ target value => max target.nesting (value.nesting + 1)

/-- The nesting of an array literal. -/
@[simp] def ArrayLit.nesting : ArrayLit → Nat
  | .mk _ elems => Expr.depths elems + 1

/-- The greatest depth of several complete expressions. -/
@[simp] def Expr.depths : List Expr → Nat
  | [] => 0
  | x :: xs => max (x.nesting + 1) (Expr.depths xs)

end

/-- The depth of a complete expression that may be absent. -/
def Expr.depthOpt (x : Option Expr) : Nat := (x.map (·.nesting + 1)).getD 0

mutual

/-- The nesting of a statement. -/
@[simp] def Stmt.nesting : Stmt → Nat
  | .block b => b.nesting
  | .varDecl d => Expr.depthOpt d.init
  | .expr _ x => x.nesting + 1
  | .ifElse _ cond body elseIfs otherwise =>
    max (cond.nesting + 1)
      (max body.nesting
        (max (ElseIf.nestings elseIfs) (match otherwise with | none => 0 | some b => b.nesting)))
  | .whileLoop _ cond body => max (cond.nesting + 1) body.nesting
  | .doWhile _ body cond => max body.nesting (cond.nesting + 1)
  | .forLoop _ init cond update body =>
    max (match init with | none => 0 | some s => s.nesting)
      (max (Expr.depthOpt cond) (max (Expr.depthOpt update) body.nesting))
  | .tryCatch _ body catches cleanup =>
    max body.nesting
      (max (CatchClause.nestings catches) (match cleanup with | none => 0 | some b => b.nesting))
  | .ret _ result => Expr.depthOpt result
  | .classDecl _ _ _ members => Stmt.nestings members + 1
  | .methodDecl _ _ _ _ _ body => body.nesting
  | .empty _ | .bad _ => 0

/-- The nesting of a block. -/
@[simp] def Block.nesting : Block → Nat
  | .mk _ stmts => Stmt.nestings stmts + 1

/-- The nesting of an arm of a conditional. -/
@[simp] def ElseIf.nesting : ElseIf → Nat
  | .mk _ cond body => max (cond.nesting + 1) body.nesting

/-- The nesting of a `catch` clause. -/
@[simp] def CatchClause.nesting : CatchClause → Nat
  | .mk _ _ _ body => body.nesting

/-- The greatest nesting of several statements. -/
@[simp] def Stmt.nestings : List Stmt → Nat
  | [] => 0
  | s :: ss => max s.nesting (Stmt.nestings ss)

/-- The greatest nesting of several arms. -/
@[simp] def ElseIf.nestings : List ElseIf → Nat
  | [] => 0
  | a :: as => max a.nesting (ElseIf.nestings as)

/-- The greatest nesting of several clauses. -/
@[simp] def CatchClause.nestings : List CatchClause → Nat
  | [] => 0
  | c :: cs => max c.nesting (CatchClause.nestings cs)

end

/-! ## Lists -/

@[simp] theorem Expr.depths_append (xs ys : List Expr) :
    Expr.depths (xs ++ ys) = max (Expr.depths xs) (Expr.depths ys) := by
  induction xs with
  | nil => simp [Expr.depths]
  | cons x xs ih => simp [Expr.depths, ih, Nat.max_assoc]

@[simp] theorem Stmt.nestings_append (ss rs : List Stmt) :
    Stmt.nestings (ss ++ rs) = max (Stmt.nestings ss) (Stmt.nestings rs) := by
  induction ss with
  | nil => simp [Stmt.nestings]
  | cons s ss ih => simp [Stmt.nestings, ih, Nat.max_assoc]

@[simp] theorem ElseIf.nestings_append (as bs : List ElseIf) :
    ElseIf.nestings (as ++ bs) = max (ElseIf.nestings as) (ElseIf.nestings bs) := by
  induction as with
  | nil => simp [ElseIf.nestings]
  | cons a as ih => simp [ElseIf.nestings, ih, Nat.max_assoc]

@[simp] theorem CatchClause.nestings_append (cs ds : List CatchClause) :
    CatchClause.nestings (cs ++ ds) = max (CatchClause.nestings cs) (CatchClause.nestings ds) := by
  induction cs with
  | nil => simp [CatchClause.nestings]
  | cons c cs ih => simp [CatchClause.nestings, ih, Nat.max_assoc]

end SmallJava
