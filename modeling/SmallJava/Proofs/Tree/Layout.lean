import SmallJava.Proofs.Tree.Relocated
import SmallJava.Proofs.Tree.Unlocated

/-!
# Structure and places

A tree that is moved keeps its structure: what is left of it without its locations does not depend on where it stands
(`Expr.unlocated_relocate`, `Stmt.unlocated_relocate`).
-/

namespace SmallJava

variable {r : Relocation}

@[simp] theorem Ident.unlocated_relocate (i : Ident) : (i.relocate r).unlocated = i.unlocated := rfl

@[simp] theorem TypeName.unlocated_relocate (t : TypeName) : (t.relocate r).unlocated = t.unlocated := rfl

@[simp] theorem Literal.unlocated_relocate (l : Literal) : (l.relocate r).unlocated = l.unlocated := rfl

@[simp] theorem Param.unlocated_relocate (p : Param) : (p.relocate r).unlocated = p.unlocated := rfl

mutual

@[simp] theorem Expr.unlocated_relocate (x : Expr) : (x.relocate r).unlocated = x.unlocated := by
  match x with
  | .literal _ | .ident _ | .bad _ => rfl
  | .array a => simp only [Expr.relocate, Expr.unlocated, a.unlocated_relocate]
  | .index _ x y | .binary _ _ x y | .assign _ _ x y =>
    simp only [Expr.relocate, Expr.unlocated, x.unlocated_relocate, y.unlocated_relocate]
  | .select _ x _ =>
    simp only [Expr.relocate, Expr.unlocated, x.unlocated_relocate, Ident.unlocated_relocate]
  | .call _ fn args =>
    simp only [Expr.relocate, Expr.unlocated, fn.unlocated_relocate, Expr.unlocatedAll_relocateAll args]
  | .new _ _ args len elems =>
    match len, elems with
    | some x, some a =>
      simp only [Expr.relocate, Expr.unlocated, TypeName.unlocated_relocate, Expr.unlocatedAll_relocateAll args,
        x.unlocated_relocate, a.unlocated_relocate]
    | some x, none =>
      simp only [Expr.relocate, Expr.unlocated, TypeName.unlocated_relocate, Expr.unlocatedAll_relocateAll args,
        x.unlocated_relocate]
    | none, some a =>
      simp only [Expr.relocate, Expr.unlocated, TypeName.unlocated_relocate, Expr.unlocatedAll_relocateAll args,
        a.unlocated_relocate]
    | none, none =>
      simp only [Expr.relocate, Expr.unlocated, TypeName.unlocated_relocate, Expr.unlocatedAll_relocateAll args]
  | .paren _ x | .unary _ _ x _ => simp only [Expr.relocate, Expr.unlocated, x.unlocated_relocate]

/-- Moving an array literal does not show where locations are left out. -/
theorem ArrayLit.unlocated_relocate (a : ArrayLit) : (a.relocate r).unlocated = a.unlocated := by
  match a with
  | .mk _ elems => simp only [ArrayLit.relocate, ArrayLit.unlocated, Expr.unlocatedAll_relocateAll elems]

/-- Moving a list of expressions does not show either. -/
theorem Expr.unlocatedAll_relocateAll (xs : List Expr) :
    Expr.unlocatedAll (Expr.relocateAll r xs) = Expr.unlocatedAll xs := by
  match xs with
  | [] => rfl
  | x :: xs =>
    simp only [Expr.relocateAll, Expr.unlocatedAll, x.unlocated_relocate, Expr.unlocatedAll_relocateAll xs]

end

theorem Expr.map_unlocated_relocate (o : Option Expr) :
    (o.map (Expr.relocate r)).map Expr.unlocated = o.map Expr.unlocated := by
  cases o with
  | none => rfl
  | some x => simp only [Option.map_some, Expr.unlocated_relocate]

@[simp] theorem VarDecl.unlocated_relocate (d : VarDecl) : (d.relocate r).unlocated = d.unlocated := by
  simp only [VarDecl.relocate, VarDecl.unlocated, Expr.map_unlocated_relocate, Ident.unlocated_relocate,
    TypeName.unlocated_relocate]

/-- The types and names of parameters have locations of their own, and those do not show. -/
theorem Param.map_unlocated_relocate (ps : List Param) :
    (ps.map (Param.relocate r)).map Param.unlocated = ps.map Param.unlocated := by
  rw [List.map_map]
  exact List.map_congr_left fun p _ => p.unlocated_relocate

mutual

@[simp] theorem Stmt.unlocated_relocate (s : Stmt) : (s.relocate r).unlocated = s.unlocated := by
  match s with
  | .empty _ | .bad _ => rfl
  | .block b => simp only [Stmt.relocate, Stmt.unlocated, b.unlocated_relocate]
  | .varDecl d => simp only [Stmt.relocate, Stmt.unlocated, VarDecl.unlocated_relocate]
  | .expr _ x => simp only [Stmt.relocate, Stmt.unlocated, Expr.unlocated_relocate]
  | .ifElse _ _ body elseIfs none =>
    simp only [Stmt.relocate, Stmt.unlocated, Expr.unlocated_relocate, body.unlocated_relocate,
      ElseIf.unlocatedAll_relocateAll elseIfs]
  | .ifElse _ _ body elseIfs (some b) =>
    simp only [Stmt.relocate, Stmt.unlocated, Expr.unlocated_relocate, body.unlocated_relocate,
      ElseIf.unlocatedAll_relocateAll elseIfs, b.unlocated_relocate]
  | .whileLoop _ _ body | .doWhile _ body _ =>
    simp only [Stmt.relocate, Stmt.unlocated, Expr.unlocated_relocate, body.unlocated_relocate]
  | .forLoop _ none _ _ body =>
    simp only [Stmt.relocate, Stmt.unlocated, Expr.map_unlocated_relocate, body.unlocated_relocate]
  | .forLoop _ (some s) _ _ body =>
    simp only [Stmt.relocate, Stmt.unlocated, Expr.map_unlocated_relocate, body.unlocated_relocate,
      s.unlocated_relocate]
  | .tryCatch _ body catches none =>
    simp only [Stmt.relocate, Stmt.unlocated, body.unlocated_relocate, CatchClause.unlocatedAll_relocateAll catches]
  | .tryCatch _ body catches (some b) =>
    simp only [Stmt.relocate, Stmt.unlocated, body.unlocated_relocate, CatchClause.unlocatedAll_relocateAll catches,
      b.unlocated_relocate]
  | .ret _ result => simp only [Stmt.relocate, Stmt.unlocated, Expr.map_unlocated_relocate]
  | .classDecl _ _ _ members =>
    simp only [Stmt.relocate, Stmt.unlocated, Ident.unlocated_relocate, Stmt.unlocatedAll_relocateAll members]
  | .methodDecl _ _ _ _ _ body =>
    simp only [Stmt.relocate, Stmt.unlocated, Ident.unlocated_relocate, TypeName.unlocated_relocate,
      Param.map_unlocated_relocate, body.unlocated_relocate]

/-- Moving a block does not show where locations are left out. -/
theorem Block.unlocated_relocate (b : Block) : (b.relocate r).unlocated = b.unlocated := by
  match b with
  | .mk _ stmts => simp only [Block.relocate, Block.unlocated, Stmt.unlocatedAll_relocateAll stmts]

theorem ElseIf.unlocatedAll_relocateAll (as : List ElseIf) :
    ElseIf.unlocatedAll (ElseIf.relocateAll r as) = ElseIf.unlocatedAll as := by
  match as with
  | [] => rfl
  | .mk _ _ body :: rest =>
    simp only [ElseIf.relocateAll, ElseIf.relocate, ElseIf.unlocatedAll, Expr.unlocated_relocate,
      body.unlocated_relocate, ElseIf.unlocatedAll_relocateAll rest]

theorem CatchClause.unlocatedAll_relocateAll (cs : List CatchClause) :
    CatchClause.unlocatedAll (CatchClause.relocateAll r cs) = CatchClause.unlocatedAll cs := by
  match cs with
  | [] => rfl
  | .mk _ _ _ body :: rest =>
    simp only [CatchClause.relocateAll, CatchClause.relocate, CatchClause.unlocatedAll, TypeName.unlocated_relocate,
      Ident.unlocated_relocate, body.unlocated_relocate, CatchClause.unlocatedAll_relocateAll rest]

/-- **Moving statements does not show** where locations are left out. -/
theorem Stmt.unlocatedAll_relocateAll (ss : List Stmt) :
    Stmt.unlocatedAll (Stmt.relocateAll r ss) = Stmt.unlocatedAll ss := by
  match ss with
  | [] => rfl
  | s :: ss =>
    simp only [Stmt.relocateAll, Stmt.unlocatedAll, s.unlocated_relocate, Stmt.unlocatedAll_relocateAll ss]

end

end SmallJava
