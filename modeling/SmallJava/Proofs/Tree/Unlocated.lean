import SmallJava.Format
import SmallJava.Parser.Expr
import SmallJava.Proofs.Grammar.Nesting

/-!
# Trees without their locations

Two trees have the same structure if they are equal once all locations are left out: `Expr.unlocated`,
`Stmt.unlocated` and `Program.unlocated`, which also leaves out the comments. What is printed of a tree, how deeply
it is nested and whether it may be assigned to depend on its structure only.
-/

namespace SmallJava

/-! ## Expressions -/

/-- The name without its location. -/
def Ident.unlocated (i : Ident) : Ident := { i with location := default }

/-- The type without its location. -/
def TypeName.unlocated (t : TypeName) : TypeName := { t with location := default }

/-- The constant without its location. -/
def Literal.unlocated (l : Literal) : Literal := { l with location := default }

/-- The parameter without its locations. -/
def Param.unlocated (p : Param) : Param :=
  { location := default, type := p.type.unlocated, name := p.name.unlocated }

@[simp] theorem Ident.name_unlocated (i : Ident) : i.unlocated.name = i.name := rfl

@[simp] theorem TypeName.name_unlocated (t : TypeName) : t.unlocated.name = t.name := rfl

@[simp] theorem TypeName.dims_unlocated (t : TypeName) : t.unlocated.dims = t.dims := rfl

theorem TypeName.name_eq {t u : TypeName} (h : u.unlocated = t.unlocated) : u.name = t.name := by
  simpa using congrArg TypeName.name h

theorem TypeName.dims_eq {t u : TypeName} (h : u.unlocated = t.unlocated) : u.dims = t.dims := by
  simpa using congrArg TypeName.dims h

@[simp] theorem TypeName.text_unlocated (t : TypeName) : t.unlocated.text = t.text := rfl

@[simp] theorem Param.text_unlocated (p : Param) : p.unlocated.text = p.text := rfl

mutual

/-- The expression without its locations. -/
@[simp] def Expr.unlocated : Expr → Expr
  | .literal l => .literal l.unlocated
  | .ident i => .ident i.unlocated
  | .array a => .array a.unlocated
  | .index _ x i => .index default x.unlocated i.unlocated
  | .select _ x sel => .select default x.unlocated sel.unlocated
  | .call _ fn args => .call default fn.unlocated (Expr.unlocatedAll args)
  | .new _ type args len elems =>
    .new default type.unlocated (Expr.unlocatedAll args) (match len with | none => none | some x => some x.unlocated)
      (match elems with | none => none | some a => some a.unlocated)
  | .paren _ x => .paren default x.unlocated
  | .unary _ op x fixity => .unary default op x.unlocated fixity
  | .binary _ op x y => .binary default op x.unlocated y.unlocated
  | .assign _ op target value => .assign default op target.unlocated value.unlocated
  | .bad _ => .bad default

/-- The array literal without its locations. -/
@[simp] def ArrayLit.unlocated : ArrayLit → ArrayLit
  | .mk _ elems => .mk default (Expr.unlocatedAll elems)

/-- The expressions without their locations. -/
@[simp] def Expr.unlocatedAll : List Expr → List Expr
  | [] => []
  | x :: xs => x.unlocated :: Expr.unlocatedAll xs

end

@[simp] theorem Expr.unlocated_new (loc : Location) (type : TypeName) (args : List Expr) (len : Option Expr)
    (elems : Option ArrayLit) :
    (Expr.new loc type args len elems).unlocated
      = .new default type.unlocated (Expr.unlocatedAll args) (len.map Expr.unlocated)
          (elems.map ArrayLit.unlocated) := by
  cases len <;> cases elems <;> rfl

mutual

@[simp] theorem Expr.text_unlocated (x : Expr) : x.unlocated.text = x.text := by
  match x with
  | .literal _ | .ident _ | .bad _ => rfl
  | .array a => simp [Expr.text, a.text_unlocated]
  | .index _ x i => simp [Expr.text, x.text_unlocated, i.text_unlocated]
  | .select _ x _ => simp [Expr.text, x.text_unlocated]
  | .call _ fn args => simp [Expr.text, fn.text_unlocated, Expr.texts_unlocated args]
  | .new _ type args len elems =>
    match len, elems with
    | some x, _ => simp [Expr.text, x.text_unlocated]
    | none, some a => simp [Expr.text, a.text_unlocated]
    | none, none => simp [Expr.text, Expr.texts_unlocated args]
  | .paren _ x => simp [Expr.text, x.text_unlocated]
  | .unary _ _ x .before | .unary _ _ x .after => simp [Expr.text, x.text_unlocated]
  | .binary _ _ x y | .assign _ _ x y => simp [Expr.text, x.text_unlocated, y.text_unlocated]

@[simp] theorem ArrayLit.text_unlocated (a : ArrayLit) : a.unlocated.text = a.text := by
  match a with
  | .mk _ elems => simp [ArrayLit.text, Expr.texts_unlocated elems]

@[simp] theorem Expr.texts_unlocated (xs : List Expr) : Expr.texts (Expr.unlocatedAll xs) = Expr.texts xs := by
  match xs with
  | [] => rfl
  | x :: xs => simp [Expr.texts, x.text_unlocated, Expr.texts_unlocated xs]

end

mutual

@[simp] theorem Expr.nesting_unlocated (x : Expr) : x.unlocated.nesting = x.nesting := by
  match x with
  | .literal _ | .ident _ | .bad _ => rfl
  | .array a => simp [a.nesting_unlocated]
  | .index _ x i => simp [x.nesting_unlocated, i.nesting_unlocated]
  | .select _ x _ | .paren _ x | .unary _ _ x .before | .unary _ _ x .after => simp [x.nesting_unlocated]
  | .call _ fn args => simp [fn.nesting_unlocated, Expr.depths_unlocated args]
  | .new _ _ args len elems =>
    match len, elems with
    | some x, some a => simp [x.nesting_unlocated, a.nesting_unlocated, Expr.depths_unlocated args]
    | some x, none => simp [x.nesting_unlocated, Expr.depths_unlocated args]
    | none, some a => simp [a.nesting_unlocated, Expr.depths_unlocated args]
    | none, none => simp [Expr.depths_unlocated args]
  | .binary _ _ x y | .assign _ _ x y => simp [x.nesting_unlocated, y.nesting_unlocated]

@[simp] theorem ArrayLit.nesting_unlocated (a : ArrayLit) : a.unlocated.nesting = a.nesting := by
  match a with
  | .mk _ elems => simp [Expr.depths_unlocated elems]

@[simp] theorem Expr.depths_unlocated (xs : List Expr) : Expr.depths (Expr.unlocatedAll xs) = Expr.depths xs := by
  match xs with
  | [] => rfl
  | x :: xs => simp [x.nesting_unlocated, Expr.depths_unlocated xs]

end

@[simp] theorem Expr.isAssignable_unlocated (x : Expr) : x.unlocated.isAssignable = x.isAssignable := by
  fun_induction isAssignable x with
  | case5 loc x ih => simpa [isAssignable] using ih
  | case6 x => cases x <;> simp_all [isAssignable]
  | _ => simp [isAssignable]

/-! ## Statements -/

/-- The declaration without its locations. -/
def VarDecl.unlocated (d : VarDecl) : VarDecl :=
  { location := default, modifiers := d.modifiers, type := d.type.unlocated, name := d.name.unlocated,
    init := d.init.map Expr.unlocated }

mutual

/-- The statement without its locations. -/
@[simp] def Stmt.unlocated : Stmt → Stmt
  | .block b => .block b.unlocated
  | .varDecl d => .varDecl d.unlocated
  | .expr _ x => .expr default x.unlocated
  | .ifElse _ cond body elseIfs otherwise =>
    .ifElse default cond.unlocated body.unlocated (ElseIf.unlocatedAll elseIfs)
      (match otherwise with | none => none | some b => some b.unlocated)
  | .whileLoop _ cond body => .whileLoop default cond.unlocated body.unlocated
  | .doWhile _ body cond => .doWhile default body.unlocated cond.unlocated
  | .forLoop _ init cond update body =>
    .forLoop default (match init with | none => none | some s => some s.unlocated) (cond.map Expr.unlocated)
      (update.map Expr.unlocated) body.unlocated
  | .tryCatch _ body catches cleanup =>
    .tryCatch default body.unlocated (CatchClause.unlocatedAll catches)
      (match cleanup with | none => none | some b => some b.unlocated)
  | .ret _ result => .ret default (result.map Expr.unlocated)
  | .empty _ => .empty default
  | .classDecl _ mods name members => .classDecl default mods name.unlocated (Stmt.unlocatedAll members)
  | .methodDecl _ mods result name params body =>
    .methodDecl default mods result.unlocated name.unlocated (params.map Param.unlocated) body.unlocated
  | .bad _ => .bad default

/-- The block without its locations. -/
@[simp] def Block.unlocated : Block → Block
  | .mk _ stmts => .mk default (Stmt.unlocatedAll stmts)

/-- The arms without their locations. -/
@[simp] def ElseIf.unlocatedAll : List ElseIf → List ElseIf
  | [] => []
  | .mk _ cond body :: rest => .mk default cond.unlocated body.unlocated :: ElseIf.unlocatedAll rest

/-- The clauses without their locations. -/
@[simp] def CatchClause.unlocatedAll : List CatchClause → List CatchClause
  | [] => []
  | .mk _ type name body :: rest =>
    .mk default type.unlocated name.unlocated body.unlocated :: CatchClause.unlocatedAll rest

/-- The statements without their locations. -/
@[simp] def Stmt.unlocatedAll : List Stmt → List Stmt
  | [] => []
  | s :: ss => s.unlocated :: Stmt.unlocatedAll ss

end

@[simp] theorem Stmt.unlocated_forLoop (loc : Location) (init : Option Stmt) (cond update : Option Expr)
    (body : Block) :
    (Stmt.forLoop loc init cond update body).unlocated
      = .forLoop default (init.map Stmt.unlocated) (cond.map Expr.unlocated) (update.map Expr.unlocated)
          body.unlocated := by
  cases init <;> rfl

/-- The program without its locations and comments. -/
def Program.unlocated (p : Program) : Program :=
  { location := default, body := Stmt.unlocatedAll p.body, comments := [] }

@[simp] theorem ElseIf.unlocatedAll_append (as bs : List ElseIf) :
    ElseIf.unlocatedAll (as ++ bs) = ElseIf.unlocatedAll as ++ ElseIf.unlocatedAll bs := by
  induction as with
  | nil => rfl
  | cons a as ih =>
    cases a
    simp [ih]

@[simp] theorem CatchClause.unlocatedAll_append (cs ds : List CatchClause) :
    CatchClause.unlocatedAll (cs ++ ds) = CatchClause.unlocatedAll cs ++ CatchClause.unlocatedAll ds := by
  induction cs with
  | nil => rfl
  | cons c cs ih =>
    cases c
    simp [ih]

@[simp] theorem Expr.depthOpt_unlocated (x : Option Expr) :
    Expr.depthOpt (x.map Expr.unlocated) = Expr.depthOpt x := by
  cases x <;> simp [Expr.depthOpt]

mutual

@[simp] theorem Stmt.nesting_unlocated (s : Stmt) : s.unlocated.nesting = s.nesting := by
  match s with
  | .block b => simp [b.nesting_unlocated]
  | .varDecl d => simp [VarDecl.unlocated]
  | .expr _ _ | .ret _ _ | .empty _ | .bad _ => simp
  | .ifElse _ _ body elseIfs none => simp [body.nesting_unlocated, ElseIf.nestings_unlocated elseIfs]
  | .ifElse _ _ body elseIfs (some b) =>
    simp [body.nesting_unlocated, ElseIf.nestings_unlocated elseIfs, b.nesting_unlocated]
  | .whileLoop _ _ body | .doWhile _ body _ | .forLoop _ none _ _ body | .methodDecl _ _ _ _ _ body =>
    simp [body.nesting_unlocated]
  | .forLoop _ (some s) _ _ body => simp [body.nesting_unlocated, s.nesting_unlocated]
  | .tryCatch _ body catches none => simp [body.nesting_unlocated, CatchClause.nestings_unlocated catches]
  | .tryCatch _ body catches (some b) =>
    simp [body.nesting_unlocated, CatchClause.nestings_unlocated catches, b.nesting_unlocated]
  | .classDecl _ _ _ members => simp [Stmt.nestings_unlocated members]

@[simp] theorem Block.nesting_unlocated (b : Block) : b.unlocated.nesting = b.nesting := by
  match b with
  | .mk _ stmts => simp [Stmt.nestings_unlocated stmts]

@[simp] theorem ElseIf.nestings_unlocated (as : List ElseIf) :
    ElseIf.nestings (ElseIf.unlocatedAll as) = ElseIf.nestings as := by
  match as with
  | [] => rfl
  | .mk _ _ body :: rest => simp [body.nesting_unlocated, ElseIf.nestings_unlocated rest]

@[simp] theorem CatchClause.nestings_unlocated (cs : List CatchClause) :
    CatchClause.nestings (CatchClause.unlocatedAll cs) = CatchClause.nestings cs := by
  match cs with
  | [] => rfl
  | .mk _ _ _ body :: rest => simp [body.nesting_unlocated, CatchClause.nestings_unlocated rest]

@[simp] theorem Stmt.nestings_unlocated (ss : List Stmt) :
    Stmt.nestings (Stmt.unlocatedAll ss) = Stmt.nestings ss := by
  match ss with
  | [] => rfl
  | s :: ss => simp [s.nesting_unlocated, Stmt.nestings_unlocated ss]

end

/-! ## Printed text -/

mutual

@[simp] theorem Expr.obstacle?_unlocated (x : Expr) : x.unlocated.obstacle? = x.obstacle?.map Expr.unlocated := by
  match x with
  | .literal _ | .ident _ | .bad _ => simp [Expr.obstacle?]
  | .array a => simp [Expr.obstacle?, a.obstacle?_unlocated]
  | .index _ x y | .binary _ _ x y | .assign _ _ x y =>
    simp [Expr.obstacle?, x.obstacle?_unlocated, y.obstacle?_unlocated, Option.map_or]
  | .select _ x _ | .paren _ x | .unary _ _ x _ => simp [Expr.obstacle?, x.obstacle?_unlocated]
  | .call _ fn args =>
    simp [Expr.obstacle?, fn.obstacle?_unlocated, Expr.firstObstacle?_unlocated args, Option.map_or]
  | .new _ _ args len elems =>
    match len, elems with
    | some x, _ => simp [Expr.obstacle?, x.obstacle?_unlocated]
    | none, some a => simp [Expr.obstacle?, a.obstacle?_unlocated]
    | none, none => simp [Expr.obstacle?, Expr.firstObstacle?_unlocated args]

@[simp] theorem ArrayLit.obstacle?_unlocated (a : ArrayLit) :
    a.unlocated.obstacle? = a.obstacle?.map Expr.unlocated := by
  match a with
  | .mk _ elems => simp [ArrayLit.obstacle?, Expr.firstObstacle?_unlocated elems]

@[simp] theorem Expr.firstObstacle?_unlocated (xs : List Expr) :
    Expr.firstObstacle? (Expr.unlocatedAll xs) = (Expr.firstObstacle? xs).map Expr.unlocated := by
  match xs with
  | [] => rfl
  | x :: xs => simp [Expr.firstObstacle?, x.obstacle?_unlocated, Expr.firstObstacle?_unlocated xs, Option.map_or]

end

mutual

@[simp] theorem Expr.breakdown?_unlocated (x : Expr) : x.unlocated.breakdown? = x.breakdown? := by
  match x with
  | .literal _ | .ident _ | .bad _ => simp [Expr.breakdown?]
  | .array a => simp [Expr.breakdown?, a.breakdown?_unlocated]
  | .index _ x y | .binary _ _ x y | .assign _ _ x y =>
    simp [Expr.breakdown?, x.breakdown?_unlocated, y.breakdown?_unlocated]
  | .select _ x _ | .paren _ x | .unary _ _ x _ => simp [Expr.breakdown?, x.breakdown?_unlocated]
  | .call _ fn args => simp [Expr.breakdown?, fn.breakdown?_unlocated, Expr.firstBreakdown?_unlocated args]
  | .new _ _ args len elems =>
    match len, elems with
    | some x, _ => simp [Expr.breakdown?, x.breakdown?_unlocated]
    | none, some a => simp [Expr.breakdown?, a.breakdown?_unlocated]
    | none, none => simp [Expr.breakdown?, Expr.firstBreakdown?_unlocated args]

@[simp] theorem ArrayLit.breakdown?_unlocated (a : ArrayLit) : a.unlocated.breakdown? = a.breakdown? := by
  match a with
  | .mk _ elems => simp [ArrayLit.breakdown?, Expr.firstBreakdown?_unlocated elems]

@[simp] theorem Expr.firstBreakdown?_unlocated (xs : List Expr) :
    Expr.firstBreakdown? (Expr.unlocatedAll xs) = Expr.firstBreakdown? xs := by
  match xs with
  | [] => rfl
  | x :: xs => simp [Expr.firstBreakdown?, x.breakdown?_unlocated, Expr.firstBreakdown?_unlocated xs]

end

/-- The texts of chunks, one after the other. -/
def Chunk.texts (cs : List Chunk) : Bytes := cs.flatMap (·.text)

namespace Chunk

@[simp] theorem texts_nil : texts [] = [] := rfl

@[simp] theorem texts_cons (c : Chunk) (cs : List Chunk) : texts (c :: cs) = c.text ++ texts cs := rfl

@[simp] theorem texts_append (cs ds : List Chunk) : texts (cs ++ ds) = texts cs ++ texts ds := by
  simp [texts]

@[simp] theorem text_of (s : String) : (of s).text = utf8 s := rfl

@[simp] theorem text_expr (before : Bytes) (x : Expr) (after : Bytes) :
    (expr before x after).text = before ++ x.text ++ after := rfl

/-- What printing makes of a chunk: its text, whether a node stands in its way, and what breaks it off. -/
def outline (c : Chunk) : Bytes × Bool × Option Breakdown := (c.text, c.obstacle.isNone, c.breakdown)

@[simp] theorem outline_expr_unlocated (before : Bytes) (x : Expr) (after : Bytes) :
    (expr before x.unlocated after).outline = (expr before x after).outline := by
  simp [outline, expr]

@[simp] theorem outline_blocked (n : Node) : (blocked n).outline = ([], false, none) := rfl

/-- Chunks with the same outlines have the same texts. -/
theorem texts_eq {cs ds : List Chunk} (h : cs.map outline = ds.map outline) : texts cs = texts ds := by
  have htexts : ∀ cs, texts cs = (cs.map outline).flatMap (·.1) := fun cs => by simp [texts, List.flatMap_map, outline]
  rw [htexts, htexts, h]

end Chunk

@[simp] theorem VarDecl.chunk_unlocated (d : VarDecl) (after : String) :
    (d.unlocated.chunk after).outline = (d.chunk after).outline := by
  cases h : d.init <;> simp [VarDecl.chunk, VarDecl.unlocated, h]

/-- What is printed of the first part of a `for` does not depend on locations. -/
theorem initChunks_unlocated (s : Stmt) :
    (initChunks (some s.unlocated)).map Chunk.outline = (initChunks (some s)).map Chunk.outline := by
  cases s <;> simp [initChunks]

@[simp] theorem spacedChunks_unlocated (x : Option Expr) :
    (spacedChunks (x.map Expr.unlocated)).map Chunk.outline = (spacedChunks x).map Chunk.outline := by
  cases x <;> simp [spacedChunks]

@[simp] theorem methodHead_unlocated (mods : List Token) (t : TypeName) (i : Ident) (ps : List Param) :
    methodHead mods t.unlocated i.unlocated (ps.map Param.unlocated) = methodHead mods t i ps := by
  simp [methodHead, Function.comp_def]

mutual

/-- **What is printed of a statement does not depend on locations.** -/
theorem Stmt.outlines_unlocated (indent : Bytes) (s : Stmt) :
    (s.unlocated.chunks indent).map Chunk.outline = (s.chunks indent).map Chunk.outline := by
  match s with
  | .block b => simp [Stmt.chunks, b.outlines_unlocated]
  | .varDecl _ | .expr _ _ | .empty _ | .bad _ => simp [Stmt.chunks]
  | .ifElse _ _ body elseIfs none =>
    simp [Stmt.chunks, body.outlines_unlocated, ElseIf.outlines_unlocated indent elseIfs]
  | .ifElse _ _ body elseIfs (some b) =>
    simp [Stmt.chunks, body.outlines_unlocated, ElseIf.outlines_unlocated indent elseIfs, b.outlines_unlocated]
  | .whileLoop _ _ body | .doWhile _ body _ => simp [Stmt.chunks, body.outlines_unlocated]
  | .forLoop _ none _ _ body => simp [Stmt.chunks, body.outlines_unlocated]
  | .forLoop _ (some s) _ _ body => simp [Stmt.chunks, body.outlines_unlocated, initChunks_unlocated]
  | .tryCatch _ body catches none =>
    simp [Stmt.chunks, body.outlines_unlocated, CatchClause.outlines_unlocated indent catches]
  | .tryCatch _ body catches (some b) =>
    simp [Stmt.chunks, body.outlines_unlocated, CatchClause.outlines_unlocated indent catches, b.outlines_unlocated]
  | .ret _ none | .ret _ (some _) => simp [Stmt.chunks]
  | .classDecl _ _ _ members => simp [Stmt.chunks, Stmt.outlines_lines_unlocated (deeper indent) members]
  | .methodDecl _ _ _ _ _ body => simp [Stmt.chunks, body.outlines_unlocated]

theorem Block.outlines_unlocated (indent : Bytes) (b : Block) :
    (b.unlocated.chunks indent).map Chunk.outline = (b.chunks indent).map Chunk.outline := by
  match b with
  | .mk _ [] => simp [Block.chunks]
  | .mk _ (s :: ss) =>
    have h := Stmt.outlines_lines_unlocated (deeper indent) (s :: ss)
    simp only [Stmt.unlocatedAll] at h
    simp [Block.chunks, h]

theorem ElseIf.outlines_unlocated (indent : Bytes) (as : List ElseIf) :
    (ElseIf.allChunks indent (ElseIf.unlocatedAll as)).map Chunk.outline
      = (ElseIf.allChunks indent as).map Chunk.outline := by
  match as with
  | [] => rfl
  | .mk _ _ body :: rest => simp [ElseIf.allChunks, body.outlines_unlocated, ElseIf.outlines_unlocated indent rest]

theorem CatchClause.outlines_unlocated (indent : Bytes) (cs : List CatchClause) :
    (CatchClause.allChunks indent (CatchClause.unlocatedAll cs)).map Chunk.outline
      = (CatchClause.allChunks indent cs).map Chunk.outline := by
  match cs with
  | [] => rfl
  | .mk _ _ _ body :: rest =>
    simp [CatchClause.allChunks, body.outlines_unlocated, CatchClause.outlines_unlocated indent rest]

theorem Stmt.outlines_lines_unlocated (indent : Bytes) (ss : List Stmt) :
    (Stmt.lines indent (Stmt.unlocatedAll ss)).map Chunk.outline = (Stmt.lines indent ss).map Chunk.outline := by
  match ss with
  | [] => rfl
  | s :: ss => simp [Stmt.lines, s.outlines_unlocated, Stmt.outlines_lines_unlocated indent ss]

end

/-- The text of statements depends on their structure only. -/
theorem Stmt.texts_lines_unlocated (indent : Bytes) (ss : List Stmt) :
    Chunk.texts (Stmt.lines indent (Stmt.unlocatedAll ss)) = Chunk.texts (Stmt.lines indent ss) :=
  Chunk.texts_eq (Stmt.outlines_lines_unlocated indent ss)

end SmallJava
