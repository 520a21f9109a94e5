import SmallJava.Parser.Expr
import SmallJava.Parser.Stmt

/-!
# Moving what has locations

A `Relocation` says where offsets and positions go. Tokens, trees, problems and diagnostics are moved by moving every
location in them, and nothing else about them changes: a location that reaches from one place to another is moved
by moving both ends, the code of a diagnostic stays, and so does its message, unless it names a position
(`Problem.message_relocate`).
-/

namespace SmallJava

/-- Where offsets and positions are moved to. -/
structure Relocation where
  offset : Int → Int
  position : LineCol → LineCol

/-- Down by a number of bytes and a number of lines; columns stay. -/
def Relocation.down (bytes lines : Int) : Relocation where
  offset i := i + bytes
  position p := { p with line := p.line + lines }

/-- To the right by a number of bytes, on the same line. -/
def Relocation.right (bytes : Int) : Relocation where
  offset i := i + bytes
  position p := { p with column := p.column + bytes }

variable {r : Relocation}

/-! ## Locations and tokens -/

/-- The location with both its ends moved. -/
def Location.relocate (r : Relocation) (l : Location) : Location :=
  { span := ⟨r.offset l.span.start, r.offset l.span.stop⟩, first := r.position l.first, last := r.position l.last }

@[simp] theorem Location.start_relocate (l : Location) : (l.relocate r).span.start = r.offset l.span.start := rfl

@[simp] theorem Location.stop_relocate (l : Location) : (l.relocate r).span.stop = r.offset l.span.stop := rfl

@[simp] theorem Location.first_relocate (l : Location) : (l.relocate r).first = r.position l.first := rfl

@[simp] theorem Location.last_relocate (l : Location) : (l.relocate r).last = r.position l.last := rfl

/-- From one place to another, both moved. -/
theorem Location.relocate_through (a b : Location) :
    (a.through b).relocate r = (a.relocate r).through (b.relocate r) := rfl

theorem Location.relocate_atStart (l : Location) : l.atStart.relocate r = (l.relocate r).atStart := rfl

/-- The token at its new place. -/
def Lexeme.relocate (r : Relocation) (x : Lexeme) : Lexeme := { x with location := x.location.relocate r }

@[simp] theorem Lexeme.token_relocate (x : Lexeme) : (x.relocate r).token = x.token := rfl

@[simp] theorem Lexeme.text_relocate (x : Lexeme) : (x.relocate r).text = x.text := rfl

@[simp] theorem Lexeme.location_relocate (x : Lexeme) : (x.relocate r).location = x.location.relocate r := rfl

@[simp] theorem Lexeme.describe_relocate (x : Lexeme) : (x.relocate r).describe = x.describe := rfl

/-! ## Expressions -/

/-- The name at its new place. -/
def Ident.relocate (r : Relocation) (i : Ident) : Ident := { i with location := i.location.relocate r }

/-- The type at its new place. -/
def TypeName.relocate (r : Relocation) (t : TypeName) : TypeName := { t with location := t.location.relocate r }

/-- The literal at its new place. -/
def Literal.relocate (r : Relocation) (l : Literal) : Literal := { l with location := l.location.relocate r }

/-- The comment at its new place. -/
def Comment.relocate (r : Relocation) (c : Comment) : Comment := { c with location := c.location.relocate r }

/-- The parameter at its new place, with its type and its name. -/
def Param.relocate (r : Relocation) (p : Param) : Param :=
  { location := p.location.relocate r, type := p.type.relocate r, name := p.name.relocate r }

mutual

/-- The expression with all its locations moved. -/
def Expr.relocate (r : Relocation) : Expr → Expr
  | .literal l => .literal (l.relocate r)
  | .ident i => .ident (i.relocate r)
  | .array a => .array (a.relocate r)
  | .index loc x i => .index (loc.relocate r) (x.relocate r) (i.relocate r)
  | .select loc x sel => .select (loc.relocate r) (x.relocate r) (sel.relocate r)
  | .call loc fn args => .call (loc.relocate r) (fn.relocate r) (Expr.relocateAll r args)
  | .new loc type args len elems =>
    .new (loc.relocate r) (type.relocate r) (Expr.relocateAll r args)
      (match len with | none => none | some x => some (x.relocate r))
      (match elems with | none => none | some a => some (a.relocate r))
  | .paren loc x => .paren (loc.relocate r) (x.relocate r)
  | .unary loc op x fixity => .unary (loc.relocate r) op (x.relocate r) fixity
  | .binary loc op x y => .binary (loc.relocate r) op (x.relocate r) (y.relocate r)
  | .assign loc op target value => .assign (loc.relocate r) op (target.relocate r) (value.relocate r)
  | .bad loc => .bad (loc.relocate r)

/-- The array literal with all its locations moved. -/
def ArrayLit.relocate (r : Relocation) : ArrayLit → ArrayLit
  | .mk loc elems => .mk (loc.relocate r) (Expr.relocateAll r elems)

/-- The expressions with all their locations moved. -/
def Expr.relocateAll (r : Relocation) : List Expr → List Expr
  | [] => []
  | x :: xs => x.relocate r :: Expr.relocateAll r xs

end

@[simp] theorem Expr.relocateAll_eq_map (xs : List Expr) : Expr.relocateAll r xs = xs.map (Expr.relocate r) := by
  induction xs with
  | nil => rfl
  | cons x xs ih => rw [Expr.relocateAll, ih, List.map_cons]

theorem Expr.relocate_call (loc : Location) (fn : Expr) (args : List Expr) :
    (Expr.call loc fn args).relocate r
      = .call (loc.relocate r) (fn.relocate r) (args.map (Expr.relocate r)) := by
  rw [Expr.relocate, Expr.relocateAll_eq_map]

/-- The parts of an allocation that are there are moved. -/
theorem Expr.relocate_new (loc : Location) (type : TypeName) (args : List Expr) (len : Option Expr)
    (elems : Option ArrayLit) :
    (Expr.new loc type args len elems).relocate r
      = .new (loc.relocate r) (type.relocate r) (args.map (Expr.relocate r)) (len.map (Expr.relocate r))
          (elems.map (ArrayLit.relocate r)) := by
  cases len <;> cases elems <;> simp [Expr.relocate]

theorem ArrayLit.relocate_mk (loc : Location) (elems : List Expr) :
    (ArrayLit.mk loc elems).relocate r = .mk (loc.relocate r) (elems.map (Expr.relocate r)) := by
  rw [ArrayLit.relocate, Expr.relocateAll_eq_map]

@[simp] theorem Expr.location_relocate (x : Expr) : (x.relocate r).location = x.location.relocate r := by
  cases x with
  | array a => cases a; rfl
  | new => rw [Expr.relocate_new]; rfl
  | _ => rfl

@[simp] theorem Expr.isAssignable_relocate (x : Expr) : (x.relocate r).isAssignable = x.isAssignable := by
  cases x with
  | paren loc y => exact y.isAssignable_relocate
  | new => rw [Expr.relocate_new]; rfl
  | _ => rfl

@[simp] theorem Expr.describe_relocate (x : Expr) : (x.relocate r).describe = x.describe := by
  cases x with
  | new => rw [Expr.relocate_new]; rfl
  | _ => rfl

/-! ## Statements -/

/-- The declaration at its new place, with its type, its name and its value. -/
def VarDecl.relocate (r : Relocation) (d : VarDecl) : VarDecl :=
  { location := d.location.relocate r, modifiers := d.modifiers, type := d.type.relocate r,
    name := d.name.relocate r, init := d.init.map (Expr.relocate r) }

mutual

/-- The statement with all its locations moved. -/
def Stmt.relocate (r : Relocation) : Stmt → Stmt
  | .block b => .block (b.relocate r)
  | .varDecl d => .varDecl (d.relocate r)
  | .expr loc x => .expr (loc.relocate r) (x.relocate r)
  | .ifElse loc cond body elseIfs otherwise =>
    .ifElse (loc.relocate r) (cond.relocate r) (body.relocate r) (ElseIf.relocateAll r elseIfs)
      (match otherwise with | none => none | some b => some (b.relocate r))
  | .whileLoop loc cond body => .whileLoop (loc.relocate r) (cond.relocate r) (body.relocate r)
  | .doWhile loc body cond => .doWhile (loc.relocate r) (body.relocate r) (cond.relocate r)
  | .forLoop loc init cond update body =>
    .forLoop (loc.relocate r) (match init with | none => none | some s => some (s.relocate r))
      (cond.map (Expr.relocate r)) (update.map (Expr.relocate r)) (body.relocate r)
  | .tryCatch loc body catches cleanup =>
    .tryCatch (loc.relocate r) (body.relocate r) (CatchClause.relocateAll r catches)
      (match cleanup with | none => none | some b => some (b.relocate r))
  | .ret loc result => .ret (loc.relocate r) (result.map (Expr.relocate r))
  | .empty loc => .empty (loc.relocate r)
  | .classDecl loc mods name members =>
    .classDecl (loc.relocate r) mods (name.relocate r) (Stmt.relocateAll r members)
  | .methodDecl loc mods result name params body =>
    .methodDecl (loc.relocate r) mods (result.relocate r) (name.relocate r) (params.map (Param.relocate r))
      (body.relocate r)
  | .bad loc => .bad (loc.relocate r)

/-- The block with all its locations moved. -/
def Block.relocate (r : Relocation) : Block → Block
  | .mk loc stmts => .mk (loc.relocate r) (Stmt.relocateAll r stmts)

/-- The arm with all its locations moved. -/
def ElseIf.relocate (r : Relocation) : ElseIf → ElseIf
  | .mk loc cond body => .mk (loc.relocate r) (cond.relocate r) (body.relocate r)

/-- The arms with all their locations moved. -/
def ElseIf.relocateAll (r : Relocation) : List ElseIf → List ElseIf
  | [] => []
  | arm :: rest => arm.relocate r :: ElseIf.relocateAll r rest

/-- The clause with all its locations moved. -/
def CatchClause.relocate (r : Relocation) : CatchClause → CatchClause
  | .mk loc type name body => .mk (loc.relocate r) (type.relocate r) (name.relocate r) (body.relocate r)

/-- The clauses with all their locations moved. -/
def CatchClause.relocateAll (r : Relocation) : List CatchClause → List CatchClause
  | [] => []
  | c :: rest => c.relocate r :: CatchClause.relocateAll r rest

/-- The statements with all their locations moved. -/
def Stmt.relocateAll (r : Relocation) : List Stmt → List Stmt
  | [] => []
  | s :: ss => s.relocate r :: Stmt.relocateAll r ss

end

@[simp] theorem Stmt.relocateAll_eq_map (ss : List Stmt) : Stmt.relocateAll r ss = ss.map (Stmt.relocate r) := by
  induction ss with
  | nil => rfl
  | cons s ss ih => rw [Stmt.relocateAll, ih, List.map_cons]

@[simp] theorem ElseIf.relocateAll_eq_map (arms : List ElseIf) :
    ElseIf.relocateAll r arms = arms.map (ElseIf.relocate r) := by
  induction arms with
  | nil => rfl
  | cons arm arms ih => rw [ElseIf.relocateAll, ih, List.map_cons]

@[simp] theorem CatchClause.relocateAll_eq_map (cs : List CatchClause) :
    CatchClause.relocateAll r cs = cs.map (CatchClause.relocate r) := by
  induction cs with
  | nil => rfl
  | cons c cs ih => rw [CatchClause.relocateAll, ih, List.map_cons]

/-- All arms of a conditional are moved. -/
theorem Stmt.relocate_ifElse (loc : Location) (cond : Expr) (body : Block) (elseIfs : List ElseIf)
    (otherwise : Option Block) :
    (Stmt.ifElse loc cond body elseIfs otherwise).relocate r
      = .ifElse (loc.relocate r) (cond.relocate r) (body.relocate r) (elseIfs.map (ElseIf.relocate r))
          (otherwise.map (Block.relocate r)) := by
  cases otherwise <;> simp [Stmt.relocate]

theorem Stmt.relocate_forLoop (loc : Location) (init : Option Stmt) (cond update : Option Expr) (body : Block) :
    (Stmt.forLoop loc init cond update body).relocate r
      = .forLoop (loc.relocate r) (init.map (Stmt.relocate r)) (cond.map (Expr.relocate r))
          (update.map (Expr.relocate r)) (body.relocate r) := by
  cases init <;> simp [Stmt.relocate]

/-- All clauses of a `try` are moved. -/
theorem Stmt.relocate_tryCatch (loc : Location) (body : Block) (catches : List CatchClause) (cleanup : Option Block) :
    (Stmt.tryCatch loc body catches cleanup).relocate r
      = .tryCatch (loc.relocate r) (body.relocate r) (catches.map (CatchClause.relocate r))
          (cleanup.map (Block.relocate r)) := by
  cases cleanup <;> simp [Stmt.relocate]

theorem Stmt.relocate_classDecl (loc : Location) (mods : List Token) (name : Ident) (members : List Stmt) :
    (Stmt.classDecl loc mods name members).relocate r
      = .classDecl (loc.relocate r) mods (name.relocate r) (members.map (Stmt.relocate r)) := by
  rw [Stmt.relocate, Stmt.relocateAll_eq_map]

theorem Block.relocate_mk (loc : Location) (stmts : List Stmt) :
    (Block.mk loc stmts).relocate r = .mk (loc.relocate r) (stmts.map (Stmt.relocate r)) := by
  rw [Block.relocate, Stmt.relocateAll_eq_map]

@[simp] theorem Block.location_relocate (b : Block) : (b.relocate r).location = b.location.relocate r := by
  cases b
  rfl

/-! ## Diagnostics -/

/-- The problem with the positions that it names moved. -/
def Problem.relocate (r : Relocation) : Problem → Problem
  | .expectedToken wanted got => .expectedToken wanted (got.relocate r)
  | .expectedExpression got => .expectedExpression (got.relocate r)
  | .unterminatedBlock opened => .unterminatedBlock (r.position opened)
  | p => p

@[simp] theorem Problem.code_relocate (p : Problem) : (p.relocate r).code = p.code := by
  cases p <;> rfl

/-- Only one kind of message names a position. -/
theorem Problem.message_relocate (p : Problem) (h : p.code ≠ .unterminatedBlock) :
    (p.relocate r).message = p.message := by
  cases p with
  | unterminatedBlock opened => exact absurd rfl h
  | _ => rfl

/-- The diagnostic at its new place. -/
def Diagnostic.relocate (r : Relocation) (d : Diagnostic) : Diagnostic :=
  { d with problem := d.problem.relocate r, location := d.location.relocate r }

@[simp] theorem Diagnostic.code_relocate (d : Diagnostic) : (d.relocate r).code = d.code := Problem.code_relocate _

@[simp] theorem Diagnostic.location_relocate (d : Diagnostic) : (d.relocate r).location = d.location.relocate r := rfl

/-! ## What depends on the kinds of tokens only -/

@[simp] theorem closerDistance_relocate (nest : Int) (xs : List Lexeme) :
    closerDistance nest (xs.map (Lexeme.relocate r)) = closerDistance nest xs := by
  induction xs generalizing nest with
  | nil => rfl
  | cons x xs ih => simp only [List.map_cons, closerDistance, Lexeme.token_relocate, ih]

namespace Parser

/-- Looking ahead over a dotted name depends on the kinds of tokens only. -/
theorem afterDots_relocate (xs : List Lexeme) :
    afterDots (xs.map (Lexeme.relocate r)) = (afterDots xs).map (Lexeme.relocate r) := by
  fun_induction afterDots xs with
  | case1 x y xs h ih => simp [afterDots, h, ih]
  | case2 x y xs h => simp [afterDots, h]
  | case3 xs h =>
    match xs with
    | [] | [_] => rfl
    | x :: y :: xs => exact absurd rfl (h x y xs)

theorem afterBrackets_relocate (xs : List Lexeme) :
    afterBrackets (xs.map (Lexeme.relocate r)) = (afterBrackets xs).map (Lexeme.relocate r) := by
  fun_induction afterBrackets xs with
  | case1 x y xs h ih => simp [afterBrackets, h, ih]
  | case2 x y xs h => simp [afterBrackets, h]
  | case3 xs h =>
    match xs with
    | [] | [_] => rfl
    | x :: y :: xs => exact absurd rfl (h x y xs)

theorem afterTypeName?_relocate (xs : List Lexeme) :
    afterTypeName? (xs.map (Lexeme.relocate r)) = (afterTypeName? xs).map (List.map (Lexeme.relocate r)) := by
  cases xs with
  | nil => rfl
  | cons x xs =>
    simp only [List.map_cons, afterTypeName?, Lexeme.token_relocate, afterDots_relocate, afterBrackets_relocate]
    split <;> rfl

@[simp] theorem startsVarDecl_relocate (xs : List Lexeme) :
    startsVarDecl (xs.map (Lexeme.relocate r)) = startsVarDecl xs := by
  unfold startsVarDecl
  rw [afterTypeName?_relocate]
  rcases afterTypeName? xs with - | - | ⟨x, ys⟩ <;> rfl

@[simp] theorem startsMethodDecl_relocate (xs : List Lexeme) :
    startsMethodDecl (xs.map (Lexeme.relocate r)) = startsMethodDecl xs := by
  unfold startsMethodDecl
  rw [afterTypeName?_relocate]
  rcases afterTypeName? xs with - | - | ⟨x, - | ⟨y, ys⟩⟩ <;> rfl

end Parser

end SmallJava
