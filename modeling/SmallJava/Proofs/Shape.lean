import SmallJava.Proofs.Grammar.Extent
import SmallJava.Proofs.Reading.Program
import SmallJava.Proofs.Tree.Preorder

/-!
# The shape of parsed trees

A tree can be printed without adding parentheses, and a reader of trees need not expect everything that the types allow:
operands bind more tightly than the operators over them, allocations come in three forms, and declarations stand only
where there is a place for them. `Node.Shaped` says that of one node. It holds of all nodes of all derived trees, error
productions included, so it is an invariant of all that a parser gives.

* `Expr.Shaped`, `Stmt.Shaped` — expressions and statements, seen from their own node;
* `Node.StandsBelow` — where declarations stand;
* `DerivesExpr.shaped`, `DerivesStmt.shaped` — what the symbols of the grammar give.
-/

namespace SmallJava

open Grammar

/-! ## Shapes -/

/-- The binding strength of the operator of a binary expression. -/
def Expr.precedence? : Expr → Option Nat
  | .binary _ op _ _ => op.precedence?
  | _ => none

/-- **The shape of an expression.** What binds less tightly than an operator is not its operand. Binary operators of the
same strength group to the left, and unary operators that stand behind their operand, indices, selectors and calls are
applied to what has no operator. An allocation is one of an object, one of an array of some length, or one of an array
with some elements. -/
def Expr.Shaped : Expr → Prop
  | .binary _ op x y =>
    x.kind ≠ .assignExpr ∧ y.kind ≠ .assignExpr ∧
      ∃ p, op.precedence? = some p ∧ (∀ q ∈ x.precedence?, p ≤ q) ∧ ∀ q ∈ y.precedence?, p < q
  | .unary _ op x .before => Parser.isPrefixOperator op = true ∧ x.kind ∉ [.binaryExpr, .assignExpr]
  | .unary _ op x .after => op ∈ [.inc, .dec] ∧ x.kind ∉ [.binaryExpr, .assignExpr, .unaryExpr]
  | .index _ x _ | .select _ x _ | .call _ x _ => x.kind ∉ [.binaryExpr, .assignExpr, .unaryExpr]
  | .assign _ op target _ => op.isAssign = true ∧ target.kind ≠ .assignExpr
  | .new _ type args len elems =>
    (len = none ∧ elems = none ∧ type.dims = 0) ∨
    (len ≠ none ∧ elems = none ∧ args = [] ∧ 1 ≤ type.dims) ∨
    (len = none ∧ elems ≠ none ∧ args = [] ∧ 1 ≤ type.dims)
  | .literal l => l.kind.isLiteral = true
  | .ident _ | .array _ | .paren .. | .bad _ => True

/-- **The shape of a statement.** A loop starts with a declaration or an expression, if with anything; members of a
class are methods, fields, or what could not be understood; and modifiers are modifiers. -/
def Stmt.Shaped : Stmt → Prop
  | .forLoop _ init _ _ _ => ∀ s ∈ init, s.kind ∈ [.varDecl, .exprStmt]
  | .varDecl d => ∀ t ∈ d.modifiers, t.isModifier = true
  | .methodDecl _ modifiers _ _ _ _ => ∀ t ∈ modifiers, t.isModifier = true
  | .classDecl _ modifiers _ members =>
    (∀ t ∈ modifiers, t.isModifier = true) ∧ ∀ m ∈ members, m.kind ∈ [.methodDecl, .varDecl, .badStmt]
  | _ => True

namespace Node

/-- **Where declarations stand.** Classes stand on their own, methods there or in a class, and variables have modifiers
only as fields. -/
def StandsBelow (parent : NodeKind) : Node → Prop
  | .stmt (.classDecl ..) => parent = .program
  | .stmt (.methodDecl ..) => parent = .program ∨ parent = .classDecl
  | .stmt (.varDecl d) => d.modifiers = [] ∨ parent = .classDecl
  | _ => True

/-- The shape of a node, without what is below it. -/
def OwnShape : Node → Prop
  | .expr x => x.Shaped
  | .stmt s => s.Shaped
  | _ => True

/-- **The shape of a node.** -/
def Shaped (n : Node) : Prop := n.OwnShape ∧ ∀ c ∈ n.children.map (·.node), c.StandsBelow n.kind

@[simp] theorem standsBelow_expr {parent : NodeKind} {x : Expr} : (Node.expr x).StandsBelow parent := trivial

@[simp] theorem standsBelow_block {parent : NodeKind} {b : Block} : (Node.stmt (.block b)).StandsBelow parent := trivial

@[simp] theorem standsBelow_typeName {parent : NodeKind} {t : TypeName} :
    (Node.typeName t).StandsBelow parent := trivial

@[simp] theorem standsBelow_elseIf {parent : NodeKind} {a : ElseIf} : (Node.elseIf a).StandsBelow parent := trivial

@[simp] theorem standsBelow_catchClause {parent : NodeKind} {c : CatchClause} :
    (Node.catchClause c).StandsBelow parent := trivial

@[simp] theorem standsBelow_param {parent : NodeKind} {p : Param} : (Node.param p).StandsBelow parent := trivial

/-- What may stand in a block may stand anywhere. -/
theorem StandsBelow.anywhere {n : Node} (h : n.StandsBelow .block) (parent : NodeKind) : n.StandsBelow parent := by
  unfold StandsBelow at h ⊢
  split at h
  · cases h
  · rcases h with h | h <;> cases h
  · exact h.imp_right fun h => nomatch h
  · trivial

/-- Any statement but a declaration may stand anywhere. -/
theorem standsBelow_stmt {s : Stmt} (h : s.kind ∉ [.classDecl, .methodDecl, .varDecl]) (parent : NodeKind) :
    (Node.stmt s).StandsBelow parent := by
  cases s <;> simp [Stmt.kind, StandsBelow] at h ⊢

/-- No declaration stands below an expression. -/
theorem all_shaped_expr {x : Expr} :
    (Node.expr x).All Shaped ↔ x.Shaped ∧ ∀ c ∈ x.children.map (·.node), c.All Shaped := by
  have hbelow : ∀ c ∈ x.children.map (·.node), c.StandsBelow x.kind := by
    cases x with
    | array a =>
      cases a
      simp [Expr.children]
    | new loc type args len elems =>
      cases len <;> cases elems <;> simp [Expr.children, ArrayLit.node, or_imp, forall_and]
    | _ => simp [Expr.children, Ident.node]
  rw [all_iff]
  exact and_congr_left fun _ => and_iff_left hbelow

/-- A statement has its shape if everything under it has, and stands where it may. -/
theorem all_shaped_stmt {s : Stmt} :
    (Node.stmt s).All Shaped ↔
      s.Shaped ∧ ∀ c ∈ s.children.map (·.node), c.StandsBelow s.kind ∧ c.All Shaped := by
  rw [all_iff]
  constructor
  · rintro ⟨⟨hown, hbelow⟩, hall⟩
    exact ⟨hown, fun c hc => ⟨hbelow c hc, hall c hc⟩⟩
  · rintro ⟨hown, hchildren⟩
    exact ⟨⟨hown, fun c hc => (hchildren c hc).1⟩, fun c hc => (hchildren c hc).2⟩

theorem all_shaped_ifElse {loc : Location} {cond : Expr} {body : Block} {arms : List ElseIf}
    {otherwise : Option Block} :
    (Node.stmt (.ifElse loc cond body arms otherwise)).All Shaped ↔
      (Node.expr cond).All Shaped ∧ (Node.stmt (.block body)).All Shaped ∧
        (∀ a ∈ arms, (Node.elseIf a).All Shaped) ∧ ∀ b ∈ otherwise, (Node.stmt (.block b)).All Shaped := by
  rw [all_shaped_stmt]
  cases otherwise <;> simp [Stmt.Shaped, Stmt.children, Block.node, or_imp, forall_and]

theorem all_shaped_tryCatch {loc : Location} {body : Block} {clauses : List CatchClause} {cleanup : Option Block} :
    (Node.stmt (.tryCatch loc body clauses cleanup)).All Shaped ↔
      (Node.stmt (.block body)).All Shaped ∧
        (∀ c ∈ clauses, (Node.catchClause c).All Shaped) ∧ ∀ b ∈ cleanup, (Node.stmt (.block b)).All Shaped := by
  rw [all_shaped_stmt]
  cases cleanup <;> simp [Stmt.Shaped, Stmt.children, Block.node, or_imp, forall_and]

/-- Only a declaration or an expression starts a `for`. -/
theorem all_shaped_forLoop {loc : Location} {init : Option Stmt} {cond update : Option Expr} {body : Block} :
    (Node.stmt (.forLoop loc init cond update body)).All Shaped ↔
      (∀ s ∈ init, s.kind ∈ [.varDecl, .exprStmt] ∧ (Node.stmt s).StandsBelow .forStmt ∧ (Node.stmt s).All Shaped) ∧
        (∀ x ∈ cond, (Node.expr x).All Shaped) ∧ (∀ x ∈ update, (Node.expr x).All Shaped) ∧
        (Node.stmt (.block body)).All Shaped := by
  rw [all_shaped_stmt]
  cases init <;> cases cond <;> cases update <;>
    simp [Stmt.Shaped, Stmt.children, Stmt.kind, Block.node, and_assoc]

@[simp] theorem shaped_ident {i : Ident} : (Node.expr (.ident i)).Shaped := by
  simp [Shaped, OwnShape, Expr.Shaped, children, Expr.children]

@[simp] theorem shaped_typeName {t : TypeName} : (Node.typeName t).Shaped := by
  simp [Shaped, OwnShape, children]

@[simp] theorem shaped_elseIf {loc : Location} {c : Expr} {b : Block} : (Node.elseIf (.mk loc c b)).Shaped := by
  simp [Shaped, OwnShape, children, Block.node]

@[simp] theorem shaped_catchClause {loc : Location} {t : TypeName} {i : Ident} {b : Block} :
    (Node.catchClause (.mk loc t i b)).Shaped := by
  simp [Shaped, OwnShape, children, Block.node, Ident.node]

@[simp] theorem shaped_param {p : Param} : (Node.param p).Shaped := by
  simp [Shaped, OwnShape, children, Ident.node]

end Node

/-! ## Expressions -/

namespace Grammar

variable {m : Mode} {xs : List Lexeme}

/-- What a symbol of the grammar gives: an operand that binds tightly enough. -/
def ExprSymbol.Gives : ExprSymbol → Expr → Prop
  | .binary p, x => x.kind ≠ .assignExpr ∧ ∀ q ∈ x.precedence?, p ≤ q
  | .unary, x => x.kind ∉ [.binaryExpr, .assignExpr]
  | .chain, x | .operand, x | .array, x => x.kind ∉ [.binaryExpr, .assignExpr, .unaryExpr]
  | .expr, _ | .items, _ | .arguments, _ => True

theorem precedence?_eq_none {x : Expr} (h : x.kind ≠ .binaryExpr) : x.precedence? = none := by
  cases x with
  | binary => exact absurd rfl h
  | _ => rfl

/-- **Derived expressions have their shape**, and bind as tightly as their symbol asks. -/
theorem DerivesExpr.shaped {sym : ExprSymbol} {ts : List Expr} (h : DerivesExpr m sym xs ts) :
    ∀ t ∈ ts, sym.Gives t ∧ (Node.expr t).All Node.Shaped := by
  -- what the symbol gives is what the production above it has to know about its operands
  induction h with
  | value _ ih | one _ ih | someArguments _ _ _ ih => exact fun t ht => ⟨trivial, (ih t ht).2⟩
  | assign _ hop _ _ ihx ihv =>
    simp only [List.forall_mem_singleton, Node.all_shaped_expr (x := .assign ..)] at ihx ihv ⊢
    exact ⟨trivial, ⟨hop, ihx.1.1⟩, by simp [Expr.children, ihx.2, ihv.2]⟩
  -- the left operand binds at least as tightly as the operator, the right one more tightly
  | @joined p _ _ _ _ _ _ hop _ ihx ihy =>
    simp only [List.forall_mem_singleton, Node.all_shaped_expr (x := .binary ..)] at ihx ihy ⊢
    have hgives : ∀ q ∈ some p, p ≤ q := by simp
    refine ⟨⟨by simp [Expr.kind], by rwa [Expr.precedence?, hop]⟩, ⟨ihx.1.1, ihy.1.1, p, hop, ihx.1.2, ?_⟩, ?_⟩
    · exact fun q hq => ihy.1.2 q hq
    · simp [Expr.children, ihx.2, ihy.2]
  | tighter _ _ ih =>
    intro t ht
    obtain ⟨⟨hkind, hbinds⟩, hall⟩ := ih t ht
    exact ⟨⟨hkind, fun q hq => Nat.le_of_succ_le (hbinds q hq)⟩, hall⟩
  | term _ ih =>
    intro t ht
    obtain ⟨hgives, hall⟩ := ih t ht
    simp only [ExprSymbol.Gives, List.mem_cons, List.not_mem_nil, or_false, not_or] at hgives
    exact ⟨⟨hgives.2, by simp [precedence?_eq_none hgives.1]⟩, hall⟩
  | signed hop _ ih =>
    simp only [List.forall_mem_singleton, Node.all_shaped_expr (x := .unary ..)] at ih ⊢
    exact ⟨by simp [ExprSymbol.Gives, Expr.kind], ⟨hop, ih.1⟩, by simp [Expr.children, ih.2]⟩
  | unsigned _ ih =>
    intro t ht
    obtain ⟨hgives, hall⟩ := ih t ht
    have hmore : t.kind ∈ [.binaryExpr, .assignExpr] → t.kind ∈ [.binaryExpr, .assignExpr] ++ [.unaryExpr] :=
      List.mem_append_left _
    exact ⟨fun hmem => hgives (hmore hmem), hall⟩
  | stepped _ hop ih =>
    simp only [List.forall_mem_singleton, Node.all_shaped_expr (x := .unary ..)] at ih ⊢
    exact ⟨by simp [ExprSymbol.Gives, Expr.kind], ⟨by simpa using hop, ih.1⟩, by simp [Expr.children, ih.2]⟩
  | start _ ih | arrayOperand _ ih => exact ih
  | index _ _ _ _ ihx ihi =>
    simp only [List.forall_mem_singleton, Node.all_shaped_expr (x := .index ..)] at ihx ihi ⊢
    exact ⟨by simp [ExprSymbol.Gives, Expr.kind], ihx.1, by simp [Expr.children, ihx.2, ihi.2]⟩
  | call _ _ ihx iha =>
    simp only [List.forall_mem_singleton, Node.all_shaped_expr (x := .call ..)] at ihx ⊢
    exact ⟨by simp [ExprSymbol.Gives, Expr.kind], ihx.1, by simpa [Expr.children, ihx.2] using fun a ha => (iha a ha).2⟩
  | select _ _ _ ih =>
    simp only [List.forall_mem_singleton, Node.all_shaped_expr (x := .select ..)] at ih ⊢
    exact ⟨by simp [ExprSymbol.Gives, Expr.kind], ih.1, by simp [Expr.children, Ident.node, ih.2]⟩
  | literal hx =>
    simpa [Node.all_shaped_expr, ExprSymbol.Gives, Expr.kind, Expr.children, Expr.Shaped, Lexeme.literal] using hx
  | ident | malformed => simp [Node.all_shaped_expr, ExprSymbol.Gives, Expr.kind, Expr.children, Expr.Shaped]
  | paren _ _ _ ih =>
    simp only [List.forall_mem_singleton, Node.all_shaped_expr (x := .paren ..)] at ih ⊢
    exact ⟨by simp [ExprSymbol.Gives, Expr.kind], trivial, by simp [Expr.children, ih.2]⟩
  | newObject _ hq _ ih =>
    simp only [List.forall_mem_singleton, Node.all_shaped_expr (x := .new ..)]
    refine ⟨by simp [ExprSymbol.Gives, Expr.kind], .inl ⟨rfl, rfl, hq.dims⟩, ?_⟩
    simpa [Expr.children] using fun a ha => (ih a ha).2
  | newLength _ _ _ _ _ _ ih =>
    simp only [List.forall_mem_singleton, Node.all_shaped_expr (x := .new ..)] at ih ⊢
    refine ⟨by simp [ExprSymbol.Gives, Expr.kind], .inr (.inl ⟨by simp, rfl, rfl, by dsimp only; omega⟩), ?_⟩
    simp [Expr.children, ih.2]
  | newElements _ _ hpos _ ih =>
    simp only [List.forall_mem_singleton, Node.all_shaped_expr (x := .new ..)] at ih ⊢
    refine ⟨by simp [ExprSymbol.Gives, Expr.kind], .inr (.inr ⟨rfl, by simp, rfl, hpos⟩), ?_⟩
    simp [Expr.children, ArrayLit.node, ih.2]
  | more _ _ _ ih ihs =>
    refine List.forall_mem_cons.2 ⟨⟨trivial, (ih _ List.mem_cons_self).2⟩, ihs⟩
  | noArguments => simp
  | noElements =>
    simp [Node.all_shaped_expr, ExprSymbol.Gives, Expr.kind, Expr.children, Expr.Shaped, Child.many, Child.manyFrom]
  | elements _ _ _ ih | elementsComma _ _ _ _ ih =>
    simp only [List.forall_mem_singleton, Node.all_shaped_expr (x := .array _)]
    refine ⟨by simp [ExprSymbol.Gives, Expr.kind], trivial, ?_⟩
    simpa [Expr.children] using fun t ht => (ih t ht).2

/-! ## Parts of statements -/

theorem Condition.shaped {x : Expr} (h : Condition m xs x) : (Node.expr x).All Node.Shaped := by
  cases h with
  | good _ hx _ => exact (hx.shaped _ (List.mem_singleton_self _)).2
  | bad => simp [Node.all_shaped_expr, Expr.children, Expr.Shaped]

theorem OptExpr.shaped {o : Option Expr} (h : OptExpr m xs o) : ∀ x ∈ o, (Node.expr x).All Node.Shaped := by
  cases h with
  | none => simp
  | some hx => simpa using (hx.shaped _ (List.mem_singleton_self _)).2

/-- The value of a declaration has its shape. -/
theorem Declares.shaped {t : TypeName} {i : Ident} {o : Option Expr} (h : Declares m xs t i o) :
    ∀ x ∈ o, (Node.expr x).All Node.Shaped := by
  cases h with
  | bare => simp
  | init _ _ _ hx => simpa using (hx.shaped _ (List.mem_singleton_self _)).2

/-- A declaration has its shape if its value has. -/
theorem shaped_varDecl {d : VarDecl} (hmods : ∀ t ∈ d.modifiers, t.isModifier = true)
    (hinit : ∀ x ∈ d.init, (Node.expr x).All Node.Shaped) : (Node.stmt (.varDecl d)).All Node.Shaped := by
  refine Node.all_shaped_stmt.2 ⟨hmods, ?_⟩
  simpa [Stmt.children, Ident.node] using hinit

/-- A loop starts with a declaration without modifiers, or with an expression. -/
theorem ForInit.shaped {o : Option Stmt} (h : ForInit m xs o) :
    ∀ s ∈ o, s.kind ∈ [.varDecl, .exprStmt] ∧ (Node.stmt s).StandsBelow .forStmt ∧ (Node.stmt s).All Node.Shaped := by
  cases h with
  | none => simp
  | decl hd =>
    rintro s ⟨⟩
    exact ⟨by simp [Stmt.kind], .inl rfl, shaped_varDecl (by simp) hd.shaped⟩
  | expr hx =>
    rintro s ⟨⟩
    refine ⟨by simp [Stmt.kind], trivial, Node.all_shaped_stmt.2 ⟨trivial, ?_⟩⟩
    simpa [Stmt.children] using (hx.shaped _ (List.mem_singleton_self _)).2

/-! ## Statements -/

/-- The kind of node that holds what stands in a place. -/
def Place.kind : Place → NodeKind
  | .inside => .block
  | .member => .classDecl
  | .top => .program

/-- What a symbol of the grammar gives: a statement or declaration that may stand in its place. -/
def StmtSymbol.Gives : StmtSymbol → Stmt → Prop
  | .item p, s | .list p, s =>
    (Node.stmt s).StandsBelow p.kind ∧ (p = .member → s.kind ∈ [.methodDecl, .varDecl, .badStmt])
  | .block, s => s.kind = .block
  | .arms, s => s.kind = .ifStmt
  | .clauses, s => s.kind = .tryStmt

/-- A statement that declares nothing may stand in a block. -/
theorem gives_inside {s : Stmt} (h : s.kind ∉ [.classDecl, .methodDecl, .varDecl]) :
    (StmtSymbol.item .inside).Gives s :=
  ⟨Node.standsBelow_stmt h _, by simp⟩

/-- **Derived statements have their shape**, and stand where they may. -/
theorem DerivesStmt.shaped {sym : StmtSymbol} {ss : List Stmt} (h : DerivesStmt m sym xs ss) :
    ∀ s ∈ ss, sym.Gives s ∧ (Node.stmt s).All Node.Shaped := by
  induction h with
  | braced _ ih | ifStmt _ ih | tryStmt _ _ _ ih =>
    intro s hs
    obtain ⟨hkind, hall⟩ := ih s hs
    exact ⟨gives_inside (by rw [show s.kind = _ from hkind]; simp), hall⟩
  | varDecl hd _ =>
    refine List.forall_mem_singleton.2 ⟨⟨.inl rfl, by simp⟩, shaped_varDecl (by simp) hd.shaped⟩
  | expr hx _ _ =>
    refine List.forall_mem_singleton.2 ⟨gives_inside (by simp [Stmt.kind]), Node.all_shaped_stmt.2 ⟨trivial, ?_⟩⟩
    simpa [Stmt.children] using (hx.shaped _ (List.mem_singleton_self _)).2
  | empty _ =>
    refine List.forall_mem_singleton.2 ⟨gives_inside (by simp [Stmt.kind]), Node.all_shaped_stmt.2 ⟨trivial, ?_⟩⟩
    simp [Stmt.children]
  | ret _ hx _ =>
    refine List.forall_mem_singleton.2 ⟨gives_inside (by simp [Stmt.kind]), Node.all_shaped_stmt.2 ⟨trivial, ?_⟩⟩
    simpa [Stmt.children] using hx.shaped
  | whileLoop _ hc _ ih | doWhile _ _ _ hc _ ih =>
    have hb := (ih _ (List.mem_singleton_self _)).2
    refine List.forall_mem_singleton.2 ⟨gives_inside (by simp [Stmt.kind]), Node.all_shaped_stmt.2 ⟨trivial, ?_⟩⟩
    simp [Stmt.children, Block.node, hc.shaped, hb]
  | forLoop _ _ hi _ hc _ hu _ _ ih =>
    have hb := (ih _ (List.mem_singleton_self _)).2
    exact List.forall_mem_singleton.2 ⟨gives_inside (by simp [Stmt.kind]),
      Node.all_shaped_forLoop.2 ⟨hi.shaped, hc.shaped, hu.shaped, hb⟩⟩
  | ifElse _ _ _ ih ihb =>
    obtain ⟨hc, hthen, harms, -⟩ := Node.all_shaped_ifElse.1 (ih _ (List.mem_singleton_self _)).2
    have helse := (ihb _ (List.mem_singleton_self _)).2
    exact List.forall_mem_singleton.2 ⟨gives_inside (by simp [Stmt.kind]),
      Node.all_shaped_ifElse.2 ⟨hc, hthen, harms, by simpa using helse⟩⟩
  | tryFinally _ _ _ ih ihb =>
    obtain ⟨hbody, hclauses, -⟩ := Node.all_shaped_tryCatch.1 (ih _ (List.mem_singleton_self _)).2
    have hcleanup := (ihb _ (List.mem_singleton_self _)).2
    exact List.forall_mem_singleton.2 ⟨gives_inside (by simp [Stmt.kind]),
      Node.all_shaped_tryCatch.2 ⟨hbody, hclauses, by simpa using hcleanup⟩⟩
  | arm _ hc _ ih =>
    have hthen := (ih _ (List.mem_singleton_self _)).2
    exact List.forall_mem_singleton.2 ⟨rfl, Node.all_shaped_ifElse.2 ⟨hc.shaped, hthen, by simp, by simp⟩⟩
  | elseIf _ _ _ hc' _ ih ihb =>
    obtain ⟨hc, hthen, harms, -⟩ := Node.all_shaped_ifElse.1 (ih _ (List.mem_singleton_self _)).2
    have hb := (ihb _ (List.mem_singleton_self _)).2
    refine List.forall_mem_singleton.2 ⟨rfl, Node.all_shaped_ifElse.2 ⟨hc, hthen, ?_, by simp⟩⟩
    refine List.forall_mem_append.2 ⟨harms, List.forall_mem_singleton.2 ?_⟩
    simp [hc'.shaped, hb]
  | guarded _ _ ih =>
    have hbody := (ih _ (List.mem_singleton_self _)).2
    exact List.forall_mem_singleton.2 ⟨rfl, Node.all_shaped_tryCatch.2 ⟨hbody, by simp, by simp⟩⟩
  | catchClause _ _ _ _ _ _ _ ih ihb =>
    obtain ⟨hbody, hclauses, -⟩ := Node.all_shaped_tryCatch.1 (ih _ (List.mem_singleton_self _)).2
    have hb := (ihb _ (List.mem_singleton_self _)).2
    refine List.forall_mem_singleton.2 ⟨rfl, Node.all_shaped_tryCatch.2 ⟨hbody, ?_, by simp⟩⟩
    refine List.forall_mem_append.2 ⟨hclauses, List.forall_mem_singleton.2 ?_⟩
    simp [hb]
  | block _ _ _ ih | openBlock _ _ _ ih =>
    refine List.forall_mem_singleton.2 ⟨rfl, Node.all_shaped_stmt.2 ⟨trivial, ?_⟩⟩
    simpa [Stmt.children] using fun s hs => ⟨(ih s hs).1.1, (ih s hs).2⟩
  -- only as a field has a variable modifiers
  | field hmods hd _ =>
    refine List.forall_mem_singleton.2 ⟨⟨.inr rfl, fun _ => by simp [Stmt.kind]⟩, shaped_varDecl ?_ hd.shaped⟩
    simpa using hmods
  | @method p _ _ _ _ _ _ _ _ hp hmods _ _ _ _ ih =>
    have hb := (ih _ (List.mem_singleton_self _)).2
    have hplace : p.kind = .program ∨ p.kind = .classDecl := by
      cases p with
      | inside => exact absurd rfl hp
      | member => exact .inr rfl
      | top => exact .inl rfl
    refine List.forall_mem_singleton.2 ⟨⟨hplace, fun _ => by simp [Stmt.kind]⟩,
      Node.all_shaped_stmt.2 ⟨by simpa [Stmt.Shaped] using hmods, ?_⟩⟩
    simp [Stmt.children, Ident.node, Block.node, hb, or_imp, forall_and]
  | stmt _ ih => exact fun s hs => ⟨⟨(ih s hs).1.1.anywhere _, by simp⟩, (ih s hs).2⟩
  | classDecl hmods _ _ _ _ _ ih | openClass _ hmods _ _ _ _ ih =>
    refine List.forall_mem_singleton.2 ⟨⟨rfl, by simp⟩, Node.all_shaped_stmt.2 ⟨⟨by simpa using hmods, ?_⟩, ?_⟩⟩
    · exact fun s hs => (ih s hs).1.2 rfl
    · simpa [Stmt.children, Stmt.kind, Ident.node] using fun s hs => ⟨(ih s hs).1.1, (ih s hs).2⟩
  | nil => simp
  | cons _ _ ih ihs => exact List.forall_mem_cons.2 ⟨ih _ (List.mem_singleton_self _), ihs⟩
  | skip _ _ _ ih =>
    refine List.forall_mem_cons.2 ⟨⟨⟨trivial, fun _ => by simp [Stmt.kind]⟩, ?_⟩, ih⟩
    simp [Node.all_shaped_stmt, Stmt.children, Stmt.Shaped]

end Grammar

/-- **Parsed trees have their shape**, whatever the text and the options: operands bind more tightly than the operators
over them, allocations come in three forms, loops start with a declaration or an expression if with anything, and
declarations stand in their places. -/
theorem parse_shaped (o : Options) (s : Source) : (Node.program (parse o s).program).All Node.Shaped := by
  obtain ⟨final, -, -, -, -, hderives⟩ := parse_reads o s
  have hbody := DerivesStmt.shaped (hderives .lenient Mode.admits_lenient)
  refine Node.all_iff.2 ⟨⟨trivial, ?_⟩, ?_⟩
  · simpa [Node.children, Node.kind, Place.kind] using fun t ht => (hbody t ht).1.1
  · simpa [Node.children] using fun t ht => (hbody t ht).2

end SmallJava
