import Mathlib.Data.List.MinMax
import SmallJava.Proofs.Grammar.Nesting
import SmallJava.Tree.Walk

/-!
# Paths and nesting

The nesting of a tree is found on a path: it is the greatest number of nesting constructs that one passes through when
going from the root down to some node.

* `Node.constructs` — the nesting constructs on a path from a node down;
* `Node.nesting_eq` — the nesting at a node, from the nesting at its children and what lies between;
* `Node.constructs_le_iff` — a bound on the nesting is a bound on all paths.
-/

namespace SmallJava

/-! ## Paths in a tree -/

/-- The children lead from the node down, each to the next. -/
def Node.IsPath : Node → List Child → Prop
  | _, [] => True
  | n, c :: path => c ∈ n.children ∧ c.node.IsPath path

/-- Whether the node itself is a nesting construct: a block, a class, a parenthesis, an array literal, or an operator in
front of its operand. -/
@[simp] def Node.isNesting : Node → Bool
  | .stmt (.block _) | .stmt (.classDecl ..) => true
  | .expr (.paren ..) | .expr (.array _) | .expr (.unary _ _ _ .before) => true
  | _ => false

/-- The fields that hold complete expressions, with the kinds of node that have them. -/
def completeFields : List (NodeKind × String) :=
  [(.exprStmt, "x"), (.ifStmt, "cond"), (.elseIf, "cond"), (.whileStmt, "cond"), (.doWhileStmt, "cond"),
    (.forStmt, "cond"), (.forStmt, "update"), (.varDecl, "init"), (.returnStmt, "result"), (.callExpr, "args"),
    (.newExpr, "args"), (.newExpr, "len"), (.indexExpr, "index"), (.arrayLit, "elems"), (.parenExpr, "x"),
    (.assignExpr, "value")]

/-- The nesting constructs that are passed when going down from the node to what a field of it holds: the node itself,
and a complete expression. -/
def Node.passed (n : Node) (field : String) : Nat :=
  n.isNesting.toNat + (completeFields.contains (n.kind, field)).toNat

/-- The nesting constructs that a path from the node down passes through, the last node included. -/
def Node.constructs (n : Node) : List Child → Nat
  | [] => n.isNesting.toNat
  | c :: path => c.node.constructs path + n.passed c.field

/-! ## The nesting of a tree -/

/-- The nesting of the tree at a node. If the node is a complete expression, then it is not counted. -/
@[simp] def Node.nesting : Node → Nat
  | .program p => Stmt.nestings p.body
  | .stmt s => s.nesting
  | .expr x => x.nesting
  | .elseIf arm => arm.nesting
  | .catchClause c => c.nesting
  | .param _ | .typeName _ | .comment _ => 0

section Lists

variable {α : Type} {f : α → Nat} {g : List α → Nat}

/-- The greatest of several values, all of them raised by the same amount. -/
theorem foldr_max_add (hnil : g [] = 0) (hcons : ∀ a as, g (a :: as) = max (f a) (g as)) (as : List α) (k start : Nat) :
    (as.map fun a => f a + k).foldr max (start + k) = max (g as) start + k := by
  induction as with
  | nil => simp [hnil]
  | cons a as ih =>
    rw [List.map_cons, List.foldr_cons, ih, hcons, Nat.add_max_add_right, Nat.max_assoc]

/-- The depth of a list of expressions, as that of the deepest of them. -/
theorem Expr.foldr_depths (xs : List Expr) (start : Nat) :
    (xs.map (·.nesting + 1)).foldr max start = max (Expr.depths xs) start :=
  foldr_max_add (by simp) (fun _ _ => by simp) xs 0 start

theorem Expr.foldr_depths_succ (xs : List Expr) : (xs.map (·.nesting + 2)).foldr max 1 = Expr.depths xs + 1 := by
  simpa using foldr_max_add (g := Expr.depths) (by simp) (fun _ _ => by simp) xs 1 0

/-- The depth of a list of statements, as that of the deepest of them. -/
theorem Stmt.foldr_nestings (ss : List Stmt) (start : Nat) :
    (ss.map (·.nesting)).foldr max start = max (Stmt.nestings ss) start :=
  foldr_max_add (by simp) (fun _ _ => by simp) ss 0 start

theorem Stmt.foldr_nestings_succ (ss : List Stmt) : (ss.map (·.nesting + 1)).foldr max 1 = Stmt.nestings ss + 1 := by
  simpa using foldr_max_add (g := Stmt.nestings) (by simp) (fun _ _ => by simp) ss 1 0

theorem ElseIf.foldr_nestings (as : List ElseIf) (start : Nat) :
    (as.map (·.nesting)).foldr max start = max (ElseIf.nestings as) start :=
  foldr_max_add (by simp) (fun _ _ => by simp) as 0 start

theorem CatchClause.foldr_nestings (cs : List CatchClause) (start : Nat) :
    (cs.map (·.nesting)).foldr max start = max (CatchClause.nestings cs) start :=
  foldr_max_add (by simp) (fun _ _ => by simp) cs 0 start

/-- What has no depth adds none. -/
theorem foldr_max_zero (as : List α) (start : Nat) : (as.map fun _ => 0).foldr max start = start := by
  induction as with
  | nil => rfl
  | cons a as ih => rw [List.map_cons, List.foldr_cons, ih, Nat.zero_max]

theorem le_foldr_max (ks : List Nat) (start : Nat) : start ≤ ks.foldr max start := by
  induction ks with
  | nil => exact le_rfl
  | cons k ks ih => exact ih.trans (Nat.le_max_right k _)

/-- The largest of some numbers is one of them, or what it started from. -/
theorem foldr_max_eq (ks : List Nat) (start : Nat) : ks.foldr max start = start ∨ ks.foldr max start ∈ ks := by
  induction ks with
  | nil => exact .inl rfl
  | cons k ks ih =>
    rw [List.foldr_cons, List.mem_cons]
    rcases Nat.le_total k (ks.foldr max start) with h | h
    · rw [Nat.max_eq_right h]
      exact ih.imp_right .inr
    · exact .inr (.inl (Nat.max_eq_left h))

end Lists

/-! ## From a node to its children -/

namespace Child

/-- A child as far as paths go: its field and its node. -/
def entry (c : Child) : String × Node := (c.field, c.node)

@[simp] theorem entry_one (field : String) (n : Node) : (one field n).entry = (field, n) := rfl

@[simp] theorem map_entry_many (field : String) (ns : List Node) : (many field ns).map entry = ns.map (field, ·) := by
  suffices h : ∀ start, (manyFrom field start ns).map entry = ns.map (field, ·) from h 0
  induction ns with
  | nil => simp [manyFrom]
  | cons n ns ih => simp [manyFrom, entry, ih]

@[simp] theorem map_entry_opt (field : String) (n : Option Node) :
    (opt field n).map entry = (n.map (field, ·)).toList := by
  cases n <;> rfl

end Child

namespace Node

/-- The greatest number of nesting constructs on a way down through some child, or at the node itself. -/
def deepest (n : Node) : Nat :=
  ((n.children.map Child.entry).map fun e => e.2.nesting + n.passed e.1).foldr max n.isNesting.toNat

/-- The depth of an expression is that of the deepest path in it. -/
theorem nesting_expr (x : Expr) : x.nesting = (expr x).deepest := by
  cases x with
  | literal | ident | bad => simp [deepest, children, Expr.children]
  | array a =>
    obtain ⟨loc, elems⟩ := a
    simp [deepest, children, Expr.children, passed, kind, Expr.kind, completeFields, Function.comp_def,
      Expr.foldr_depths_succ]
  | new loc t args len elems =>
    cases len <;> cases elems <;>
      simp [deepest, children, Expr.children, passed, kind, Expr.kind, completeFields, Function.comp_def,
        ArrayLit.node, Expr.foldr_depths]
  | unary loc op x side =>
    cases side <;> simp [deepest, children, Expr.children, passed, kind, Expr.kind, completeFields]
  | _ =>
    simp [deepest, children, Expr.children, passed, kind, Expr.kind, completeFields, Function.comp_def, Ident.node,
      Expr.foldr_depths]

/-- The depth of a statement is that of the deepest path in it. -/
theorem nesting_stmt (s : Stmt) : s.nesting = (stmt s).deepest := by
  cases s with
  | empty | bad => simp [deepest, children, Stmt.children]
  | block b =>
    obtain ⟨loc, stmts⟩ := b
    simp [deepest, children, Stmt.children, passed, kind, Stmt.kind, completeFields, Function.comp_def,
      Stmt.foldr_nestings_succ]
  | varDecl d =>
    cases h : d.init <;>
      simp [h, deepest, children, Stmt.children, passed, kind, Stmt.kind, completeFields, Ident.node, Expr.depthOpt]
  | ret loc result =>
    cases result <;> simp [deepest, children, Stmt.children, passed, kind, Stmt.kind, completeFields, Expr.depthOpt]
  | forLoop loc init cond update body =>
    cases init <;> cases cond <;> cases update <;>
      simp [deepest, children, Stmt.children, passed, kind, Stmt.kind, completeFields, Block.node, Expr.depthOpt]
  | ifElse loc cond body elseIfs otherwise =>
    cases otherwise <;>
      simp [deepest, children, Stmt.children, passed, kind, Stmt.kind, completeFields, Function.comp_def, Block.node,
        ElseIf.foldr_nestings]
  | tryCatch loc body catches cleanup =>
    cases cleanup <;>
      simp [deepest, children, Stmt.children, passed, kind, Stmt.kind, completeFields, Function.comp_def, Block.node,
        CatchClause.foldr_nestings]
  | classDecl loc modifiers name members =>
    simp [deepest, children, Stmt.children, passed, kind, Stmt.kind, completeFields, Function.comp_def, Ident.node,
      Stmt.foldr_nestings_succ]
  | methodDecl loc modifiers type name params body =>
    simp [deepest, children, Stmt.children, passed, kind, Stmt.kind, completeFields, Function.comp_def, Ident.node,
      Block.node, foldr_max_zero, -List.map_const']
  | expr | whileLoop | doWhile =>
    simp [deepest, children, Stmt.children, passed, kind, Stmt.kind, completeFields, Block.node]

/-- **The nesting at a node**, from the nesting at its children and the constructs that are passed between. -/
theorem nesting_eq (n : Node) : n.nesting = n.deepest := by
  cases n with
  | stmt s => exact nesting_stmt s
  | expr x => exact nesting_expr x
  | program p =>
    simp [deepest, children, passed, kind, completeFields, Function.comp_def, Stmt.foldr_nestings]
  | elseIf arm =>
    obtain ⟨loc, cond, body⟩ := arm
    simp [deepest, children, passed, kind, completeFields, Block.node]
  | catchClause c =>
    obtain ⟨loc, type, name, body⟩ := c
    simp [deepest, children, passed, kind, completeFields, Block.node, Ident.node]
  | param p => simp [deepest, children, passed, kind, completeFields, Ident.node]
  | typeName | comment => simp [deepest, children]

/-- A step down leaves a tree that is nested less by what it passes. -/
theorem nesting_child {n : Node} {c : Child} (h : c ∈ n.children) : c.node.nesting + n.passed c.field ≤ n.nesting := by
  rw [n.nesting_eq]
  exact List.le_max_of_le' _ (List.mem_map_of_mem (List.mem_map_of_mem h)) le_rfl

/-- **A path passes through no more constructs than the nesting of the tree counts.** -/
theorem constructs_le {n : Node} {path : List Child} (h : n.IsPath path) : n.constructs path ≤ n.nesting := by
  induction path generalizing n with
  | nil => exact n.nesting_eq ▸ le_foldr_max _ _
  | cons c path ih =>
    obtain ⟨hc, hpath⟩ := h
    have hstep := nesting_child hc
    have hrest := ih hpath
    simp only [constructs]
    omega

/-- **Some path passes through as many constructs as the nesting of the tree counts.** -/
theorem exists_constructs_eq (n : Node) : ∃ path, n.IsPath path ∧ n.constructs path = n.nesting := by
  induction hs : n.size using Nat.strongRecOn generalizing n with
  | ind k ih =>
    rcases foldr_max_eq ((n.children.map Child.entry).map fun e => e.2.nesting + n.passed e.1) n.isNesting.toNat
      with hself | hchild
    · exact ⟨[], trivial, (n.nesting_eq.trans hself).symm⟩
    · simp only [List.map_map, List.mem_map] at hchild
      obtain ⟨c, hc, heq⟩ := hchild
      obtain ⟨path, hpath, hconstructs⟩ := ih _ (hs ▸ size_child_lt hc) c.node rfl
      refine ⟨c :: path, ⟨hc, hpath⟩, ?_⟩
      rw [constructs, hconstructs, n.nesting_eq, deepest, List.map_map, ← heq]
      rfl

/-- **A bound on the nesting of a tree is a bound on all its paths.** -/
theorem constructs_le_iff {n : Node} {k : Nat} :
    (∀ path, n.IsPath path → n.constructs path ≤ k) ↔ n.nesting ≤ k := by
  refine ⟨fun h => ?_, fun h path hpath => (constructs_le hpath).trans h⟩
  obtain ⟨path, hpath, heq⟩ := n.exists_constructs_eq
  exact heq ▸ h path hpath

end Node

end SmallJava
