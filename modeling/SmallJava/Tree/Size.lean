import SmallJava.Tree.Node

/-!
# The number of nodes of a tree

`Node.size` counts the nodes of a tree, the root included, by recursion on the tree itself: a statement counts
every node-valued field of every constructor, and nothing else. `Node.size_eq` says that it is one more than
the sizes of the children, so children are smaller and nothing below a node is missing from its children.
-/

namespace SmallJava

mutual

/-- The number of nodes of an expression. -/
def Expr.size : Expr → Nat
  | .literal _ | .ident _ | .bad _ => 1
  | .array a => a.size
  | .index _ x i => 1 + x.size + i.size
  | .select _ x _ => 1 + x.size + 1
  | .call _ fn args => 1 + fn.size + Expr.sizes args
  | .new _ _ args len elems =>
    1 + 1 + Expr.sizes args + (match len with | none => 0 | some x => x.size)
      + (match elems with | none => 0 | some a => a.size)
  | .paren _ x => 1 + x.size
  | .unary _ _ x _ => 1 + x.size
  | .binary _ _ x y => 1 + x.size + y.size
  | .assign _ _ target value => 1 + target.size + value.size

/-- The number of nodes of an array literal. -/
def ArrayLit.size : ArrayLit → Nat
  | .mk _ elems => 1 + Expr.sizes elems

/-- The number of nodes of several expressions. -/
def Expr.sizes : List Expr → Nat
  | [] => 0
  | x :: xs => x.size + Expr.sizes xs

end

/-- The number of nodes of an optional expression. -/
def Expr.sizeOpt (x : Option Expr) : Nat := (x.map Expr.size).getD 0

mutual

/-- The number of nodes of a statement. -/
def Stmt.size : Stmt → Nat
  | .block b => b.size
  | .varDecl d => 1 + 1 + 1 + Expr.sizeOpt d.init
  | .expr _ x => 1 + x.size
  | .ifElse _ cond body elseIfs otherwise =>
    1 + cond.size + body.size + ElseIf.sizes elseIfs
      + (match otherwise with | none => 0 | some b => b.size)
  | .whileLoop _ cond body => 1 + cond.size + body.size
  | .doWhile _ body cond => 1 + body.size + cond.size
  | .forLoop _ init cond update body =>
    1 + (match init with | none => 0 | some s => s.size) + Expr.sizeOpt cond + Expr.sizeOpt update
      + body.size
  | .tryCatch _ body catches cleanup =>
    1 + body.size + CatchClause.sizes catches + (match cleanup with | none => 0 | some b => b.size)
  | .ret _ result => 1 + Expr.sizeOpt result
  | .classDecl _ _ _ members => 1 + 1 + Stmt.sizes members
  | .methodDecl _ _ _ _ params body => 1 + 1 + 1 + 3 * params.length + body.size
  | .empty _ | .bad _ => 1

/-- The number of nodes of a block. -/
def Block.size : Block → Nat
  | .mk _ stmts => 1 + Stmt.sizes stmts

/-- The number of nodes of an arm of a conditional. -/
def ElseIf.size : ElseIf → Nat
  | .mk _ cond body => 1 + cond.size + body.size

/-- The number of nodes of a `catch` clause. -/
def CatchClause.size : CatchClause → Nat
  | .mk _ _ _ body => 1 + 1 + 1 + body.size

/-- The number of nodes of several statements. -/
def Stmt.sizes : List Stmt → Nat
  | [] => 0
  | s :: ss => s.size + Stmt.sizes ss

/-- The number of nodes of several arms. -/
def ElseIf.sizes : List ElseIf → Nat
  | [] => 0
  | a :: as => a.size + ElseIf.sizes as

/-- The number of nodes of several clauses. -/
def CatchClause.sizes : List CatchClause → Nat
  | [] => 0
  | c :: cs => c.size + CatchClause.sizes cs

end

/-- The number of nodes of a tree. -/
def Node.size : Node → Nat
  | .program p => 1 + Stmt.sizes p.body
  | .stmt s => s.size
  | .expr x => x.size
  | .elseIf arm => arm.size
  | .catchClause c => c.size
  | .param _ => 3
  | .typeName _ | .comment _ => 1

namespace Node

/-- The number of nodes of several trees. -/
def sizes : List Node → Nat
  | [] => 0
  | n :: ns => n.size + sizes ns

@[simp] theorem sizes_nil : sizes [] = 0 := rfl

@[simp] theorem sizes_cons (n : Node) (ns : List Node) : sizes (n :: ns) = n.size + sizes ns := rfl

@[simp] theorem sizes_append (ns ms : List Node) : sizes (ns ++ ms) = sizes ns + sizes ms := by
  induction ns with
  | nil => simp
  | cons n ns ih => simp [ih]; omega

theorem size_le_sizes {n : Node} {ns : List Node} (h : n ∈ ns) : n.size ≤ sizes ns := by
  induction ns with
  | nil => simp at h
  | cons m ns ih =>
    rcases List.mem_cons.1 h with rfl | h
    · simp
    · have := ih h
      simp
      omega

/-! ## A node and its children -/

@[simp] theorem sizes_map_expr (xs : List Expr) : sizes (xs.map .expr) = Expr.sizes xs := by
  induction xs with
  | nil => rfl
  | cons x xs ih => simp [Expr.sizes, size, ih]

@[simp] theorem sizes_map_stmt (ss : List Stmt) : sizes (ss.map .stmt) = Stmt.sizes ss := by
  induction ss with
  | nil => rfl
  | cons s ss ih => simp [Stmt.sizes, size, ih]

@[simp] theorem sizes_map_elseIf (as : List ElseIf) : sizes (as.map .elseIf) = ElseIf.sizes as := by
  induction as with
  | nil => rfl
  | cons a as ih => simp [ElseIf.sizes, size, ih]

@[simp] theorem sizes_map_catchClause (cs : List CatchClause) :
    sizes (cs.map .catchClause) = CatchClause.sizes cs := by
  induction cs with
  | nil => rfl
  | cons c cs ih => simp [CatchClause.sizes, size, ih]

@[simp] theorem sizes_map_param (ps : List Param) : sizes (ps.map .param) = 3 * ps.length := by
  induction ps with
  | nil => rfl
  | cons p ps ih => simp [size, ih]; omega

theorem map_node_manyFrom (field : String) (start : Nat) (nodes : List Node) :
    (Child.manyFrom field start nodes).map (·.node) = nodes := by
  induction nodes generalizing start with
  | nil => rfl
  | cons n ns ih => simp [Child.manyFrom, ih]

@[simp] theorem map_node_many (field : String) (nodes : List Node) :
    (Child.many field nodes).map (·.node) = nodes := map_node_manyFrom ..

@[simp] theorem map_node_opt (field : String) (node : Option Node) :
    (Child.opt field node).map (·.node) = node.toList := by
  cases node <;> rfl

@[simp] theorem node_one (field : String) (node : Node) : (Child.one field node).node = node := rfl

theorem size_expr_eq (x : Expr) : (Node.expr x).size = 1 + sizes (x.children.map (·.node)) := by
  cases x with
  | array a =>
    obtain ⟨loc, elems⟩ := a
    simp [Expr.children, size, Expr.size, ArrayLit.size]
  | new loc type args len elems =>
    cases len <;> cases elems <;> simp [Expr.children, size, Expr.size, ArrayLit.node] <;> omega
  | _ => simp [Expr.children, size, Expr.size, Ident.node] <;> omega

theorem size_stmt_eq (s : Stmt) : (Node.stmt s).size = 1 + sizes (s.children.map (·.node)) := by
  cases s with
  | block b =>
    obtain ⟨loc, stmts⟩ := b
    simp [Stmt.children, size, Stmt.size, Block.size]
  | varDecl d =>
    cases h : d.init <;>
      simp [Stmt.children, size, Stmt.size, Expr.size, Expr.sizeOpt, h, Ident.node]
    omega
  | ifElse loc cond body elseIfs otherwise =>
    cases otherwise <;> simp [Stmt.children, size, Stmt.size, Block.node] <;> omega
  | forLoop loc init cond update body =>
    cases init <;> cases cond <;> cases update <;>
      simp [Stmt.children, size, Stmt.size, Expr.sizeOpt, Block.node] <;> omega
  | tryCatch loc body catches cleanup =>
    cases cleanup <;> simp [Stmt.children, size, Stmt.size, Block.node] <;> omega
  | ret loc result => cases result <;> simp [Stmt.children, size, Stmt.size, Expr.sizeOpt]
  | _ => simp [Stmt.children, size, Stmt.size, Expr.size, Ident.node, Block.node] <;> omega

/-- A tree has one node more than its children have together. -/
theorem size_eq (n : Node) : n.size = 1 + sizes (n.children.map (·.node)) := by
  cases n with
  | stmt s => exact size_stmt_eq s
  | expr x => exact size_expr_eq x
  | program p => simp [children, size]
  | elseIf arm =>
    obtain ⟨loc, cond, body⟩ := arm
    simp [children, size, ElseIf.size, Stmt.size, Block.node]
    omega
  | catchClause c =>
    obtain ⟨loc, type, name, body⟩ := c
    simp [children, size, CatchClause.size, Stmt.size, Expr.size, Block.node, Ident.node]
    omega
  | param p => simp [children, size, Expr.size, Ident.node]
  | typeName t => simp [children, size]
  | comment c => simp [children, size]

/-- A child is smaller than its parent. -/
theorem size_child_lt {n : Node} {c : Child} (h : c ∈ n.children) : c.node.size < n.size := by
  have le : c.node.size ≤ sizes (n.children.map (·.node)) := size_le_sizes (by simpa using ⟨c, h, rfl⟩)
  have := size_eq n
  omega

end Node

end SmallJava
