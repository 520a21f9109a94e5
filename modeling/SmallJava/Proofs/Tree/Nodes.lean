import Mathlib.Data.List.Basic
import SmallJava.Proofs.Tree.Preorder

/-!
# The nodes of a tree, field by field

`Node.nodes` lists the nodes of a tree by recursion on the tree itself: a node, and then what is in each of its fields
that holds nodes, without a look at the list of its children. It is the same list as the one of a walk through all
children (`preorder_eq_nodes`), and as long as the tree is large (`length_nodes`). The comments of a program
(`Node.comments`) are no part of it: they are kept beside the statements, and belong to none of them.
-/

namespace SmallJava

/-- A parameter and the nodes in its fields. -/
def Param.nodes (p : Param) : List Node := [.param p, .typeName p.type, p.name.node]

mutual

/-- An expression and all nodes in its fields. -/
def Expr.nodes : Expr → List Node
  | .array a => a.nodes
  | e@(.index _ x i) => .expr e :: (x.nodes ++ i.nodes)
  | e@(.select _ x sel) => .expr e :: (x.nodes ++ [sel.node])
  | e@(.call _ fn args) => .expr e :: (fn.nodes ++ Expr.nodesAll args)
  | e@(.new _ type args len elems) =>
    .expr e :: .typeName type :: (Expr.nodesAll args ++ (match len with | none => [] | some x => x.nodes)
      ++ (match elems with | none => [] | some a => a.nodes))
  | e@(.paren _ x) | e@(.unary _ _ x _) => .expr e :: x.nodes
  | e@(.binary _ _ x y) | e@(.assign _ _ x y) => .expr e :: (x.nodes ++ y.nodes)
  | e@(.literal _) | e@(.ident _) | e@(.bad _) => [.expr e]

/-- An array literal and all nodes in it. -/
def ArrayLit.nodes : ArrayLit → List Node
  | a@(.mk _ elems) => a.node :: Expr.nodesAll elems

/-- Several expressions and all nodes in their fields. -/
def Expr.nodesAll : List Expr → List Node
  | [] => []
  | x :: xs => x.nodes ++ Expr.nodesAll xs

end

/-- An optional expression and all nodes in its fields. -/
def Expr.nodesOpt (x : Option Expr) : List Node := (x.map Expr.nodes).getD []

mutual

/-- A statement and all nodes in its fields. -/
def Stmt.nodes : Stmt → List Node
  | .block b => b.nodes
  | s@(.varDecl d) => .stmt s :: .typeName d.type :: d.name.node :: Expr.nodesOpt d.init
  | s@(.expr _ x) => .stmt s :: x.nodes
  | s@(.ifElse _ cond body elseIfs otherwise) =>
    .stmt s :: (cond.nodes ++ body.nodes ++ ElseIf.nodesAll elseIfs
      ++ (match otherwise with | none => [] | some b => b.nodes))
  | s@(.whileLoop _ cond body) => .stmt s :: (cond.nodes ++ body.nodes)
  | s@(.doWhile _ body cond) => .stmt s :: (body.nodes ++ cond.nodes)
  | s@(.forLoop _ init cond update body) =>
    .stmt s :: ((match init with | none => [] | some t => t.nodes) ++ Expr.nodesOpt cond ++ Expr.nodesOpt update
      ++ body.nodes)
  | s@(.tryCatch _ body catches cleanup) =>
    .stmt s :: (body.nodes ++ CatchClause.nodesAll catches ++ (match cleanup with | none => [] | some b => b.nodes))
  | s@(.ret _ result) => .stmt s :: Expr.nodesOpt result
  | s@(.classDecl _ _ name members) => .stmt s :: name.node :: Stmt.nodesAll members
  | s@(.methodDecl _ _ result name params body) =>
    .stmt s :: .typeName result :: name.node :: (params.flatMap Param.nodes ++ body.nodes)
  | s@(.empty _) | s@(.bad _) => [.stmt s]

/-- A block and all nodes in it. -/
def Block.nodes : Block → List Node
  | b@(.mk _ stmts) => b.node :: Stmt.nodesAll stmts

/-- An arm of a conditional and all nodes in its fields. -/
def ElseIf.nodes : ElseIf → List Node
  | arm@(.mk _ cond body) => .elseIf arm :: (cond.nodes ++ body.nodes)

/-- A `catch` clause and all nodes in its fields. -/
def CatchClause.nodes : CatchClause → List Node
  | c@(.mk _ type name body) => .catchClause c :: .typeName type :: name.node :: body.nodes

/-- Several statements and all nodes in their fields. -/
def Stmt.nodesAll : List Stmt → List Node
  | [] => []
  | s :: ss => s.nodes ++ Stmt.nodesAll ss

/-- Several arms and all nodes in their fields. -/
def ElseIf.nodesAll : List ElseIf → List Node
  | [] => []
  | a :: as => a.nodes ++ ElseIf.nodesAll as

/-- Several clauses and all nodes in their fields. -/
def CatchClause.nodesAll : List CatchClause → List Node
  | [] => []
  | c :: cs => c.nodes ++ CatchClause.nodesAll cs

end

/-! ## Nodes and children -/

namespace Node

/-- All nodes of a tree, each with everything in its fields behind it, except for the comments of a program. -/
def nodes : Node → List Node
  | .program p => .program p :: Stmt.nodesAll p.body
  | .stmt s => s.nodes
  | .expr x => x.nodes
  | .elseIf arm => arm.nodes
  | .catchClause c => c.nodes
  | .param p => p.nodes
  | .typeName t => [.typeName t]
  | .comment c => [.comment c]

/-- The comments that a program holds. -/
def comments : Node → List Node
  | .program p => p.comments.map Node.comment
  | _ => []

/-- The nodes of several trees of one sort, from their recursion. -/
theorem flatMap_nodes {α : Type} {node : α → Node} {all : List α → List Node} (hnil : all [] = [])
    (hcons : ∀ x xs, all (x :: xs) = (node x).nodes ++ all xs) (xs : List α) :
    (xs.map node).flatMap nodes = all xs := by
  induction xs with
  | nil => exact hnil.symm
  | cons x xs ih => rw [List.map_cons, List.flatMap_cons, ih, hcons]

theorem flatMap_nodes_expr (xs : List Expr) : (xs.map Node.expr).flatMap nodes = Expr.nodesAll xs :=
  flatMap_nodes rfl (fun _ _ => rfl) xs

theorem flatMap_nodes_stmt (ss : List Stmt) : (ss.map Node.stmt).flatMap nodes = Stmt.nodesAll ss :=
  flatMap_nodes rfl (fun _ _ => rfl) ss

theorem flatMap_nodes_elseIf (as : List ElseIf) : (as.map Node.elseIf).flatMap nodes = ElseIf.nodesAll as :=
  flatMap_nodes rfl (fun _ _ => rfl) as

theorem flatMap_nodes_catchClause (cs : List CatchClause) :
    (cs.map Node.catchClause).flatMap nodes = CatchClause.nodesAll cs :=
  flatMap_nodes rfl (fun _ _ => rfl) cs

theorem flatMap_nodes_param (ps : List Param) : (ps.map Node.param).flatMap nodes = ps.flatMap Param.nodes :=
  flatMap_nodes rfl (fun _ _ => rfl) ps

theorem flatMap_nodes_opt (x : Option Expr) : (x.map Node.expr).toList.flatMap nodes = Expr.nodesOpt x := by
  cases x with
  | none => rfl
  | some x => simp [Expr.nodesOpt, nodes]

/-- The nodes of an expression are itself and those of its children, in their order. -/
theorem nodes_expr_eq (x : Expr) : x.nodes = .expr x :: (x.children.map (·.node)).flatMap nodes := by
  cases x with
  | array a =>
    obtain ⟨loc, elems⟩ := a
    simp [Expr.nodes, ArrayLit.nodes, Expr.children, flatMap_nodes_expr, ArrayLit.node]
  | new loc type args len elems =>
    cases len <;> cases elems <;>
      simp [Expr.nodes, Expr.children, nodes, ArrayLit.node, flatMap_nodes_expr]
  | _ => simp [Expr.nodes, Expr.children, nodes, Ident.node, flatMap_nodes_expr]

/-- The nodes of a statement are itself and those of its children, in their order. -/
theorem nodes_stmt_eq (s : Stmt) : s.nodes = .stmt s :: (s.children.map (·.node)).flatMap nodes := by
  cases s with
  | block b =>
    obtain ⟨loc, stmts⟩ := b
    simp [Stmt.nodes, Block.nodes, Stmt.children, flatMap_nodes_stmt, Block.node]
  | ifElse loc cond body elseIfs otherwise =>
    cases otherwise <;> simp [Stmt.nodes, Stmt.children, nodes, Block.node, flatMap_nodes_elseIf]
  | forLoop loc init cond update body =>
    cases init <;> simp [Stmt.nodes, Stmt.children, nodes, Block.node, flatMap_nodes_opt]
  | tryCatch loc body catches cleanup =>
    cases cleanup <;> simp [Stmt.nodes, Stmt.children, nodes, Block.node, flatMap_nodes_catchClause]
  | _ =>
    simp [Stmt.nodes, Stmt.children, nodes, Expr.nodes, Ident.node, Block.node, flatMap_nodes_opt, flatMap_nodes_stmt,
      flatMap_nodes_param]

/-- The nodes of a tree are the root and the nodes of its children. -/
theorem nodes_eq (n : Node) : n.nodes = n :: (n.children.map (·.node)).flatMap nodes := by
  cases n with
  | stmt s => exact nodes_stmt_eq s
  | expr x => exact nodes_expr_eq x
  | program p => simp [nodes, children, flatMap_nodes_stmt]
  | elseIf arm =>
    obtain ⟨loc, cond, body⟩ := arm
    simp [nodes, ElseIf.nodes, children, Stmt.nodes, Block.node]
  | catchClause c =>
    obtain ⟨loc, type, name, body⟩ := c
    simp [nodes, CatchClause.nodes, children, Stmt.nodes, Expr.nodes, Block.node, Ident.node]
  | param p => simp [nodes, Param.nodes, children, Expr.nodes, Ident.node]
  | typeName t => simp [nodes, children]
  | comment c => simp [nodes, children]

/-- **A walk visits what there is**, in the order of the fields. -/
theorem preorder_eq_nodes (n : Node) : n.preorder = n.nodes := by
  induction n using induct_children with
  | step n ih =>
    rw [preorder_eq, nodes_eq, List.flatMap_map]
    congr 1
    exact List.flatMap_congr ih

/-- The nodes of a list are as many as its sizes add up to. -/
theorem length_flatMap_nodes {ns : List Node} (h : ∀ n ∈ ns, n.nodes.length = n.size) :
    (ns.flatMap nodes).length = sizes ns := by
  induction ns with
  | nil => rfl
  | cons n ns ih =>
    rw [List.forall_mem_cons] at h
    rw [List.flatMap_cons, List.length_append, h.1, ih h.2, sizes_cons]

/-- **There are as many nodes as the size of a tree says.** -/
theorem length_nodes (n : Node) : n.nodes.length = n.size := by
  induction n using induct_children with
  | step n ih =>
    have hbelow : ∀ m ∈ n.children.map (·.node), m.nodes.length = m.size := List.forall_mem_map.2 ih
    rw [nodes_eq, size_eq, List.length_cons, length_flatMap_nodes hbelow, Nat.add_comm]

end Node

end SmallJava
