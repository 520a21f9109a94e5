import SmallJava.Tree.Walk

/-!
# All nodes of a tree

A walk visits the root and then walks through its children (`inspect_eq`), so the nodes of a tree in preorder are the
root and the nodes of its children (`preorder_eq`), and a property of all nodes is one of the root and of all nodes below
each child (`forall_preorder_iff`). What goes over from the children of a node to the node holds of all trees
(`induct_children`).
-/

namespace SmallJava.Node

/-- **Induction over a tree.** -/
theorem induct_children {Q : Node → Prop} (step : ∀ n, (∀ c ∈ n.children, Q c.node) → Q n) (n : Node) : Q n := by
  induction hs : n.size using Nat.strongRecOn generalizing n with
  | ind k ih => exact step n fun c hc => ih c.node.size (hs ▸ size_child_lt hc) c.node rfl

/-- The events at a node: the visit, and if the walk goes on below it, those of its children and the leaving. -/
theorem inspect_eq (descend : Node → Bool) (n : Node) :
    n.inspect descend =
      some n :: if descend n then n.children.flatMap (·.node.inspect descend) ++ [none] else [] := by
  have hchildren : n.children.flatMap (·.node.inspect descend)
      = n.children.attach.flatMap fun c => c.1.node.inspect descend := by
    rw [List.flatMap_subtype (g := fun c => c.node.inspect descend) (fun _ _ => rfl), List.unattach_attach]
  rw [hchildren]
  unfold inspect
  rw [walk]
  by_cases hn : descend n = true
  · simp only [hn, if_true, List.map_cons, List.map_append, List.map_flatMap, List.map_nil]
  · simp only [hn, Bool.false_eq_true, if_false, List.map_cons, List.map_nil]

theorem preorder_eq (n : Node) : n.preorder = n :: n.children.flatMap (·.node.preorder) := by
  unfold preorder
  rw [inspect_eq]
  simp only [if_true, List.filterMap_cons, id_eq, List.filterMap_append, List.filterMap_flatMap, List.filterMap_nil,
    List.append_nil]

/-- A property of all nodes, from the root down. -/
theorem forall_preorder_iff {P : Node → Prop} {n : Node} :
    (∀ m ∈ n.preorder, P m) ↔ P n ∧ ∀ c ∈ n.children, ∀ m ∈ c.node.preorder, P m := by
  rw [preorder_eq]
  simp only [List.forall_mem_cons, List.forall_mem_flatMap]

/-- A property that goes over to children holds of all nodes. -/
theorem forall_preorder {P : Node → Prop} (hc : ∀ n, P n → ∀ c ∈ n.children, P c.node) (n : Node) (hn : P n) :
    ∀ m ∈ n.preorder, P m := by
  induction n using induct_children with
  | step n ih => exact forall_preorder_iff.2 ⟨hn, fun c hmem => ih c hmem (hc n hn c hmem)⟩

/-! ## Properties of all nodes -/

/-- `P` holds of all nodes of the tree. -/
def All (P : Node → Prop) (n : Node) : Prop := ∀ m ∈ n.preorder, P m

variable {P : Node → Prop}

theorem all_iff {n : Node} : n.All P ↔ P n ∧ ∀ c ∈ n.children.map (·.node), c.All P := by
  unfold All
  rw [forall_preorder_iff]
  simp

theorem All.self {n : Node} (h : n.All P) : P n := (all_iff.1 h).1

theorem All.child {n c : Node} (h : n.All P) (hc : c ∈ n.children.map (·.node)) : c.All P := (all_iff.1 h).2 c hc

theorem All.mono {Q : Node → Prop} {n : Node} (h : n.All P) (hPQ : ∀ m, P m → Q m) : n.All Q :=
  fun m hm => hPQ m (h m hm)

/-- A property of all nodes of a tree holds of all nodes of each tree in it. -/
theorem All.below {n m : Node} (h : n.All P) (hm : m ∈ n.preorder) : m.All P :=
  forall_preorder (fun _ hn _ hc => hn.child (List.mem_map_of_mem hc)) n h m hm

/-- A node has a property if all nodes directly below it have it. -/
theorem All.induct {Q : Node → Prop}
    (step : ∀ n, P n → (∀ c ∈ n.children.map (·.node), P c ∧ Q c) → Q n) {n : Node} (h : n.All P) : Q n := by
  induction n using induct_children with
  | step n ih =>
    refine step n h.self fun c hc => ?_
    have hbelow := h.child hc
    obtain ⟨child, hmem, rfl⟩ := List.mem_map.1 hc
    exact ⟨hbelow.self, ih child hmem hbelow⟩

/-- A property of all nodes is one of the root, if there is nothing below it. -/
theorem all_leaf {n : Node} (h : n.children = []) : n.All P ↔ P n := by
  rw [all_iff, h]
  simp

@[simp] theorem all_ident {i : Ident} : (Node.expr (.ident i)).All P ↔ P (.expr (.ident i)) := all_leaf rfl

@[simp] theorem all_typeName {t : TypeName} : (Node.typeName t).All P ↔ P (.typeName t) := all_leaf rfl

@[simp] theorem all_elseIf {loc : Location} {c : Expr} {b : Block} :
    (Node.elseIf (.mk loc c b)).All P ↔
      P (.elseIf (.mk loc c b)) ∧ (Node.expr c).All P ∧ (Node.stmt (.block b)).All P := by
  rw [all_iff]
  simp [children, Block.node]

@[simp] theorem all_catchClause {loc : Location} {t : TypeName} {i : Ident} {b : Block} :
    (Node.catchClause (.mk loc t i b)).All P ↔
      P (.catchClause (.mk loc t i b)) ∧ P (.typeName t) ∧ P (.expr (.ident i)) ∧ (Node.stmt (.block b)).All P := by
  rw [all_iff]
  simp [children, Block.node, Ident.node]

@[simp] theorem all_param {p : Param} :
    (Node.param p).All P ↔ P (.param p) ∧ P (.typeName p.type) ∧ P (.expr (.ident p.name)) := by
  rw [all_iff]
  simp [children, Ident.node]

end SmallJava.Node
