import Mathlib.Data.Set.Insert
import SmallJava.Parser.Expr
import SmallJava.Proofs.Tree.Preorder

/-!
# What a tree says about problems

Some problems are told by the tree itself: a `try` statement that nothing handles, and an assignment to something that
cannot be assigned to. And where there is a bad node, some text was not understood. These are the marks of a tree.

* `Mark` — a faulty node or a bad one;
* `Node.marks` — the marks of all nodes of a tree, which are those of the root and of its children (`Node.marks_eq`).
-/

namespace SmallJava

/-- Whether the problem is one of a node of the tree. -/
def Code.isStructural : Code → Bool
  | .tryRequiresCatchOrFinally | .invalidAssignmentTarget => true
  | _ => false

/-- Whether the problem is one of the scanner. -/
def Code.isLexical : Code → Bool
  | .unexpectedCharacter | .unterminatedString | .unterminatedComment | .malformedNumber => true
  | _ => false

/-- What a node says about problems. -/
inductive Mark where
  /-- A problem with the node, to be reported at a location. -/
  | fault (code : Code) (loc : Location)
  /-- Text that was not understood. -/
  | bad (loc : Location)

namespace Node

/-- The mark of a node, if it has one. -/
@[simp] def ownMarks : Node → Set Mark
  | .stmt (.tryCatch loc _ catches cleanup) =>
    if catches.isEmpty && cleanup.isNone then {.fault .tryRequiresCatchOrFinally loc} else ∅
  | .expr (.assign _ _ target _) =>
    if !target.isAssignable then {.fault .invalidAssignmentTarget target.location} else ∅
  | .stmt (.bad loc) | .expr (.bad loc) => {.bad loc}
  | _ => ∅

/-- The marks of a tree. -/
def marks (n : Node) : Set Mark := {k | ∃ m ∈ n.preorder, k ∈ m.ownMarks}

/-- The marks of several trees. -/
def marksOf (ns : List Node) : Set Mark := {k | ∃ n ∈ ns, k ∈ n.marks}

@[simp] theorem marksOf_nil : marksOf [] = ∅ := by
  ext k
  simp [marksOf]

@[simp] theorem marksOf_cons (n : Node) (ns : List Node) : marksOf (n :: ns) = n.marks ∪ marksOf ns := by
  ext k
  simp [marksOf]

@[simp] theorem marksOf_append (ns ms : List Node) : marksOf (ns ++ ms) = marksOf ns ∪ marksOf ms := by
  induction ns with
  | nil => simp
  | cons n ns ih => simp [ih, Set.union_assoc]

theorem marks_eq (n : Node) : n.marks = n.ownMarks ∪ marksOf (n.children.map (·.node)) := by
  ext k
  simp only [marks, marksOf, preorder_eq n, List.mem_cons, List.mem_flatMap, List.mem_map, Set.mem_ofPred_eq,
    Set.mem_union]
  constructor
  · rintro ⟨m, rfl | ⟨c, hc, hm⟩, hk⟩
    · exact .inl hk
    · exact .inr ⟨c.node, ⟨c, hc, rfl⟩, m, hm, hk⟩
  · rintro (hk | ⟨_, ⟨c, hc, rfl⟩, m, hm, hk⟩)
    · exact ⟨n, .inl rfl, hk⟩
    · exact ⟨m, .inr ⟨c, hc, hm⟩, hk⟩

@[simp] theorem marks_typeName (t : TypeName) : (Node.typeName t).marks = ∅ := by
  simp [marks_eq, children]

@[simp] theorem marks_ident (i : Ident) : (Node.expr (.ident i)).marks = ∅ := by
  simp [marks_eq, children, Expr.children]

@[simp] theorem marks_badExpr (loc : Location) : (Node.expr (.bad loc)).marks = {.bad loc} := by
  simp [marks_eq, children, Expr.children]

@[simp] theorem marks_badStmt (loc : Location) : (Node.stmt (.bad loc)).marks = {.bad loc} := by
  simp [marks_eq, children, Stmt.children]

@[simp] theorem marks_param (p : Param) : (Node.param p).marks = ∅ := by
  simp [marks_eq (.param p), children, Ident.node]

@[simp] theorem marksOf_params (ps : List Param) : marksOf (ps.map .param) = ∅ := by
  induction ps with
  | nil => simp
  | cons p ps ih => simp [ih]

end Node

end SmallJava
