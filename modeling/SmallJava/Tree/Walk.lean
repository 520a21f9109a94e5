import SmallJava.Tree.Size

/-!
# Walking through a tree

A walk visits a node, then its children from left to right, each in the same way, and then leaves the node.
The visitor decides at each node whether its children are visited, and by which visitor; a node whose children
are not visited is not left either.

* `Node.walk` — the visits and leavings of a walk, each with the visitor that made it;
* `Node.inspect` — the same with one predicate as the visitor;
* `Node.outline` — all nodes with their depths and fields.
-/

namespace SmallJava

namespace Node

/-- The events of a walk by `visitor`: it visits a node, or leaves one (`none`). `visit` gives the visitor of
the children, or nothing if the children are to be passed over; leaving is up to the visitor of the children. -/
def walk {σ : Type} (visit : σ → Node → Option σ) (visitor : σ) (n : Node) :
    List (σ × Option Node) :=
  (visitor, some n) ::
    match visit visitor n with
    | none => []
    | some inner =>
      n.children.attach.flatMap (fun ⟨c, _⟩ => walk visit inner c.node) ++ [(inner, none)]
termination_by n.size
decreasing_by exact size_child_lt ‹_›

/-- The events of a walk that goes below the nodes of which `descend` holds. -/
def inspect (descend : Node → Bool) (n : Node) : List (Option Node) :=
  (n.walk (fun () m => if descend m then some () else none) ()).map (·.2)

/-- The nodes of a tree, each before its children. -/
def preorder (n : Node) : List Node := (n.inspect fun _ => true).filterMap id

/-- The node of `c` and all nodes below it, each with its field and its depth, counted from `depth`. -/
def outlineFrom (depth : Nat) (c : Child) : List (Nat × Child) :=
  (depth, c) :: c.node.children.attach.flatMap fun ⟨d, _⟩ => outlineFrom (depth + 1) d
termination_by c.node.size
decreasing_by exact size_child_lt ‹_›

/-- All nodes of a tree, each with its depth and its field; the root is in no field. -/
def outline (n : Node) : List (Nat × Child) := outlineFrom 0 (Child.one "" n)

end Node

end SmallJava
