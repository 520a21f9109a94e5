import SmallJava.Text.Quoted
import SmallJava.Tree.Node

/-!
# Cursors

A `Cursor` stands at a node below its origin and remembers the way there. It goes down along a path, one
`PathStep` after the other, and up again. A path that cannot be followed to its end leaves the cursor where
it got to, with the error that stopped it.
-/

namespace SmallJava

/-- A step of a path. -/
inductive PathStep where
  /-- To the child in the named field. A list field is only named here; the next step chooses from it. -/
  | field (name : String)
  /-- To the child at a place, counted from the end if negative. -/
  | index (i : Int)
  /-- To the first child that satisfies a predicate. -/
  | satisfying (p : Node → Bool)
  /-- A step of a type that no path takes. -/
  | unsupported (type : String)

/-- Why a path ends early. -/
inductive PathError where
  /-- A list field was named and nothing chosen from it. -/
  | wantIndex (field : String)
  /-- A node has no field of this name, or nothing in it. -/
  | noField (kind : NodeKind) (field : String)
  /-- There is no child at this place among so many. -/
  | outOfBounds (index : Int) (count : Nat)
  /-- No child satisfies the predicate. -/
  | noMatch (kind : NodeKind)
  /-- A step of a type that no path takes. -/
  | unsupported (type : String)
  /-- The path leads to a node of another kind than wanted. -/
  | wrongKind (kind : NodeKind)
deriving DecidableEq, Repr

/-- The wording of an error. -/
def PathError.message : PathError → String
  | .wantIndex field => "field " ++ Quoted.string field ++ " is a list; want an index"
  | .noField kind field => kind.label ++ " has no field " ++ Quoted.string field
  | .outOfBounds index count =>
    "index " ++ toString index ++ " out of bounds (n=" ++ toString count ++ ")"
  | .noMatch kind => "no matching child of " ++ kind.label
  | .unsupported type => "invalid path element " ++ type
  | .wrongKind kind => "wrong node type " ++ kind.label

/-- A node below an origin. -/
structure Cursor where
  origin : Node
  /-- The nodes passed on the way down, the last one being the current node. -/
  trail : List Node := []
  /-- What stopped the last way down. -/
  error : Option PathError := none

/-- A list field that has been named, with the children in it. -/
structure ListField where
  field : String
  elements : List Child

namespace PathStep

/-- Where a step leads from the node `current`, from whose list field `pending` something is to be chosen: to a
child, or to a list field. -/
def resolve (current : Node) (pending : Option ListField) :
    PathStep → Except PathError (Node ⊕ ListField)
  | .field name =>
    match pending with
    | some l => .error (.wantIndex l.field)
    | none =>
      match current.children.filter (·.field = name) with
      | [] => .error (.noField current.kind name)
      | c :: cs => if c.index.isNone then .ok (.inl c.node) else .ok (.inr ⟨name, c :: cs⟩)
  | .index i =>
    let candidates := pending.elim current.children (·.elements)
    let place := if i < 0 then i + candidates.length else i
    if place < 0 then .error (.outOfBounds place candidates.length)
    else match candidates[place.toNat]? with
      | some c => .ok (.inl c.node)
      | none => .error (.outOfBounds place candidates.length)
  | .satisfying p =>
    match (pending.elim current.children (·.elements)).find? (p ·.node) with
    | some c => .ok (.inl c.node)
    | none => .error (.noMatch current.kind)
  | .unsupported type => .error (.unsupported type)

end PathStep

namespace Cursor

/-- A cursor at its origin. -/
def ofNode (n : Node) : Cursor := { origin := n }

/-- Whether the cursor is at its origin. -/
def atOrigin (c : Cursor) : Bool := c.trail.isEmpty

/-- The current node. -/
def node (c : Cursor) : Node := c.trail.getLast?.getD c.origin

/-- All nodes from the origin to the current node. -/
def path (c : Cursor) : List Node := c.origin :: c.trail

/-- One node up, unless the cursor is at its origin. The error stays. -/
def up (c : Cursor) : Cursor := { c with trail := c.trail.dropLast }

/-- Back to the origin, without an error. -/
def reset (c : Cursor) : Cursor := { c with trail := [], error := none }

/-- Follows the steps from the current node, from whose list field `pending` something is to be chosen. -/
def follow (c : Cursor) (pending : Option ListField) : List PathStep → Cursor
  | [] => { c with error := pending.map fun l => .wantIndex l.field }
  | step :: steps =>
    match step.resolve c.node pending with
    | .error e => { c with error := some e }
    | .ok (.inl n) => { c with trail := c.trail ++ [n] }.follow none steps
    | .ok (.inr l) => c.follow (some l) steps

/-- Goes down along a path. -/
def down (c : Cursor) (steps : List PathStep) : Cursor := { c with error := none }.follow none steps

end Cursor

namespace Node

/-- The node at the end of a path. -/
def descend (n : Node) (steps : List PathStep) : Except PathError Node :=
  let c := (Cursor.ofNode n).down steps
  match c.error with
  | some e => .error e
  | none => .ok c.node

/-- The node at the end of a path, if it is one of those that are wanted. -/
def descendTo (n : Node) (wanted : Node → Bool) (steps : List PathStep) : Except PathError Node := do
  let m ← n.descend steps
  if wanted m then return m else throw (.wrongKind m.kind)

end Node

end SmallJava
