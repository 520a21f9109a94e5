import SmallJava.Proofs.Navigation
import SmallJava.Proofs.Spans
import SmallJava.Proofs.Tree.Nodes

/-!
# Traversals

The events of a walk through a tree are visits and leavings of nodes. They are read here without a look at the tree, as
brackets: a visit opens, a leaving closes what was opened last.

* `Walk.stillOpen` — the nodes that are open after some events;
* `Walk.pruned` — the events without those between the visit and the leaving of certain nodes;
* `Node.stillOpen_before` — when a node is visited, the nodes above it are open;
* `Node.pruned_inspect` — a walk that does not go below certain nodes;
* `inspect_traverses` — the whole statement, with the order of the visits in a parsed tree;
* `not_inspect_comments` — the comments of a program are not visited.
-/

namespace SmallJava

/-! ## Visits and leavings as brackets -/

namespace Walk

/-- The nodes that are open after one more event, the innermost first. There has to be one to be left. -/
def openStep (above : List Node) : Option Node → Option (List Node)
  | some n => some (n :: above)
  | none => above.tail?

/-- The nodes that are open after the events, the innermost first, if `above` are open before. -/
def stillOpen (above : List Node) (events : List (Option Node)) : Option (List Node) := events.foldlM openStep above

@[simp] theorem stillOpen_nil (above : List Node) : stillOpen above [] = some above := rfl

@[simp] theorem stillOpen_visit (above : List Node) (n : Node) (events : List (Option Node)) :
    stillOpen above (some n :: events) = stillOpen (n :: above) events := rfl

@[simp] theorem stillOpen_leave (n : Node) (above : List Node) (events : List (Option Node)) :
    stillOpen (n :: above) (none :: events) = stillOpen above events := rfl

theorem stillOpen_append (above : List Node) (xs ys : List (Option Node)) :
    stillOpen above (xs ++ ys) = (stillOpen above xs).bind (stillOpen · ys) := List.foldlM_append

/-- The events leave every node that they visit, and no other. -/
def Matched (events : List (Option Node)) : Prop := ∀ above, stillOpen above events = some above

theorem Matched.flatMap {α : Type} {f : α → List (Option Node)} {xs : List α} (h : ∀ x ∈ xs, Matched (f x)) :
    Matched (xs.flatMap f) := by
  intro above
  induction xs with
  | nil => rfl
  | cons x xs ih =>
    rw [List.forall_mem_cons] at h
    rw [List.flatMap_cons, stillOpen_append, h.1, Option.bind_some, ih h.2]

/-! ## Leaving out what is inside of a node -/

/-- The events behind the one that leaves a node, from where `depth` nodes below it are open. -/
def behindLeave : Nat → List (Option Node) → List (Option Node)
  | _, [] => []
  | depth, some _ :: events => behindLeave (depth + 1) events
  | 0, none :: events => events
  | depth + 1, none :: events => behindLeave depth events

theorem length_behindLeave_le (depth : Nat) (events : List (Option Node)) :
    (behindLeave depth events).length ≤ events.length := by
  fun_induction behindLeave depth events with
  | case1 => exact Nat.le_refl _
  | case2 depth n events ih => exact Nat.le_succ_of_le ih
  | case3 events => exact Nat.le_succ _
  | case4 depth events ih => exact Nat.le_succ_of_le ih

/-- The events without those inside of the outermost nodes of which `p` holds. The visit of such a node is kept; what
follows is left out, up to the event that leaves the node and with it. -/
def pruned (p : Node → Bool) : List (Option Node) → List (Option Node)
  | [] => []
  | none :: events => none :: pruned p events
  | some n :: events => some n :: if p n then pruned p (behindLeave 0 events) else pruned p events
termination_by events => events.length
decreasing_by
  · simp
  · exact Nat.lt_succ_of_le (length_behindLeave_le 0 events)
  · simp

/-- What is open is to be left first. -/
theorem behindLeave_append {above below : List Node} {events : List (Option Node)}
    (h : stillOpen above events = some below) (depth : Nat) (rest : List (Option Node)) :
    behindLeave (depth + above.length) (events ++ rest) = behindLeave (depth + below.length) rest := by
  induction events generalizing above with
  | nil =>
    obtain rfl : above = below := Option.some.inj h
    rfl
  | cons event events ih =>
    cases event with
    | some n => exact ih h
    | none =>
      cases above with
      | nil => cases h
      | cons n above => exact ih h

theorem pruned_flatMap {p : Node → Bool} {α : Type} {f g : α → List (Option Node)} {xs : List α}
    (h : ∀ x ∈ xs, ∀ rest, pruned p (f x ++ rest) = g x ++ pruned p rest) (rest : List (Option Node)) :
    pruned p (xs.flatMap f ++ rest) = xs.flatMap g ++ pruned p rest := by
  induction xs with
  | nil => rfl
  | cons x xs ih =>
    rw [List.forall_mem_cons] at h
    rw [List.flatMap_cons, List.flatMap_cons, List.append_assoc, List.append_assoc, h.1, ih h.2]

theorem Matched.behindLeave {events : List (Option Node)} (h : Matched events) (rest : List (Option Node)) :
    behindLeave 0 (events ++ none :: rest) = rest :=
  behindLeave_append (h []) 0 (none :: rest)

end Walk

/-! ## Walks through all nodes -/

namespace Node

open Walk

theorem inspect_all_eq (n : Node) :
    (n.inspect fun _ => true) = some n :: (n.children.flatMap (·.node.inspect fun _ => true) ++ [none]) := by
  rw [inspect_eq, if_pos rfl]

theorem matched_inspect (n : Node) : Matched (n.inspect fun _ => true) := by
  induction n using induct_children with
  | step n ih =>
    intro above
    rw [inspect_all_eq, stillOpen_visit, stillOpen_append, Matched.flatMap ih, Option.bind_some, stillOpen_leave,
      stillOpen_nil]

theorem matched_inspect_children (cs : List Child) : Matched (cs.flatMap (·.node.inspect fun _ => true)) :=
  Matched.flatMap fun c _ => c.node.matched_inspect

/-- The nodes lead up to the root, each to the one directly above it. -/
structure Ascends (root : Node) (nodes : List Node) : Prop where
  connected : nodes.IsChain fun m k => k.IsAbove m
  stop : nodes.getLast? = some root

theorem Ascends.snoc {root n : Node} {nodes : List Node} (h : n.Ascends nodes) (hn : root.IsAbove n) :
    root.Ascends (nodes ++ [root]) where
  connected := by
    refine h.connected.append (.singleton root) fun m hm k hk => ?_
    rw [h.stop, Option.mem_some_iff] at hm
    rw [List.head?_cons, Option.mem_some_iff] at hk
    exact hm ▸ hk ▸ hn
  stop := List.getLast?_concat

end Node

/-- An element of lists that are put together is in one of them. -/
theorem exists_of_flatMap_eq {α β : Type} {f : α → List β} {xs : List α} {y : β} {before after : List β}
    (h : xs.flatMap f = before ++ y :: after) :
    ∃ front x behind b a, xs = front ++ x :: behind ∧ before = front.flatMap f ++ b ∧ f x = b ++ y :: a := by
  induction xs generalizing before with
  | nil => simp at h
  | cons x xs ih =>
    rw [List.flatMap_cons, List.append_eq_append_iff] at h
    rcases h with ⟨b, rfl, hrest⟩ | ⟨b, hx, hrest⟩
    · obtain ⟨front, x', behind, b', a, rfl, rfl, hx'⟩ := ih hrest
      exact ⟨x :: front, x', behind, b', a, rfl, by simp, hx'⟩
    · cases b with
      -- the first list ends in front of the element, which is in one of the others
      | nil =>
        have hfirst : xs.flatMap f = [] ++ y :: after := hrest.symm
        obtain ⟨front, x', behind, b', a, rfl, hb, hx'⟩ := ih hfirst
        exact ⟨x :: front, x', behind, b', a, rfl, by simp [← hb, hx], hx'⟩
      | cons y' b =>
        obtain ⟨rfl, -⟩ := List.cons_eq_cons.1 hrest
        exact ⟨[], x, xs, before, b, rfl, by simp, hx⟩

namespace Node

open Walk

/-- **When a node is visited, the nodes that are open are those above it.** -/
theorem stillOpen_before {n m : Node} {before after : List (Option Node)}
    (h : (n.inspect fun _ => true) = before ++ some m :: after) (above : List Node) :
    ∃ between, stillOpen above before = some (between ++ above) ∧ n.Ascends (m :: between) := by
  induction n using induct_children generalizing above before after with
  | step n ih =>
    rw [inspect_all_eq] at h
    cases before with
    | nil =>
      obtain ⟨hm, -⟩ := List.cons_eq_cons.1 h
      obtain rfl : n = m := Option.some.inj hm
      exact ⟨[], rfl, .singleton n, rfl⟩
    | cons event before =>
      obtain ⟨rfl, hbelow⟩ := List.cons_eq_cons.1 h
      -- the visit is below a child, since the last event is a leaving
      rcases List.append_eq_append_iff.1 hbelow with ⟨b, -, hlast⟩ | ⟨b, hchildren, hlast⟩
      · cases b <;> simp at hlast
      · cases b with
        | nil => simp at hlast
        | cons event b =>
          obtain ⟨rfl, -⟩ := List.cons_eq_cons.1 hlast
          obtain ⟨front, c, behind, b', a, hsplit, rfl, hc⟩ := exists_of_flatMap_eq hchildren
          have hmem : c ∈ n.children := by simp [hsplit]
          obtain ⟨between, hopen, hascends⟩ := ih c hmem hc (n :: above)
          refine ⟨between ++ [n], ?_, hascends.snoc ⟨c, hmem, rfl⟩⟩
          rw [stillOpen_visit, stillOpen_append, matched_inspect_children, Option.bind_some, hopen, List.append_assoc]
          rfl

/-- **A walk that does not go below certain nodes** has the events of a walk through the whole tree without those inside
of these nodes. -/
theorem pruned_inspect (p : Node → Bool) (n : Node) (rest : List (Option Node)) :
    pruned p ((n.inspect fun _ => true) ++ rest) = (n.inspect fun m => !p m) ++ pruned p rest := by
  induction n using induct_children generalizing rest with
  | step n ih =>
    rw [inspect_all_eq, inspect_eq (fun m => !p m), List.cons_append, List.append_assoc, List.singleton_append, pruned]
    by_cases hp : p n = true
    -- the events of the children are matched, so the next leaving behind them is the one of the node
    · rw [if_pos hp, (matched_inspect_children n.children).behindLeave, hp]
      rfl
    · rw [Bool.not_eq_true] at hp
      rw [hp, if_neg (by decide), pruned_flatMap ih, pruned]
      simp

/-! ## The order of the text -/

/-- All nodes of a tree that is well placed lie within the root. -/
theorem within_of_placed {s : Source} {n : Node} (h : n.All (Node.Placed s)) : ∀ m ∈ n.preorder,
    n.location.span.start ≤ m.location.span.start ∧ m.location.span.stop ≤ n.location.span.stop := by
  induction n using induct_children with
  | step n ih =>
    rw [forall_preorder_iff]
    refine ⟨⟨Int.le_refl _, Int.le_refl _⟩, fun c hc m hm => ?_⟩
    have hmem : c.node ∈ n.children.map (·.node) := List.mem_map_of_mem hc
    have hchild := h.self.children.within c.node hmem
    have hbelow := ih c hc (h.child hmem) m hm
    omega

/-- The nodes of a tree that is well placed start one after the other. -/
theorem starts_sorted {s : Source} {n : Node} (h : n.All (Node.Placed s)) :
    n.preorder.Pairwise fun m k => m.location.span.start ≤ k.location.span.start := by
  induction n using induct_children with
  | step n ih =>
    have hwithin := within_of_placed h
    rw [preorder_eq] at hwithin ⊢
    rw [List.forall_mem_cons] at hwithin
    have hbelow : ∀ c ∈ n.children, c.node.All (Node.Placed s) := fun c hc => h.child (List.mem_map_of_mem hc)
    refine List.pairwise_cons.2 ⟨fun m hm => (hwithin.2 m hm).1, List.pairwise_flatMap.2 ⟨?_, ?_⟩⟩
    · exact fun c hc => ih c hc (hbelow c hc)
    · have hordered := List.pairwise_map.1 h.self.children.pairwise
      refine hordered.imp_of_mem fun {c d} hc hd hle m hm k hk => ?_
      -- what is in the earlier child ends before anything in the later one starts
      have hfirst := within_of_placed (hbelow c hc) m hm
      have hsecond := within_of_placed (hbelow d hd) k hk
      have hspan := (hbelow c hc m hm).inSource.2.1
      omega

end Node

/-! ## Traversals -/

/-- **A walk is complete, balanced and pruned exactly.** A walk that goes below all nodes visits what is in the fields
of the tree, comments apart, every node once. It leaves what it visits, and when it visits a node, those that are open
are the ones above it, up to the root. A walk that does not go below certain nodes has the same events, without those
inside of the outermost of these nodes. In a parsed tree the nodes are visited in the order in which they start. -/
theorem inspect_traverses :
    (∀ n : Node,
      let events := n.inspect fun _ => true
      (events.filterMap id = n.nodes ∧ n.nodes.length = n.size) ∧
      Walk.stillOpen [] events = some [] ∧
      (∀ before m after, events = before ++ some m :: after →
        ∃ above, Walk.stillOpen [] before = some above ∧ n.Ascends (m :: above)) ∧
      ∀ p : Node → Bool, (n.inspect fun m => !p m) = Walk.pruned p events) ∧
    ∀ (o : Options) (s : Source),
      (((Node.program (parse o s).program).inspect fun _ => true).filterMap id).Pairwise
        fun m k => m.location.span.start ≤ k.location.span.start := by
  constructor
  · intro n events
    refine ⟨⟨n.preorder_eq_nodes, n.length_nodes⟩, n.matched_inspect [], ?_, ?_⟩
    · intro before m after h
      obtain ⟨between, hopen, hascends⟩ := Node.stillOpen_before h []
      exact ⟨between, by simpa using hopen, hascends⟩
    · intro p
      have hpruned := n.pruned_inspect p []
      rw [List.append_nil, Walk.pruned, List.append_nil] at hpruned
      exact hpruned.symm
  · intro o s
    exact Node.starts_sorted (program_placed o s)

/-- The walk through a text with one statement, when it comes to the result of that statement. -/
theorem inspect_traverses_result :
    let result : Node := .expr (.bad default)
    let last : Node := .stmt (.ret default (some (.bad default)))
    let root : Node := .program ⟨default, [.ret default (some (.bad default))], []⟩
    (root.inspect fun _ => true) = [some root, some last] ++ some result :: [none, none, none] ∧
      ∃ above, Walk.stillOpen [] [some root, some last] = some above ∧ root.Ascends (result :: above) := by
  intro result last root
  have hroot : root.children = [⟨"body", some 0, last⟩] := rfl
  have hlast : last.children = [⟨"result", none, result⟩] := rfl
  have hresult : result.children = [] := rfl
  have hevents : (root.inspect fun _ => true) = [some root, some last] ++ some result :: [none, none, none] := by
    rw [root.inspect_all_eq, hroot, List.flatMap_singleton, last.inspect_all_eq, hlast, List.flatMap_singleton,
      result.inspect_all_eq, hresult]
    rfl
  exact ⟨hevents, (inspect_traverses.1 root).2.2.1 _ _ _ hevents⟩

/-- A statement with a comment behind it. -/
def commentedSource : Source := { name := "", text := utf8 "x; // c", wellFormed := by decide +kernel }

/-- A comment is a node in a field of the program, but a walk through all nodes does not come to it. -/
theorem not_inspect_comments :
    let root := Node.program (parse { keepComments := true } commentedSource).program
    root.comments.length = 1 ∧ ¬ ((root.inspect fun _ => true).filterMap id).Perm (root.nodes ++ root.comments) := by
  intro root
  have hcomments : root.comments.length = 1 := by decide +kernel
  refine ⟨hcomments, fun hperm => ?_⟩
  have hvisited : (root.inspect fun _ => true).filterMap id = root.nodes := root.preorder_eq_nodes
  have hlength := hperm.length_eq
  rw [hvisited, List.length_append, hcomments] at hlength
  omega

end SmallJava
