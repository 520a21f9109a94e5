import Mathlib.Data.List.Chain
import SmallJava.Proofs.Grammar.Path
import SmallJava.Proofs.Tree.Fields
import SmallJava.Proofs.Tree.Preorder
import SmallJava.Tree.Cursor

/-!
# Ways through a tree

A cursor goes down along a path in legs. On each leg one step chooses a child; where it is to choose from a list field,
the name of the field stands before it. This module says which child a step chooses without saying how it is looked
up, and compares the cursor with that.

* `PathStep.Chooses`, `Leg.StartsAt`, `Way` — the legs of a path;
* `Stuck` — paths without a first leg;
* `Cursor.down_cases` — a cursor follows a path leg by leg as far as there are legs;
* `cursor_moves` — what holds after any moves of a cursor;
* `down_addressed` — every node is found by the names of the fields on the way to it;
* `down_append` — a path may be followed in two parts, unless the first part ends within a leg.
-/

namespace SmallJava

open Child (one opt many manyFrom)

/-! ## Legs -/

/-- The children that a step chooses from: all of them, or those in the list field that is named before it. -/
def Node.choices (n : Node) : Option String → List Child
  | none => n.children
  | some field => n.held field

namespace PathStep

/-- The step chooses a child of the node, perhaps from a list field. -/
inductive Chooses (n : Node) : Option String → PathStep → Child → Prop where
  /-- By the name of a field that holds one node. -/
  | single {c : Child} : c ∈ n.children → c.index = none → Chooses n none (.field c.field) c
  /-- By its place, counted from the start. -/
  | ahead {list : Option String} {j : Nat} {c : Child} :
      (n.choices list)[j]? = some c → Chooses n list (.index j) c
  /-- By its place, counted from the end. -/
  | back {list : Option String} {j : Nat} {c : Child} :
      (n.choices list)[j]? = some c → Chooses n list (.index (j - (n.choices list).length)) c
  /-- By a predicate that it is the first to satisfy. -/
  | first {list : Option String} {p : Node → Bool} {c : Child} :
      (n.choices list).find? (p ·.node) = some c → Chooses n list (.satisfying p) c

/-- The step is the name of a list field of the node. -/
def NamesList (n : Node) (step : PathStep) : Prop := ∃ field, step = .field field ∧ n.Lists field

variable {n : Node} {c : Child} {list : Option String} {s : PathStep}

theorem Chooses.mem_children (h : s.Chooses n list c) : c ∈ n.children := by
  have hmem : ∀ {list}, c ∈ n.choices list → c ∈ n.children := by
    intro list hc
    cases list with
    | none => exact hc
    | some field => exact (Node.mem_held.1 hc).1
  cases h with
  | single hc => exact hc
  | ahead hc | back hc => exact hmem (List.mem_of_getElem? hc)
  | first hc => exact hmem (List.mem_of_find?_eq_some hc)

theorem Chooses.not_namesList (h : s.Chooses n list c) : ¬ s.NamesList n := by
  rintro ⟨field, rfl, hlists⟩
  cases h with
  | single hc hi => exact Node.not_lists hc hi hlists

end PathStep

/-- A leg of a path: a step to a child, and the list field to choose it from if one is named before. -/
structure Leg where
  list : Option String
  step : PathStep
  child : Child

/-- The steps of a leg. -/
def Leg.steps (l : Leg) : List PathStep := (l.list.map PathStep.field).toList ++ [l.step]

/-- The leg starts at the node. What is named first is a list field, and the step itself is not the name of one. -/
structure Leg.StartsAt (l : Leg) (n : Node) : Prop where
  listed : ∀ field ∈ l.list, n.Lists field
  proper : ¬ l.step.NamesList n
  chooses : l.step.Chooses n l.list l.child

theorem PathStep.Chooses.startsAt {n : Node} {list : Option String} {s : PathStep} {c : Child}
    (h : s.Chooses n list c) (hl : ∀ field ∈ list, n.Lists field) : (Leg.mk list s c).StartsAt n :=
  ⟨hl, h.not_namesList, h⟩

/-- The legs lead from the node down, each to the next. -/
def Way : Node → List Leg → Prop
  | _, [] => True
  | n, l :: legs => l.StartsAt n ∧ Way l.child.node legs

/-- The path goes on, but it has no leg at the node. -/
inductive Stuck (n : Node) : List PathStep → Prop where
  /-- The first step chooses nothing. -/
  | step {s : PathStep} {steps : List PathStep} :
      (∀ c, ¬ s.Chooses n none c) → ¬ s.NamesList n → Stuck n (s :: steps)
  /-- The first step names a list field, and the second one chooses nothing from it. -/
  | choice {field : String} {s : PathStep} {steps : List PathStep} :
      n.Lists field → (∀ c, ¬ s.Chooses n (some field) c) → Stuck n (.field field :: s :: steps)
  /-- The path ends with the name of a list field. -/
  | unchosen {field : String} : n.Lists field → Stuck n [.field field]

/-- The second node is directly below the first one. -/
def Node.IsAbove (n m : Node) : Prop := ∃ c ∈ n.children, c.node = m

/-! ## Looking up a step -/

namespace PathStep

variable {n : Node} {c : Child} {list : Option String} {s : PathStep}

/-- The list field that is named, with its children. -/
def pending (n : Node) (list : Option String) : Option ListField := list.map fun field => ⟨field, n.held field⟩

theorem elim_pending (n : Node) (list : Option String) :
    (pending n list).elim n.children (·.elements) = n.choices list := by
  cases list <;> rfl

theorem resolve_of_chooses (h : s.Chooses n list c) : s.resolve n (pending n list) = .ok (.inl c.node) := by
  cases h with
  | single hc hi =>
    have hheld := Node.held_of_single hc hi
    rw [Node.held] at hheld
    simp [resolve, pending, hheld, hi]
  | @ahead _ j _ hc =>
    have hplace : ¬ ((j : Int) < 0) := by omega
    simp [resolve, elim_pending, hplace, hc]
  | @back _ j _ hc =>
    have hj := (List.getElem?_eq_some_iff.1 hc).1
    have hneg : (j : Int) - ((n.choices list).length : Int) < 0 := by omega
    have hplace : ¬ ((j : Int) < 0) := by omega
    simp only [resolve, elim_pending, hneg, if_true, Int.sub_add_cancel, hplace, if_false, Int.toNat_natCast, hc]
  | first hc => simp [resolve, elim_pending, hc]

theorem resolve_of_lists {field : String} (h : n.Lists field) :
    (PathStep.field field).resolve n none = .ok (.inr ⟨field, n.held field⟩) := by
  obtain ⟨c, hc, rfl, hindex⟩ := h
  have hmem : c ∈ n.held c.field := Node.mem_held.2 ⟨hc, rfl⟩
  rcases n.fielded_children.filter_cases c.field with ⟨m, hm⟩ | ⟨ms, hms⟩
  · rw [Node.held, hm, List.mem_singleton] at hmem
    rw [hmem] at hindex
    cases hindex
  · cases ms with
    | nil =>
      rw [Node.held, hms] at hmem
      cases hmem
    | cons m ms => simp [resolve, Node.held, hms, many, manyFrom]

/-- A place may be counted from the start or, if it is negative, from the end. -/
theorem chooses_of_place {i place : Int} (hplace : place = if i < 0 then i + ((n.choices list).length : Int) else i)
    (hpos : 0 ≤ place) (hget : (n.choices list)[place.toNat]? = some c) : (PathStep.index i).Chooses n list c := by
  split at hplace
  · have hi : i = (place.toNat : Int) - ((n.choices list).length : Int) := by omega
    exact hi ▸ .back hget
  · have hi : i = (place.toNat : Int) := by omega
    exact hi ▸ .ahead hget

/-- A step that chooses nothing and names no list field is an error. -/
theorem resolve_error (hc : ∀ c, ¬ s.Chooses n list c) (hl : list = none → ¬ s.NamesList n) :
    ∃ e, s.resolve n (pending n list) = .error e := by
  cases s with
  | field name =>
    cases list with
    | some field => exact ⟨_, rfl⟩
    | none =>
      cases hheld : n.held name with
      | nil =>
        rw [Node.held] at hheld
        exact ⟨.noField n.kind name, by simp [resolve, pending, hheld]⟩
      | cons d ds =>
        obtain ⟨hd, rfl⟩ : d ∈ n.children ∧ d.field = name := Node.mem_held.1 (by simp [hheld])
        cases hindex : d.index with
        | none => exact absurd (.single hd hindex) (hc d)
        | some i => exact absurd ⟨_, rfl, d, hd, rfl, by simp [hindex]⟩ (hl rfl)
  | index i =>
    obtain ⟨place, hplace⟩ : ∃ place, place = if i < 0 then i + ((n.choices list).length : Int) else i := ⟨_, rfl⟩
    simp only [resolve, elim_pending, ← hplace]
    split
    · exact ⟨_, rfl⟩
    · next hpos =>
      split
      · next c hget => exact absurd (chooses_of_place hplace (by omega) hget) (hc c)
      · exact ⟨_, rfl⟩
  | satisfying p =>
    cases hfind : (n.choices list).find? (p ·.node) with
    | none => exact ⟨.noMatch n.kind, by simp [resolve, elim_pending, hfind]⟩
    | some c => exact absurd (.first hfind) (hc c)
  | unsupported type => exact ⟨_, rfl⟩

end PathStep

/-! ## Going down -/

namespace Cursor

/-- The cursor, moved on to nodes below. -/
def extend (c : Cursor) (nodes : List Node) : Cursor := { c with trail := c.trail ++ nodes }

@[simp] theorem extend_nil (c : Cursor) : c.extend [] = c := by simp [extend]

@[simp] theorem extend_extend (c : Cursor) (ns ms : List Node) : (c.extend ns).extend ms = c.extend (ns ++ ms) := by
  simp [extend]

@[simp] theorem node_extend_singleton (c : Cursor) (n : Node) : (c.extend [n]).node = n := by
  simp [extend, node]

/-- On a leg the cursor moves on by one node. -/
theorem follow_leg {c : Cursor} {l : Leg} (h : l.StartsAt c.node) (steps : List PathStep) :
    c.follow none (l.steps ++ steps) = (c.extend [l.child.node]).follow none steps := by
  obtain ⟨list, step, child⟩ := l
  obtain ⟨hlisted, -, hchooses⟩ := h
  have hstep := PathStep.resolve_of_chooses hchooses
  cases list with
  | none =>
    simp only [PathStep.pending, Option.map_none] at hstep
    simp [Leg.steps, follow, hstep, extend]
  | some field =>
    simp only [PathStep.pending, Option.map_some] at hstep
    simp [Leg.steps, follow, PathStep.resolve_of_lists (hlisted field rfl), hstep, extend]

theorem follow_legs {c : Cursor} {legs : List Leg} (h : Way c.node legs) (steps : List PathStep) :
    c.follow none (legs.flatMap Leg.steps ++ steps) = (c.extend (legs.map (·.child.node))).follow none steps := by
  induction legs generalizing c with
  | nil => simp
  | cons l legs ih =>
    have hnext : Way (c.extend [l.child.node]).node legs := by simpa using h.2
    simp [follow_leg h.1, ih hnext]

/-- Where there is no leg, and would be none if the path went on, the cursor stays, with an error, whatever follows. -/
theorem follow_stuck_append {c : Cursor} {steps : List PathStep} (h : Stuck c.node steps)
    (hlast : ∀ field, steps = [.field field] → ¬ c.node.Lists field) :
    ∃ e, ∀ more, c.follow none (steps ++ more) = { c with error := some e } := by
  cases h with
  | step hc hl =>
    obtain ⟨e, he⟩ := PathStep.resolve_error hc fun _ => hl
    simp only [PathStep.pending, Option.map_none] at he
    exact ⟨e, fun more => by simp [follow, he]⟩
  | choice hl hc =>
    obtain ⟨e, he⟩ := PathStep.resolve_error hc (by simp)
    simp only [PathStep.pending, Option.map_some] at he
    exact ⟨e, fun more => by simp [follow, PathStep.resolve_of_lists hl, he]⟩
  | unchosen hl => exact absurd hl (hlast _ rfl)

/-- Where there is no leg the cursor stays, with an error. -/
theorem follow_stuck {c : Cursor} {steps : List PathStep} (h : Stuck c.node steps) :
    ∃ e, c.follow none steps = { c with error := some e } := by
  by_cases hlast : ∃ field, steps = [.field field] ∧ c.node.Lists field
  · obtain ⟨field, rfl, hl⟩ := hlast
    exact ⟨.wantIndex field, by simp [follow, PathStep.resolve_of_lists hl]⟩
  · obtain ⟨e, he⟩ := follow_stuck_append h fun field hsteps hl => hlast ⟨field, hsteps, hl⟩
    exact ⟨e, by simpa using he []⟩

end Cursor

/-- A path is at its end, or it goes on with a leg, or it is stuck. -/
theorem leg_cases (n : Node) (steps : List PathStep) :
    steps = [] ∨ (∃ l rest, l.StartsAt n ∧ steps = Leg.steps l ++ rest) ∨ Stuck n steps := by
  cases steps with
  | nil => exact .inl rfl
  | cons s steps =>
    by_cases hc : ∃ c, s.Chooses n none c
    · obtain ⟨c, hc⟩ := hc
      exact .inr (.inl ⟨_, steps, hc.startsAt (by simp), rfl⟩)
    · rw [not_exists] at hc
      by_cases hl : s.NamesList n
      · obtain ⟨field, rfl, hl⟩ := hl
        cases steps with
        | nil => exact .inr (.inr (.unchosen hl))
        | cons t steps =>
          by_cases ht : ∃ c, t.Chooses n (some field) c
          · obtain ⟨c, ht⟩ := ht
            exact .inr (.inl ⟨_, steps, ht.startsAt (by simpa using hl), rfl⟩)
          · exact .inr (.inr (.choice hl (not_exists.1 ht)))
      · exact .inr (.inr (.step hc hl))

namespace Cursor

theorem follow_cases (c : Cursor) (steps : List PathStep) :
    ∃ legs rest e, Way c.node legs ∧ steps = legs.flatMap Leg.steps ++ rest ∧
      c.follow none steps = { c.extend (legs.map (·.child.node)) with error := e } ∧
      (rest = [] ∧ e = none ∨ Stuck (c.extend (legs.map (·.child.node))).node rest ∧ e ≠ none) := by
  induction hk : steps.length using Nat.strongRecOn generalizing c steps with
  | ind k ih =>
    rcases leg_cases c.node steps with rfl | ⟨l, rest, hl, rfl⟩ | hstuck
    · exact ⟨[], [], none, trivial, rfl, by simp [follow], .inl ⟨rfl, rfl⟩⟩
    · have hshorter : rest.length < k := by
        simp only [← hk, Leg.steps, List.length_append, List.length_singleton]
        omega
      obtain ⟨legs, rest', e, hway, rfl, hfollow, hend⟩ := ih _ hshorter (c.extend [l.child.node]) rest rfl
      refine ⟨l :: legs, rest', e, ⟨hl, by simpa using hway⟩, by simp, ?_, by simpa using hend⟩
      rw [follow_leg hl, hfollow]
      simp
    · obtain ⟨e, he⟩ := follow_stuck hstuck
      exact ⟨[], steps, some e, trivial, rfl, by simp [he], .inr ⟨by simpa using hstuck, by simp⟩⟩

/-- **A cursor follows a path leg by leg**, to its end or to where the path is stuck. -/
theorem down_cases (c : Cursor) (steps : List PathStep) :
    ∃ legs rest, Way c.node legs ∧ steps = legs.flatMap Leg.steps ++ rest ∧
      (c.down steps).path = c.path ++ legs.map (·.child.node) ∧
      (rest = [] ∧ (c.down steps).error = none ∨ Stuck (c.down steps).node rest ∧ (c.down steps).error ≠ none) := by
  obtain ⟨legs, rest, e, hway, hsteps, hfollow, hend⟩ := follow_cases { c with error := none } steps
  refine ⟨legs, rest, hway, hsteps, ?_, ?_⟩
  · rw [down, hfollow]
    simp [path, extend]
  · rw [down, hfollow]
    exact hend

/-! ## Moves -/

/-- A move of a cursor. -/
inductive Move where
  | down (steps : List PathStep)
  | up
  | reset

/-- The cursor after a move. -/
def move (c : Cursor) : Move → Cursor
  | .down steps => c.down steps
  | .up => c.up
  | .reset => c.reset

/-- The cursor after several moves. -/
def run (c : Cursor) (moves : List Move) : Cursor := moves.foldl move c

/-- The cursor is at the end of a path from the root, on which every node is directly below the one before it. -/
structure Placed (root : Node) (c : Cursor) : Prop where
  start : c.path.head? = some root
  connected : c.path.IsChain Node.IsAbove
  stop : c.path.getLast? = some c.node
  atOrigin_iff : c.atOrigin = true ↔ c.path.length = 1

/-- Any cursor is at the end of its path, which starts at its origin. -/
theorem placed_iff {root : Node} {c : Cursor} :
    c.Placed root ↔ c.origin = root ∧ c.path.IsChain Node.IsAbove := by
  refine ⟨fun h => ⟨by simpa [path] using h.start, h.connected⟩, fun ⟨hroot, hconnected⟩ => ?_⟩
  have hstop : c.path.getLast? = some c.node := by
    simp [path, node, List.getLast?_cons]
  exact ⟨by simpa [path] using hroot, hconnected, hstop, by simp [atOrigin, path]⟩

theorem Placed.up {root : Node} {c : Cursor} (h : c.Placed root) : c.up.Placed root := by
  obtain ⟨hroot, hconnected⟩ := placed_iff.1 h
  obtain ⟨rest, hrest⟩ : c.up.path <+: c.path := List.cons_prefix_cons.2 ⟨rfl, List.dropLast_prefix c.trail⟩
  rw [← hrest] at hconnected
  exact placed_iff.2 ⟨hroot, hconnected.left_of_append⟩

theorem Placed.reset {root : Node} {c : Cursor} (h : c.Placed root) : c.reset.Placed root :=
  placed_iff.2 ⟨(placed_iff.1 h).1, .singleton c.origin⟩

end Cursor

theorem Way.isChain {n : Node} {legs : List Leg} (h : Way n legs) :
    (n :: legs.map (·.child.node)).IsChain Node.IsAbove := by
  induction legs generalizing n with
  | nil => exact .singleton n
  | cons l legs ih => exact List.isChain_cons_cons.2 ⟨⟨l.child, h.1.chooses.mem_children, rfl⟩, ih h.2⟩

namespace Cursor

theorem Placed.down {root : Node} {c : Cursor} (h : c.Placed root) (steps : List PathStep) :
    (c.down steps).Placed root := by
  obtain ⟨legs, rest, hway, -, hpath, -⟩ := c.down_cases steps
  have hbelow := hway.isChain
  refine placed_iff.2 ⟨?_, ?_⟩
  · have hstart := h.start
    rw [path, List.head?_cons] at hstart
    have horigin := congrArg List.head? hpath
    simpa [path] using horigin.trans hstart
  · rw [hpath]
    refine h.connected.append hbelow.of_cons fun n hn m hm => ?_
    rw [h.stop, Option.mem_some_iff] at hn
    exact hn ▸ List.isChain_cons.1 hbelow |>.1 m hm

/-- What a move keeps. -/
theorem Placed.move {root : Node} {c : Cursor} (h : c.Placed root) (m : Move) : (c.move m).Placed root := by
  cases m with
  | down steps => exact h.down steps
  | up => exact h.up
  | reset => exact h.reset

theorem Placed.run {root : Node} {c : Cursor} (h : c.Placed root) (moves : List Move) : (c.run moves).Placed root := by
  induction moves generalizing c with
  | nil => exact h
  | cons m moves ih => exact ih (h.move m)

/-- Going up takes nodes off the end of the path. -/
theorem path_iterate_up {c : Cursor} {nodes below : List Node} (h : c.path = nodes ++ below) (hne : nodes ≠ []) :
    (up^[below.length] c).path = nodes := by
  induction below using List.reverseRecOn generalizing c with
  | nil => simpa using h
  | append_singleton ns n ih =>
    have htrail : c.trail ≠ [] := by
      rintro hnil
      have hlength := congrArg List.length h
      have hpos := List.length_pos_iff.2 hne
      simp only [path, hnil, List.length_append, List.length_singleton] at hlength
      omega
    have hup : c.up.path = c.path.dropLast := (List.dropLast_cons_of_ne_nil htrail).symm
    rw [List.length_append, List.length_singleton, Function.iterate_succ_apply]
    exact ih (by rw [hup, h, ← List.append_assoc, List.dropLast_concat])

end Cursor

/-- **A cursor is always at the end of a path from its origin.** Whatever moves a cursor has made, it goes down along a
path leg by leg, passing one node on each leg. It gets to the end of the path without an error and could go back by as
many moves up, or it stops where the path is stuck, with an error. -/
theorem cursor_moves (root : Node) (moves : List Cursor.Move) (steps : List PathStep) :
    let c := (Cursor.ofNode root).run moves
    let d := c.down steps
    c.Placed root ∧
      ∃ legs rest, Way c.node legs ∧ steps = legs.flatMap Leg.steps ++ rest ∧
        d.path = c.path ++ legs.map (·.child.node) ∧
        (d.error = none ∧ rest = [] ∧ (Cursor.up^[legs.length] d).path = c.path ∨
          d.error ≠ none ∧ Stuck d.node rest) := by
  intro c d
  have hroot : (Cursor.ofNode root).Placed root := Cursor.placed_iff.2 ⟨rfl, .singleton root⟩
  have hc : c.Placed root := hroot.run moves
  obtain ⟨legs, rest, hway, hsteps, hpath, hend⟩ := c.down_cases steps
  refine ⟨hc, legs, rest, hway, hsteps, hpath, ?_⟩
  rcases hend with ⟨hrest, herror⟩ | ⟨hstuck, herror⟩
  · have hup := Cursor.path_iterate_up hpath (by simp [Cursor.path])
    rw [List.length_map] at hup
    exact .inl ⟨herror, hrest, hup⟩
  · exact .inr ⟨herror, hstuck⟩

/-! ## Addresses -/

/-- The name of a child: its field, and its place if the field is a list. -/
def Child.address (c : Child) : List PathStep := .field c.field :: (c.index.map fun i => PathStep.index i).toList

/-- The steps address a child of the node. -/
inductive Addresses (n : Node) (c : Child) : List PathStep → Prop where
  /-- By its name. -/
  | named : Addresses n c c.address
  /-- By its name, with its place counted from the end of the list. -/
  | namedBack {i : Nat} :
      c.index = some i → Addresses n c [.field c.field, .index (i - (n.held c.field).length)]
  /-- By its place among all children. -/
  | offset {j : Nat} : n.children[j]? = some c → Addresses n c [.index j]
  /-- By its place among all children, counted from the end. -/
  | offsetBack {j : Nat} : n.children[j]? = some c → Addresses n c [.index (j - n.children.length)]

/-- The steps address the children on a path, one after the other. -/
inductive AddressesAll : Node → List Child → List PathStep → Prop where
  | nil {n : Node} : AddressesAll n [] []
  | cons {n : Node} {c : Child} {path : List Child} {steps rest : List PathStep} :
      Addresses n c steps → AddressesAll c.node path rest → AddressesAll n (c :: path) (steps ++ rest)

namespace Addresses

variable {n : Node} {c : Child} {steps : List PathStep}

/-- An address is a leg. -/
theorem exists_leg (h : Addresses n c steps) (hc : c ∈ n.children) :
    ∃ l : Leg, l.StartsAt n ∧ l.steps = steps ∧ l.child = c := by
  have hlists : ∀ {i}, c.index = some i → ∀ field ∈ some c.field, n.Lists field := by
    rintro i hi field hfield
    exact ⟨c, hc, by simpa using hfield, by simp [hi]⟩
  cases h with
  | named =>
    cases hi : c.index with
    | none =>
      have hleg := (PathStep.Chooses.single hc hi).startsAt (by simp)
      exact ⟨_, hleg, by simp [Leg.steps, Child.address, hi], rfl⟩
    | some i =>
      have hleg := (PathStep.Chooses.ahead (Node.held_getElem? hc hi)).startsAt (hlists hi)
      exact ⟨_, hleg, by simp [Leg.steps, Child.address, hi], rfl⟩
  | namedBack hi => exact ⟨_, (PathStep.Chooses.back (Node.held_getElem? hc hi)).startsAt (hlists hi), rfl, rfl⟩
  | offset hj => exact ⟨_, (@PathStep.Chooses.ahead n none _ _ hj).startsAt (by simp), rfl, rfl⟩
  | offsetBack hj => exact ⟨_, (@PathStep.Chooses.back n none _ _ hj).startsAt (by simp), rfl, rfl⟩

end Addresses

namespace AddressesAll

theorem exists_way {n : Node} {path : List Child} {steps : List PathStep} (h : AddressesAll n path steps)
    (hp : n.IsPath path) : ∃ legs, Way n legs ∧ legs.flatMap Leg.steps = steps ∧ legs.map (·.child) = path := by
  induction h with
  | nil => exact ⟨[], trivial, rfl, rfl⟩
  | cons hc _ ih =>
    obtain ⟨l, hl, rfl, rfl⟩ := hc.exists_leg hp.1
    obtain ⟨legs, hway, rfl, rfl⟩ := ih hp.2
    exact ⟨l :: legs, ⟨hl, hway⟩, rfl, rfl⟩

/-- The names of the children are one of their addresses. -/
theorem named (n : Node) (path : List Child) : AddressesAll n path (path.flatMap Child.address) := by
  induction path generalizing n with
  | nil => exact .nil
  | cons c path ih => exact .cons .named (ih c.node)

end AddressesAll

/-- The last node on a path from the node down. -/
def Node.lastOn (n : Node) (path : List Child) : Node := (path.map (·.node)).getLast?.getD n

/-- Every node of a tree is at the end of a path. -/
theorem Node.exists_path {n m : Node} (h : m ∈ n.preorder) : ∃ path, n.IsPath path ∧ n.lastOn path = m := by
  induction n using induct_children with
  | step n ih =>
    rw [preorder_eq, List.mem_cons, List.mem_flatMap] at h
    rcases h with rfl | ⟨c, hc, hm⟩
    · exact ⟨[], trivial, rfl⟩
    · obtain ⟨path, hpath, hlast⟩ := ih c hc hm
      exact ⟨c :: path, ⟨hc, hpath⟩, by simpa [lastOn, List.getLast?_cons] using hlast⟩

/-- **Every node is found by name.** Each node of a tree is at the end of a path of children. The names of these children
lead a cursor from the root along that path, and so does any other way of addressing them. -/
theorem down_addressed (root : Node) :
    (∀ m ∈ root.preorder, ∃ path, root.IsPath path ∧ root.lastOn path = m) ∧
      ∀ path, root.IsPath path →
        AddressesAll root path (path.flatMap Child.address) ∧
          ∀ steps, AddressesAll root path steps →
            ((Cursor.ofNode root).down steps).error = none ∧
              ((Cursor.ofNode root).down steps).path = root :: path.map (·.node) ∧
              ((Cursor.ofNode root).down steps).node = root.lastOn path := by
  refine ⟨fun m hm => Node.exists_path hm, fun path hpath => ⟨.named root path, fun steps hsteps => ?_⟩⟩
  obtain ⟨legs, hway, rfl, rfl⟩ := hsteps.exists_way hpath
  have hfollow := Cursor.follow_legs (c := Cursor.ofNode root) hway []
  rw [List.append_nil] at hfollow
  rw [Cursor.down, show ({ Cursor.ofNode root with error := none } : Cursor) = Cursor.ofNode root from rfl, hfollow]
  simp [Cursor.follow, Cursor.extend, Cursor.ofNode, Cursor.path, Cursor.node, Node.lastOn, Function.comp_def]

/-- The result of the last statement, where one child is addressed by name and one by its place. -/
theorem down_addressed_result :
    let result : Node := .expr default
    let last : Node := .stmt (.ret default (some default))
    let root : Node := .program ⟨default, [.empty default, .ret default (some default)], []⟩
    let c := (Cursor.ofNode root).down [.field "body", .index (-1), .index 0]
    c.error = none ∧ c.path = [root, last, result] ∧ c.node = result := by
  intro result last root c
  have hpath : root.IsPath [⟨"body", some 1, last⟩, ⟨"result", none, result⟩] :=
    ⟨.tail _ (.head _), .head _, trivial⟩
  have hlast : Addresses root ⟨"body", some 1, last⟩ [.field "body", .index (-1)] :=
    .namedBack (i := 1) rfl
  have hresult : Addresses last ⟨"result", none, result⟩ [.index 0] := .offset (j := 0) rfl
  exact ((down_addressed root).2 _ hpath).2 _ (.cons hlast (.cons hresult .nil))

/-! ## Paths in two parts -/

namespace Cursor

/-- The path can be followed up to its last step, and that is the name of a list field, from which nothing is chosen. -/
def EndsAtList (c : Cursor) (steps : List PathStep) : Prop :=
  ∃ front field, steps = front ++ [.field field] ∧ (c.down front).error = none ∧ (c.down front).node.Lists field

/-- A path without an error consists of legs. -/
theorem exists_legs {c : Cursor} {steps : List PathStep} (h : (c.down steps).error = none) :
    ∃ legs, Way c.node legs ∧ steps = legs.flatMap Leg.steps := by
  obtain ⟨legs, rest, hway, hsteps, -, ⟨rfl, -⟩ | ⟨-, herror⟩⟩ := c.down_cases steps
  · exact ⟨legs, hway, by simpa using hsteps⟩
  · exact absurd h herror

theorem down_legs {c : Cursor} {legs : List Leg} (h : Way c.node legs) (more : List PathStep) :
    c.down (legs.flatMap Leg.steps ++ more) = (c.extend (legs.map (·.child.node))).down more :=
  follow_legs (c := { c with error := none }) h more

/-- After a path without an error the cursor goes on as if it had stopped there. -/
theorem down_append_of_error_none {c : Cursor} {steps : List PathStep} (h : (c.down steps).error = none)
    (more : List PathStep) : c.down (steps ++ more) = (c.down steps).down more := by
  obtain ⟨legs, hway, rfl⟩ := exists_legs h
  have hstop : c.down (legs.flatMap Leg.steps) = { c.extend (legs.map (·.child.node)) with error := none } := by
    simpa [down, follow] using down_legs hway []
  rw [down_legs hway, hstop]
  rfl

/-- From a list field that has been named, the first element can be chosen. -/
theorem error_down_first {c : Cursor} {field : String} (h : c.node.Lists field) :
    (c.down [.field field, .index 0]).error = none := by
  have ⟨d, hd, hfield, _⟩ := h
  have hmem : d ∈ c.node.held field := Node.mem_held.2 ⟨hd, hfield⟩
  obtain ⟨e, rest, hheld⟩ := List.exists_cons_of_ne_nil (List.ne_nil_of_mem hmem)
  have hfirst : (c.node.choices (some field))[0]? = some e := by simp [Node.choices, hheld]
  have hleg : (Leg.mk (some field) (.index 0) e).StartsAt c.node :=
    (PathStep.Chooses.ahead hfirst).startsAt (by simpa using h)
  have hway : Way c.node [⟨some field, .index 0, e⟩] := ⟨hleg, trivial⟩
  have hdown := down_legs hway []
  simp only [List.flatMap_cons, List.flatMap_nil, List.append_nil, Leg.steps, Option.map_some, Option.toList_some,
    List.singleton_append] at hdown
  rw [hdown]
  rfl

/-- A path that fails, and not for want of a choice from the list field that it ends with, fails in the same way
whatever follows. -/
theorem down_append_of_error {c : Cursor} {steps : List PathStep} (h : (c.down steps).error ≠ none)
    (hlist : ¬ c.EndsAtList steps) (more : List PathStep) : c.down (steps ++ more) = c.down steps := by
  obtain ⟨legs, rest, e, hway, rfl, hfollow, hend⟩ := follow_cases { c with error := none } steps
  replace hway : Way c.node legs := hway
  have herror : e ≠ none := by
    rw [down, hfollow] at h
    exact h
  rcases hend with ⟨-, hnone⟩ | ⟨hstuck, -⟩
  · exact absurd hnone herror
  · have hfront : c.down (legs.flatMap Leg.steps) = (c.extend (legs.map (·.child.node))).down [] := by
      rw [← down_legs hway, List.append_nil]
    have hlast : ∀ field, rest = [.field field] → ¬ (c.extend (legs.map (·.child.node))).node.Lists field := by
      rintro field rfl hlists
      exact hlist ⟨_, field, rfl, hfront ▸ rfl, hfront ▸ hlists⟩
    obtain ⟨reason, hreason⟩ := follow_stuck_append hstuck hlast
    have hsame := (hreason more).trans (hreason []).symm
    rw [List.append_nil] at hsame
    rw [List.append_assoc, down_legs hway, down_legs hway]
    exact hsame

end Cursor

/-- **A path may be followed in two parts.** If a cursor gets to the end of the first part, it goes on from there with
the second part as if the two were one path. If it fails on the first part, it fails in the same way on any longer path,
except that where the first part ends with the name of a list field the longer path may choose from the list. -/
theorem down_append (c : Cursor) (p : List PathStep) :
    ((c.down p).error = none → ∀ q, c.down (p ++ q) = (c.down p).down q) ∧
      ((c.down p).error ≠ none → ((∀ q, c.down (p ++ q) = c.down p) ↔ ¬ c.EndsAtList p)) := by
  refine ⟨Cursor.down_append_of_error_none, fun herror => ⟨?_, Cursor.down_append_of_error herror⟩⟩
  rintro hsame ⟨front, field, rfl, hfront, hlists⟩
  -- an element of the list is a longer path without an error
  have hchosen := hsame [.index 0]
  rw [List.append_assoc, Cursor.down_append_of_error_none hfront] at hchosen
  exact herror (hchosen ▸ Cursor.error_down_first hlists)

/-- A path to the last statement can be continued; one that names a list field twice can not. -/
theorem down_append_statements :
    let c := Cursor.ofNode (.program ⟨default, [.empty default, .ret default (some default)], []⟩)
    let last : List PathStep := [.field "body", .index (-1)]
    let twice : List PathStep := [.field "body", .field "body"]
    ((c.down last).error = none ∧ ∀ q, c.down (last ++ q) = (c.down last).down q) ∧
      ((c.down twice).error ≠ none ∧ ¬ c.EndsAtList twice ∧ ∀ q, c.down (twice ++ q) = c.down twice) := by
  intro c last twice
  have hlast : (c.down last).error = none := by decide
  have htwice : (c.down twice).error ≠ none := by decide
  have hlist : ¬ c.EndsAtList twice := by
    rintro ⟨front, field, hsteps, herror, -⟩
    have hfront : [PathStep.field "body"] = front :=
      (List.append_inj' (show [PathStep.field "body"] ++ [.field "body"] = front ++ [.field field] from hsteps) rfl).1
    rw [← hfront] at herror
    exact absurd herror (by decide)
  exact ⟨⟨hlast, (down_append c last).1 hlast⟩, htwice, hlist, ((down_append c twice).2 htwice).2 hlist⟩

end SmallJava
