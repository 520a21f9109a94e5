import SmallJava.Tree.Size

/-!
# Fields

The children of a node come field by field. A name is that of one field only, which holds one node or a list
(`Child.Fielded`), so that a field is found by its name and an element of a list by its place (`Node.held_of_single`,
`Node.held_getElem?`).
-/

namespace SmallJava

open Child (one opt many manyFrom)

namespace Child

/-- No name is used for two fields, and a field holds one node or a list. -/
inductive Fielded : List Child → Prop where
  | nil : Fielded []
  | one {field : String} {node : Node} {cs : List Child} :
      field ∉ cs.map (·.field) → Fielded cs → Fielded (Child.one field node :: cs)
  | many {field : String} {nodes : List Node} {cs : List Child} :
      field ∉ cs.map (·.field) → Fielded cs → Fielded (Child.many field nodes ++ cs)

theorem map_field_manyFrom (field : String) (start : Nat) (nodes : List Node) :
    (manyFrom field start nodes).map (·.field) = List.replicate nodes.length field := by
  induction nodes generalizing start with
  | nil => rfl
  | cons n ns ih => simp [manyFrom, ih, List.replicate_succ]

@[simp] theorem map_field_many (field : String) (nodes : List Node) :
    (many field nodes).map (·.field) = List.replicate nodes.length field := map_field_manyFrom ..

@[simp] theorem map_field_opt (field : String) (node : Option Node) :
    (opt field node).map (·.field) = node.toList.map fun _ => field := by
  cases node <;> rfl

@[simp] theorem field_one (field : String) (node : Node) : (one field node).field = field := rfl

/-- The children of a list have their indices in order. -/
theorem getElem?_manyFrom (field : String) (start i : Nat) (nodes : List Node) :
    (manyFrom field start nodes)[i]? =
      nodes[i]?.map fun n => { field := field, index := some (start + i), node := n } := by
  induction nodes generalizing start i with
  | nil => rfl
  | cons n ns ih =>
    cases i with
    | zero => rfl
    | succ i =>
      have hnext : start + 1 + i = start + (i + 1) := by omega
      simp [manyFrom, ih, hnext]

/-- A list is counted from zero. -/
theorem getElem?_many_of_index {field : String} {nodes : List Node} {c : Child} {i : Nat} (h : c ∈ many field nodes)
    (hi : c.index = some i) : (many field nodes)[i]? = some c := by
  obtain ⟨k, hk⟩ := List.mem_iff_getElem?.1 h
  have hat := hk
  rw [many, getElem?_manyFrom] at hk
  obtain ⟨n, -, rfl⟩ := Option.map_eq_some_iff.1 hk
  obtain rfl : k = i := by simpa using hi
  exact hat

theorem isSome_index_of_mem_many {field : String} {nodes : List Node} {c : Child} (h : c ∈ many field nodes) :
    c.index.isSome = true := by
  obtain ⟨k, hk⟩ := List.mem_iff_getElem?.1 h
  rw [many, getElem?_manyFrom] at hk
  obtain ⟨n, -, rfl⟩ := Option.map_eq_some_iff.1 hk
  rfl

namespace Fielded

variable {cs : List Child} {field : String}

theorem opt {node : Option Node} (hf : field ∉ cs.map (·.field)) (h : Fielded cs) :
    Fielded (Child.opt field node ++ cs) := by
  cases node with
  | none => exact h
  | some n => exact .one hf h

/-- The items of a list are told apart by their indices. -/
theorem list {nodes : List Node} : Fielded (Child.many field nodes) := by
  simpa using Fielded.many (by simp) .nil

theorem atMostOne {node : Option Node} : Fielded (Child.opt field node) := by
  simpa using Fielded.opt (by simp) .nil

/-- A field that is not there has no children. -/
theorem filter_eq_nil (h : field ∉ cs.map (·.field)) : cs.filter (·.field = field) = [] := by
  refine List.filter_eq_nil_iff.2 fun c hc hfield => h ?_
  exact List.mem_map.2 ⟨c, hc, by simpa using hfield⟩

/-- **Fields do not clash.** Under a name there is one node, or a list and nothing else. -/
theorem filter_cases (h : Fielded cs) (field : String) :
    (∃ n, cs.filter (·.field = field) = [Child.one field n]) ∨
      ∃ ns, cs.filter (·.field = field) = Child.many field ns := by
  induction h with
  | nil => exact .inr ⟨[], rfl⟩
  | @one name n cs hname _ ih =>
    by_cases heq : name = field
    · subst heq
      exact .inl ⟨n, by simp [filter_eq_nil hname]⟩
    · simpa [heq] using ih
  | @many name ns cs hname _ ih =>
    have hfields : ∀ c ∈ Child.many name ns, c.field = name := by
      intro c hc
      have hmem := List.mem_map_of_mem (f := Child.field) hc
      rw [map_field_many] at hmem
      exact List.eq_of_mem_replicate hmem
    rw [List.filter_append]
    by_cases heq : name = field
    · subst heq
      have hall : (Child.many name ns).filter (·.field = name) = Child.many name ns :=
        List.filter_eq_self.2 fun c hc => by simpa using hfields c hc
      exact .inr ⟨ns, by simp [hall, filter_eq_nil hname]⟩
    · have hnone : (Child.many name ns).filter (·.field = field) = [] :=
        List.filter_eq_nil_iff.2 fun c hc => by simpa [hfields c hc] using heq
      simpa [hnone] using ih

end Fielded

end Child

namespace Expr

theorem fielded_children (x : Expr) : Child.Fielded x.children := by
  cases x with
  | literal | ident | bad => exact .nil
  | array a =>
    obtain ⟨loc, elems⟩ := a
    exact .list
  | call => exact .one (by simp) .list
  | new =>
    simp only [children, List.cons_append, List.append_assoc]
    exact .one (by simp) (.many (by simp) (.opt (by simp) .atMostOne))
  | paren | unary => exact .one (by simp) .nil
  | index | select | binary | assign => exact .one (by simp) (.one (by simp) .nil)

end Expr

namespace Stmt

theorem fielded_children (s : Stmt) : Child.Fielded s.children := by
  cases s with
  | empty | bad => exact .nil
  | block b =>
    obtain ⟨loc, stmts⟩ := b
    exact .list
  | varDecl => exact .one (by simp) (.one (by simp) .atMostOne)
  | expr => exact .one (by simp) .nil
  | ret => exact .atMostOne
  | whileLoop | doWhile => exact .one (by simp) (.one (by simp) .nil)
  | ifElse =>
    simp only [children, List.cons_append, List.nil_append]
    exact .one (by simp) (.one (by simp) (.many (by simp) .atMostOne))
  | forLoop =>
    simp only [children, List.append_assoc]
    exact .opt (by simp) (.opt (by simp) (.opt (by simp) (.one (by simp) .nil)))
  | tryCatch =>
    simp only [children, List.cons_append]
    exact .one (by simp) (.many (by simp) .atMostOne)
  | classDecl => exact .one (by simp) .list
  | methodDecl =>
    simp only [children, List.cons_append, List.nil_append]
    exact .one (by simp) (.one (by simp) (.many (by simp) (.one (by simp) .nil)))

end Stmt

namespace Node

theorem fielded_children (n : Node) : Child.Fielded n.children := by
  cases n with
  | program => exact .list
  | stmt s => exact s.fielded_children
  | expr x => exact x.fielded_children
  | elseIf arm =>
    obtain ⟨loc, cond, body⟩ := arm
    exact .one (by simp) (.one (by simp) .nil)
  | catchClause c =>
    obtain ⟨loc, type, name, body⟩ := c
    exact .one (by simp) (.one (by simp) (.one (by simp) .nil))
  | param => exact .one (by simp) (.one (by simp) .nil)
  | typeName | comment => exact .nil

/-- The children that a field holds. -/
def held (n : Node) (field : String) : List Child := n.children.filter (·.field = field)

/-- The field is a list with something in it. -/
def Lists (n : Node) (field : String) : Prop := ∃ c ∈ n.children, c.field = field ∧ c.index.isSome = true

variable {n : Node} {c : Child}

theorem mem_held {field : String} : c ∈ n.held field ↔ c ∈ n.children ∧ c.field = field := by
  simp [held]

/-- A child in a field of its own. -/
theorem held_of_single (hc : c ∈ n.children) (hi : c.index = none) : n.held c.field = [c] := by
  have hmem : c ∈ n.held c.field := mem_held.2 ⟨hc, rfl⟩
  rcases n.fielded_children.filter_cases c.field with ⟨m, hm⟩ | ⟨ms, hms⟩
  · rw [held, hm] at hmem ⊢
    exact congrArg ([·]) (List.mem_singleton.1 hmem).symm
  · rw [held, hms] at hmem
    simpa [hi] using Child.isSome_index_of_mem_many hmem

/-- A child in a list stands there at its place. -/
theorem held_getElem? {i : Nat} (hc : c ∈ n.children) (hi : c.index = some i) : (n.held c.field)[i]? = some c := by
  have hmem : c ∈ n.held c.field := mem_held.2 ⟨hc, rfl⟩
  rcases n.fielded_children.filter_cases c.field with ⟨m, hm⟩ | ⟨ms, hms⟩
  · rw [held, hm, List.mem_singleton] at hmem
    rw [hmem] at hi
    cases hi
  · rw [held, hms] at hmem ⊢
    exact Child.getElem?_many_of_index hmem hi

/-- A field is not both a list and not. -/
theorem not_lists (hc : c ∈ n.children) (hi : c.index = none) : ¬ n.Lists c.field := by
  rintro ⟨d, hd, hfield, hindex⟩
  have hmem : d ∈ n.held c.field := mem_held.2 ⟨hd, hfield⟩
  rw [held_of_single hc hi, List.mem_singleton] at hmem
  simp [hmem, hi] at hindex

end Node

end SmallJava
