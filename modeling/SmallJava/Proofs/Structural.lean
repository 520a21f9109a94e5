import SmallJava.Proofs.Accounting.Program
import SmallJava.Proofs.Depth

/-!
# Problems of nodes

Two kinds of problems are problems of a node: a `try` statement that nothing handles, and an assignment to something
that cannot be assigned to. They are reported exactly where the tree has such a node, with one exception: a node that
was read and then discarded, because something behind it was not understood, has been reported too, and lies within the
bad node for the discarded text.

This is what the account of a source says (`readStatements_account`), once the marks of a tree are read as nodes of it.

* `Node.fault_mem_marks_iff`, `Node.bad_mem_marks_iff` — what it means to be marked;
* `State.Steps.exceeded_of_halted` — without a limit on errors only too deep nesting halts a parse;
* `parse_structural` — the whole statement.
-/

namespace SmallJava

/-! ## Marks -/

/-- What cannot be assigned to, by its kind. -/
theorem Expr.isAssignable_eq_false_iff (x : Expr) :
    x.isAssignable = false ↔ x.unwrapped.kind ∉ [.ident, .indexExpr, .selectorExpr, .badExpr] := by
  fun_induction unwrapped x with
  | case1 loc x ih => rw [isAssignable, ih]
  | case2 x hx => cases x <;> simp_all [isAssignable, kind]

namespace Node

/-- The node is a `try` statement that nothing handles, at the location. -/
def IsUnhandled (loc : Location) (n : Node) : Prop := ∃ body, n = .stmt (.tryCatch loc body [] none)

/-- The node is an assignment to something at the location that is, without its parentheses, no name, element, member
or bad expression. -/
def AssignsImproperly (loc : Location) (n : Node) : Prop :=
  ∃ whole op target value, n = .expr (.assign whole op target value) ∧ target.location = loc ∧
    target.unwrapped.kind ∉ [.ident, .indexExpr, .selectorExpr, .badExpr]

/-- The two faults that a node may have: no handler, and an improper target. -/
theorem fault_mem_ownMarks_iff {n : Node} {code : Code} {loc : Location} :
    .fault code loc ∈ n.ownMarks ↔
      code = .tryRequiresCatchOrFinally ∧ n.IsUnhandled loc ∨
        code = .invalidAssignmentTarget ∧ n.AssignsImproperly loc := by
  cases n with
  | stmt s =>
    cases s with
    | tryCatch at_ body catches cleanup =>
      cases catches <;> cases cleanup <;> simp [IsUnhandled, AssignsImproperly, eq_comm]
    | _ => simp [IsUnhandled, AssignsImproperly]
  | expr x =>
    cases x with
    | assign whole op target value =>
      have himproper := target.isAssignable_eq_false_iff
      cases hassignable : target.isAssignable with
      | true => simp_all [IsUnhandled, AssignsImproperly]
      | false =>
        constructor
        · intro hmark
          obtain ⟨rfl, rfl⟩ : code = .invalidAssignmentTarget ∧ loc = target.location := by
            simpa [hassignable] using hmark
          exact .inr ⟨rfl, whole, op, target, value, rfl, rfl, himproper.1 hassignable⟩
        · rintro (⟨-, body, h⟩ | ⟨rfl, _, _, _, _, h, rfl, -⟩)
          · cases h
          · cases h
            simp [hassignable]
    | _ => simp [IsUnhandled, AssignsImproperly]
  | _ => simp [IsUnhandled, AssignsImproperly]

/-- A bad node is marked over all its text. -/
theorem bad_mem_ownMarks_iff {n : Node} {loc : Location} :
    .bad loc ∈ n.ownMarks ↔ (n.kind = .badStmt ∨ n.kind = .badExpr) ∧ n.location = loc := by
  cases n with
  | stmt s =>
    cases s with
    | tryCatch at_ body catches cleanup =>
      cases catches <;> cases cleanup <;> simp [kind, Stmt.kind]
    | _ => simp [kind, Stmt.kind, location, Stmt.location, eq_comm]
  | expr x =>
    cases x with
    | assign whole op target value => cases hassignable : target.isAssignable <;> simp [kind, Expr.kind, hassignable]
    | _ => simp [kind, Expr.kind, location, Expr.location, eq_comm]
  | _ => simp [kind]

/-- The faults marked in a tree are those of its nodes. -/
theorem fault_mem_marks_iff {n : Node} {code : Code} {loc : Location} :
    .fault code loc ∈ n.marks ↔
      code = .tryRequiresCatchOrFinally ∧ (∃ m ∈ n.preorder, m.IsUnhandled loc) ∨
        code = .invalidAssignmentTarget ∧ ∃ m ∈ n.preorder, m.AssignsImproperly loc := by
  show (∃ m ∈ n.preorder, .fault code loc ∈ m.ownMarks) ↔ _
  simp only [fault_mem_ownMarks_iff]
  constructor
  · rintro ⟨m, hm, ⟨rfl, h⟩ | ⟨rfl, h⟩⟩
    · exact .inl ⟨rfl, m, hm, h⟩
    · exact .inr ⟨rfl, m, hm, h⟩
  · rintro (⟨rfl, m, hm, h⟩ | ⟨rfl, m, hm, h⟩)
    · exact ⟨m, hm, .inl ⟨rfl, h⟩⟩
    · exact ⟨m, hm, .inr ⟨rfl, h⟩⟩

/-- The texts marked as bad in a tree are those of its bad nodes. -/
theorem bad_mem_marks_iff {n : Node} {loc : Location} :
    .bad loc ∈ n.marks ↔ ∃ m ∈ n.preorder, (m.kind = .badStmt ∨ m.kind = .badExpr) ∧ m.location = loc := by
  show (∃ m ∈ n.preorder, .bad loc ∈ m.ownMarks) ↔ _
  simp only [bad_mem_ownMarks_iff]

theorem marks_program (p : Program) : (Node.program p).marks = marksOf (p.body.map .stmt) := by
  simp [marks_eq (.program p), children]

end Node

/-! ## Halted parses -/

/-- **Without a limit on errors only too deep nesting halts a parse.** -/
theorem State.Steps.exceeded_of_halted {setup : Setup} {s s' : State} (hnone : setup.maxErrors = none)
    (h : State.Steps setup s s') (hs : s.halted = false) (hhalted : s'.halted = true) :
    ∃ d ∈ s'.problems, d.code = .maxNestingDepthExceeded := by
  refine h.keeps (I := fun t => t.halted = true → ∃ d ∈ t.problems, d.code = .maxNestingDepthExceeded) ?_ ?_ hhalted
  · intro t t' hstep ht hhalted
    cases hstep with
    | next | skip | note => exact ht hhalted
    | report p loc =>
      -- a report halts nothing, and takes nothing back
      have hsame : (t.report setup p loc).halted = t.halted := by
        unfold State.report
        split
        · rfl
        · rw [hnone]
          rfl
      obtain ⟨d, hd, hcode⟩ := ht (hsame.symm.trans hhalted)
      exact ⟨d, (State.prefix_problems_report p loc).subset hd, hcode⟩
    | halt =>
      rw [State.stop_problems]
      cases hgoes : t.halted with
      | true =>
        obtain ⟨d, hd, hcode⟩ := ht hgoes
        exact ⟨d, (State.prefix_problems_report _ _).subset hd, hcode⟩
      | false =>
        obtain ⟨more, hproblems, -⟩ := State.problems_report hgoes _ _
        rw [hproblems]
        exact ⟨_, List.mem_append_right _ List.mem_cons_self, rfl⟩
  · intro hhalted
    rw [hs] at hhalted
    cases hhalted

/-- A parse that nothing halts: the marks of the tree match what the parser reports. -/
theorem readStatements_matches (o : Options) (s : Source) (hfree : o.maxErrors ≤ 0)
    (hnested : ∀ d ∈ (parse o s).diagnostics, d.code ≠ .maxNestingDepthExceeded) :
    Matches (Node.program (parse o s).program).marks (readStatements o s).2.problems := by
  have hgoes : (readStatements o s).2.halted = false := by
    by_contra hhalted
    have hnone : (o.setup s).maxErrors = none := if_pos hfree
    obtain ⟨d, hd, hcode⟩ := (readStatements_steps o s).1.exceeded_of_halted hnone rfl (by simpa using hhalted)
    exact hnested d (mem_diagnostics_iff.2 (.inr hd)) hcode
  obtain ⟨xs, ds, hsince, hmatch⟩ := (readStatements_account o s).since
  have hproblems : (readStatements o s).2.problems = ds := hsince.problems
  rw [Node.marks_program, hproblems]
  exact hmatch hgoes

/-- **Problems of nodes are those of the tree.** Take a parse without a limit on errors in which nothing is nested too
deeply. Every `try` statement of the tree that nothing handles is reported at its location, and every assignment to
something that is, without its parentheses, no name, element, member or bad expression is reported at the location of
that. The other way round, such a report is located at such a node of the tree or lies within a bad one. -/
theorem parse_structural (o : Options) (s : Source) (hfree : o.maxErrors ≤ 0)
    (hnested : ∀ d ∈ (parse o s).diagnostics, d.code ≠ .maxNestingDepthExceeded) :
    let nodes := (Node.program (parse o s).program).preorder
    let diagnostics := (parse o s).diagnostics
    let liesInBad := fun d : Diagnostic => ∃ n ∈ nodes, (n.kind = .badStmt ∨ n.kind = .badExpr) ∧
      n.location.span.start ≤ d.location.span.start ∧ d.location.span.stop ≤ n.location.span.stop
    (∀ n ∈ nodes, ∀ loc, n.IsUnhandled loc →
      ∃ d ∈ diagnostics, d.code = .tryRequiresCatchOrFinally ∧ d.location = loc) ∧
    (∀ n ∈ nodes, ∀ loc, n.AssignsImproperly loc →
      ∃ d ∈ diagnostics, d.code = .invalidAssignmentTarget ∧ d.location = loc) ∧
    (∀ d ∈ diagnostics, d.code = .tryRequiresCatchOrFinally →
      (∃ n ∈ nodes, n.IsUnhandled d.location) ∨ liesInBad d) ∧
    (∀ d ∈ diagnostics, d.code = .invalidAssignmentTarget →
      (∃ n ∈ nodes, n.AssignsImproperly d.location) ∨ liesInBad d) := by
  intro nodes diagnostics liesInBad
  have hmatch := readStatements_matches o s hfree hnested
  have htold : ∀ code loc, .fault code loc ∈ (Node.program (parse o s).program).marks →
      ∃ d ∈ diagnostics, d.code = code ∧ d.location = loc := by
    intro code loc hmark
    obtain ⟨d, hd, hreported⟩ := hmatch.told code loc hmark
    exact ⟨d, mem_diagnostics_iff.2 (.inr hd), hreported⟩
  have hmeant : ∀ d ∈ diagnostics, d.code.isStructural = true →
      .fault d.code d.location ∈ (Node.program (parse o s).program).marks ∨ liesInBad d := by
    intro d hd hstructural
    rcases mem_diagnostics_iff.1 hd with hd | hd
    · -- the scanner knows nothing of nodes
      have hlexical := Source.isLexical_of_mem_faults hd
      cases hcode : d.code <;> simp_all [Code.isLexical, Code.isStructural]
    · refine (hmatch.meant d hd hstructural).imp_right ?_
      rintro ⟨loc, hmark, hwithin⟩
      obtain ⟨n, hn, hbad, rfl⟩ := Node.bad_mem_marks_iff.1 hmark
      exact ⟨n, hn, hbad, hwithin⟩
  refine ⟨fun n hn loc h => ?_, fun n hn loc h => ?_, fun d hd hcode => ?_, fun d hd hcode => ?_⟩
  · exact htold _ loc (Node.fault_mem_marks_iff.2 (.inl ⟨rfl, n, hn, h⟩))
  · exact htold _ loc (Node.fault_mem_marks_iff.2 (.inr ⟨rfl, n, hn, h⟩))
  · have hmarked := hmeant d hd (by rw [hcode]; rfl)
    rw [Node.fault_mem_marks_iff] at hmarked
    simpa [hcode] using hmarked
  · have hmarked := hmeant d hd (by rw [hcode]; rfl)
    rw [Node.fault_mem_marks_iff] at hmarked
    simpa [hcode] using hmarked

/-- Nothing handles a block, and a call in parentheses is assigned to. So is another call, but there is nothing to
assign, and the statement is discarded. -/
def faultySource : Source :=
  { name := "", text := utf8 "try \x7b\x7d\n(f()) = 1;\ng() = ;", wellFormed := by decide +kernel }

theorem parse_structural_faulty :
    let parsed := parse {} faultySource
    let nodes := (Node.program parsed.program).preorder
    ({} : Options).maxErrors ≤ 0 ∧ (∀ d ∈ parsed.diagnostics, d.code ≠ .maxNestingDepthExceeded) ∧
    parsed.diagnostics.map (·.code)
      = [.tryRequiresCatchOrFinally, .invalidAssignmentTarget, .invalidAssignmentTarget, .unexpectedToken] ∧
    (∀ d ∈ parsed.diagnostics, d.code = .invalidAssignmentTarget →
      (∃ n ∈ nodes, n.AssignsImproperly d.location) ∨
        ∃ n ∈ nodes, (n.kind = .badStmt ∨ n.kind = .badExpr) ∧
          n.location.span.start ≤ d.location.span.start ∧ d.location.span.stop ≤ n.location.span.stop) := by
  intro parsed nodes
  have hfree : ({} : Options).maxErrors ≤ 0 := by decide
  have hnested : ∀ d ∈ parsed.diagnostics, d.code ≠ .maxNestingDepthExceeded := by decide +kernel
  obtain ⟨-, -, -, hassigned⟩ := parse_structural {} faultySource hfree hnested
  exact ⟨hfree, hnested, by decide +kernel, hassigned⟩

end SmallJava
