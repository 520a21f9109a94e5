import SmallJava.Proofs.Accounting.Expr
import SmallJava.Proofs.Reading.Stmt

/-!
# Accounting for problems with statements

Every parser of statements accounts for the marks of what it gives, up to the whole text (`counts_topStmts`). A block
that nothing handles is reported from its first token to its last one. So all problems go from token to token
(`spans_topStmts`).
-/

namespace SmallJava.Row

open SmallJava.Parser

variable {R : Row} {s₀ s : State} {K : Set Mark} {d : Nat}

/-! ## Lists and braces -/

/-- A statement that is given up is marked as bad, over all that it discarded. -/
theorem tells_stmtStep {place : Grammar.Place} {stmt : Parser Stmt} (hp : R.CountsStmt stmt)
    (hreads : ReadsItem R.setup R.all place stmt d) (ss : List Stmt)
    (h : R.Account (K ∪ Node.marksOf (ss.map .stmt)) s₀ s) :
    R.Tells s₀ (stmtStep stmt ss) s fun r => K ∪ Node.marksOf (r.value.map .stmt) := by
  unfold stmtStep
  rw [tells_token_bind]
  split
  · exact .pure h rfl
  · refine (counts_recoverStmt hp hreads _ _ _ h).bind fun x s₁ h₁ => .pure h₁ ?_
    simp [Set.union_assoc]

/-- Statements account for each of them. -/
theorem counts_statements {place : Grammar.Place} {stmt : Parser Stmt} (hp : R.CountsStmt stmt)
    (hreads : ReadsItem R.setup R.all place stmt d) : R.Counts (statements stmt) fun ss => ss.map .stmt := by
  intro K s₀ s h
  exact tells_loop h.none fun ss _ => tells_stmtStep hp hreads ss

/-- A missing brace is no problem of a node. -/
theorem tells_closeBrace (opened : Lexeme) (h : R.Account K s₀ s) : R.Tells s₀ (closeBrace opened) s fun _ => K := by
  unfold closeBrace
  rw [tells_current_bind]
  split
  · exact tells_report_bind (h.report_current rfl rfl) fun s₁ h₁ => .of_ok rfl h₁
  · exact (tells_want h (by decide)).bind fun closed s₁ h₁ => .pure h₁ rfl

/-- The parsers of a level account for what they give. -/
structure LevelCounts (R : Row) (l : Level) (d : Nat) : Prop where
  expr : R.CountsExpr l.expr
  inside : ∀ p, l.inside = some p → R.CountsStmt p
  reads : LevelReads R.setup R.all l d

section Statements

variable {l : Level}

/-- A block accounts for its statements. -/
theorem counts_block (hl : R.LevelCounts l d) : R.Counts (block l) fun b => [b.node] := by
  intro K s₀ s h
  refine tells_nested h fun p hsome => (tells_want h (by decide)).bind fun opened s₁ h₁ => ?_
  obtain ⟨d', -, hreads⟩ := hl.reads.inside p hsome
  refine (counts_statements (hl.inside p hsome) hreads _ _ _ h₁).bind fun ss s₂ h₂ => ?_
  refine (tells_closeBrace opened h₂).bind fun loc s₃ h₃ => .pure h₃ ?_
  simp [Block.node, Node.marks_eq (.stmt (.block (.mk ..))), Node.children, Stmt.children]

/-- A condition that is given up is marked as bad, over all that it discarded. -/
theorem counts_condition (hl : R.LevelCounts l d) : R.CountsExpr (condition l) := by
  intro K s₀ s h
  refine (tells_want h (by decide)).bind fun _ s₁ h₁ => ?_
  refine (counts_recoverExpr hl.expr hl.reads.expr _ _ _ h₁).bind fun x s₂ h₂ => ?_
  exact (tells_want h₂ (by decide)).bind fun _ s₃ h₃ => .pure h₃ rfl

theorem counts_optionalExpr (hl : R.LevelCounts l d) (ending : Token) :
    R.Counts (optionalExpr l ending) fun o => (o.map .expr).toList := by
  intro K s₀ s h
  unfold optionalExpr
  rw [tells_token_bind]
  split
  · exact .pure h.none rfl
  · exact (hl.expr _ _ _ h).bind fun x s₁ h₁ => .pure h₁ rfl

theorem counts_varDecl (hl : R.LevelCounts l d) (start : Location) (mods : List Token) :
    R.Counts (varDecl l start mods) fun v => (v.init.map .expr).toList := by
  intro K s₀ s h
  refine (tells_typeName h).bind fun type s₁ h₁ => (tells_ident h₁).bind fun name s₂ h₂ => ?_
  refine (counts_optionalAfter hl.expr (by decide) _ _ _ h₂).bind fun init s₃ h₃ => ?_
  rw [tells_spanFrom_bind]
  refine .pure h₃ ?_
  cases init <;> simp

/-- The marks of a declaration are those of its initial value. -/
theorem marks_varDecl (v : VarDecl) :
    Node.marksOf [.stmt (.varDecl v)] = Node.marksOf (v.init.map .expr).toList := by
  simp [Node.marks_eq (.stmt (.varDecl _)), Node.children, Stmt.children, Ident.node]

/-- The first part of a `for` accounts for its value or its expression. -/
theorem counts_forInit (hl : R.LevelCounts l d) : R.Counts (forInit l) fun o => (o.map .stmt).toList := by
  intro K s₀ s h
  show R.Tells s₀ (if startsVarDecl s.rest then _ else _) s _
  split
  · rw [tells_current_bind]
    refine (counts_varDecl hl _ _ _ _ _ h).bind fun v s₁ h₁ => .pure h₁ ?_
    exact congrArg (K ∪ ·) (marks_varDecl v)
  · refine (counts_optionalExpr hl _ _ _ _ h).bind fun x s₁ h₁ => ?_
    cases x with
    | none => exact .pure h₁ rfl
    | some x =>
      refine .pure h₁ ?_
      simp [Node.marks_eq (.stmt (.expr ..)), Node.children, Stmt.children]

/-- The nodes of the arms of a conditional. -/
def armNodes (r : List ElseIf × Option Block) : List Node := r.1.map .elseIf ++ (r.2.map (·.node)).toList

/-- Each arm adds its marks, and so does the last block. -/
theorem tells_armStep (hl : R.LevelCounts l d) (r : List ElseIf × Option Block)
    (h : R.Account (K ∪ Node.marksOf (r.1.map .elseIf)) s₀ s) :
    R.Tells s₀ (armStep l r) s
      (stepMarks (fun r => K ∪ Node.marksOf (r.1.map .elseIf)) fun r => K ∪ Node.marksOf (armNodes r)) := by
  unfold armStep
  rw [tells_token_bind]
  split
  · next helse =>
    refine tells_next_bind h (by rw [helse]; decide) fun s₁ h₁ => (tells_got h₁ (by decide)).bind fun more s₂ h₂ => ?_
    split
    · refine (counts_condition hl _ _ _ h₂).bind fun cond s₃ h₃ => ?_
      refine (counts_block hl _ _ _ h₃).bind fun body s₄ h₄ => .pure h₄ ?_
      simp [stepMarks, Node.marks_eq (.elseIf (.mk ..)), Node.children, Set.union_assoc]
    · refine (counts_block hl _ _ _ h₂).bind fun body s₃ h₃ => .pure h₃ ?_
      simp [stepMarks, armNodes, Set.union_assoc]
  · exact .pure h (by simp [stepMarks, armNodes])

theorem counts_arms (hl : R.LevelCounts l d) : R.Counts (arms l) armNodes := by
  intro K s₀ s h
  exact tells_loop_until (I := fun r => K ∪ Node.marksOf (r.1.map .elseIf)) h.none fun r _ => tells_armStep hl r

/-- A conditional accounts for its condition, its block and its arms. -/
theorem counts_ifStmt (hl : R.LevelCounts l d) : R.CountsStmt (ifStmt l) := by
  intro K s₀ s h
  refine (tells_want h (by decide)).bind fun kw s₁ h₁ => (counts_condition hl _ _ _ h₁).bind fun cond s₂ h₂ => ?_
  refine (counts_block hl _ _ _ h₂).bind fun body s₃ h₃ => (counts_arms hl _ _ _ h₃).bind fun r s₄ h₄ => ?_
  obtain ⟨elseIfs, otherwise⟩ := r
  rw [tells_spanFrom_bind]
  refine .pure h₄ ?_
  simp [armNodes, Node.marks_eq (.stmt (.ifElse ..)), Node.children, Stmt.children, Set.union_assoc]

theorem counts_whileStmt (hl : R.LevelCounts l d) : R.CountsStmt (whileStmt l) := by
  intro K s₀ s h
  refine (tells_want h (by decide)).bind fun kw s₁ h₁ => (counts_condition hl _ _ _ h₁).bind fun cond s₂ h₂ => ?_
  refine (counts_block hl _ _ _ h₂).bind fun body s₃ h₃ => ?_
  rw [tells_spanFrom_bind]
  refine .pure h₃ ?_
  simp [Node.marks_eq (.stmt (.whileLoop ..)), Node.children, Stmt.children, Set.union_assoc]

theorem counts_doWhileStmt (hl : R.LevelCounts l d) : R.CountsStmt (doWhileStmt l) := by
  intro K s₀ s h
  refine (tells_want h (by decide)).bind fun kw s₁ h₁ => (counts_block hl _ _ _ h₁).bind fun body s₂ h₂ => ?_
  refine (tells_want h₂ (by decide)).bind fun _ s₃ h₃ => (counts_condition hl _ _ _ h₃).bind fun cond s₄ h₄ => ?_
  refine (tells_want h₄ (by decide)).bind fun _ s₅ h₅ => ?_
  rw [tells_spanFrom_bind]
  refine .pure h₅ ?_
  simp [Node.marks_eq (.stmt (.doWhile ..)), Node.children, Stmt.children, Set.union_assoc]

/-- A `for` accounts for its three parts and its block. -/
theorem counts_forStmt (hl : R.LevelCounts l d) : R.CountsStmt (forStmt l) := by
  intro K s₀ s h
  refine (tells_want h (by decide)).bind fun kw s₁ h₁ => (tells_want h₁ (by decide)).bind fun _ s₂ h₂ => ?_
  refine (counts_forInit hl _ _ _ h₂).bind fun init s₃ h₃ => (tells_want h₃ (by decide)).bind fun _ s₄ h₄ => ?_
  refine (counts_optionalExpr hl _ _ _ _ h₄).bind fun cond s₅ h₅ => (tells_want h₅ (by decide)).bind fun _ s₆ h₆ => ?_
  refine (counts_optionalExpr hl _ _ _ _ h₆).bind fun update s₇ h₇ => (tells_want h₇ (by decide)).bind fun _ s₈ h₈ => ?_
  refine (counts_block hl _ _ _ h₈).bind fun body s₉ h₉ => ?_
  rw [tells_spanFrom_bind]
  refine .pure h₉ ?_
  simp [Node.marks_eq (.stmt (.forLoop ..)), Node.children, Stmt.children, Set.union_assoc]

theorem counts_returnStmt (hl : R.LevelCounts l d) : R.CountsStmt (returnStmt l) := by
  intro K s₀ s h
  refine (tells_want h (by decide)).bind fun kw s₁ h₁ => (counts_optionalExpr hl _ _ _ _ h₁).bind fun result s₂ h₂ => ?_
  refine (tells_want h₂ (by decide)).bind fun _ s₃ h₃ => ?_
  rw [tells_spanFrom_bind]
  refine .pure h₃ ?_
  simp [Node.marks_eq (.stmt (.ret ..)), Node.children, Stmt.children]

/-- Each clause adds its marks. -/
theorem tells_catchStep (hl : R.LevelCounts l d) (clauses : List CatchClause)
    (h : R.Account (K ∪ Node.marksOf (clauses.map .catchClause)) s₀ s) :
    R.Tells s₀ (catchStep l clauses) s fun r => K ∪ Node.marksOf (r.value.map .catchClause) := by
  unfold catchStep
  rw [tells_token_bind]
  split
  · next hcatch =>
    refine tells_next_bind h (by rw [hcatch]; decide) fun s₁ h₁ => (tells_want h₁ (by decide)).bind fun _ s₂ h₂ => ?_
    refine (tells_typeName h₂).bind fun type s₃ h₃ => (tells_ident h₃).bind fun name s₄ h₄ => ?_
    refine (tells_want h₄ (by decide)).bind fun _ s₅ h₅ => (counts_block hl _ _ _ h₅).bind fun body s₆ h₆ => ?_
    refine .pure h₆ ?_
    simp [Node.marks_eq (.catchClause (.mk ..)), Node.children, Ident.node, Set.union_assoc]
  · exact .pure h rfl

theorem counts_catchClauses (hl : R.LevelCounts l d) : R.Counts (catchClauses l) fun cs => cs.map .catchClause := by
  intro K s₀ s h
  exact tells_loop h.none fun cs _ => tells_catchStep hl cs

/-- **A block that nothing handles is reported** from its first token to its last one, and marked there. -/
theorem counts_tryStmt (hl : R.LevelCounts l d) : R.CountsStmt (tryStmt l) := by
  intro K s₀ s h
  refine (tells_want h (by decide)).bind_run fun kw s₁ hr₁ h₁ => ?_
  refine (counts_block hl _ _ _ h₁).bind_run fun body s₂ hr₂ h₂ => ?_
  refine (counts_catchClauses hl _ _ _ h₂).bind_run fun catches s₃ hr₃ h₃ => ?_
  refine (counts_optionalAfter (counts_block hl) (by decide) _ _ _ h₃).bind_run fun cleanup s₄ hr₄ h₄ => ?_
  rw [tells_spanFrom_bind]
  split
  · next hunhandled =>
    obtain ⟨ks, ht₁, hks⟩ := (reads_want R.suits h.place (by decide)).ok hr₁
    obtain ⟨rfl, -⟩ := hks .lenient Grammar.Mode.admits_lenient
    obtain ⟨bs, ht₂, -⟩ := (reads_block R.suits hl.reads h₁.place).ok hr₂
    obtain ⟨zs, ht₃, -⟩ := (reads_catchClauses R.suits hl.reads h₂.place (kw :: bs) body).ok hr₃
    obtain ⟨fs, ht₄, -⟩ :=
      (reads_optionalAfter R.suits h₃.place (by decide) fun s hs => reads_block R.suits hl.reads hs).ok hr₄
    have htakes := ht₁.trans (ht₂.trans (ht₃.trans ht₄))
    -- the location is that of all that was taken
    obtain ⟨vs, _, hsince, -⟩ := h.since
    have htaken : s₀.rest = vs ++ ([kw] ++ (bs ++ (zs ++ fs))) ++ s₄.rest := by
      rw [hsince.rest, htakes.rest]
      simp
    have hrun : RunOf (vs ++ ([kw] ++ (bs ++ (zs ++ fs)))) (s₄.spanFrom kw.location) :=
      ⟨_, (List.suffix_append _ _).isInfix, List.cons_ne_nil _ _, spanFrom_eq_extent R.suits h.place htakes⟩
    refine tells_report_bind (h₄.report_fault rfl rfl htaken hrun) fun s₅ h₅ => .pure h₅ ?_
    have htry : (Node.stmt (.tryCatch (s₄.spanFrom kw.location) body catches cleanup)).ownMarks
        = {.fault .tryRequiresCatchOrFinally (s₄.spanFrom kw.location)} := if_pos hunhandled
    rw [Node.marksOf_cons, Node.marks_eq, htry]
    cases cleanup <;> simp [Node.children, Stmt.children, Problem.code, Set.union_assoc]
  · next hhandled =>
    refine .pure h₄ ?_
    have htry : (Node.stmt (.tryCatch (s₄.spanFrom kw.location) body catches cleanup)).ownMarks = ∅ := if_neg hhandled
    rw [Node.marksOf_cons, Node.marks_eq, htry]
    cases cleanup <;> simp [Node.children, Stmt.children, Set.union_assoc]

/-- A declaration or an expression accounts for what is in it. -/
theorem counts_simpleStmt (hl : R.LevelCounts l d) : R.CountsStmt (simpleStmt l) := by
  intro K s₀ s h
  show R.Tells s₀ (if startsVarDecl s.rest then _ else _) s _
  split
  · rw [tells_current_bind]
    refine (counts_varDecl hl _ _ _ _ _ h).bind fun v s₁ h₁ => (tells_want h₁ (by decide)).bind fun semi s₂ h₂ => ?_
    exact .pure h₂ (congrArg (K ∪ ·) (marks_varDecl _))
  · refine (hl.expr _ _ _ h).bind fun x s₁ h₁ => (tells_want h₁ (by decide)).bind fun semi s₂ h₂ => .pure h₂ ?_
    simp [Node.marks_eq (.stmt (.expr ..)), Node.children, Stmt.children]

/-- **Statements account for their marks**, whatever they start with. -/
theorem counts_stmtAt (hl : R.LevelCounts l d) : R.CountsStmt (stmtAt l) := by
  intro K s₀ s h
  unfold stmtAt
  rw [tells_token_bind]
  split
  · exact (counts_block hl _ _ _ h).bind fun b s₁ h₁ => .pure h₁ rfl
  · next hsemi =>
    refine tells_next_bind h (by rw [hsemi]; decide) fun s₁ h₁ => .pure h₁ ?_
    simp [Node.marks_eq (.stmt (.empty _)), Node.children, Stmt.children]
  · exact counts_ifStmt hl _ _ _ h
  · exact counts_whileStmt hl _ _ _ h
  · exact counts_doWhileStmt hl _ _ _ h
  · exact counts_forStmt hl _ _ _ h
  · exact counts_tryStmt hl _ _ _ h
  · exact counts_returnStmt hl _ _ _ h
  · exact counts_simpleStmt hl _ _ _ h

/-- The parsers of every level account for what they give. -/
theorem levelCounts (R : Row) (d : Nat) : R.LevelCounts (level d) d := by
  induction d with
  | zero => exact ⟨(R.counts_levels 0).1, fun p h => (nomatch h), levelReads R.suits 0⟩
  | succ d ih =>
    refine ⟨(R.counts_levels (d + 1)).1, ?_, levelReads R.suits (d + 1)⟩
    rintro p ⟨⟩
    rw [stmt_eq_stmtAt]
    exact counts_stmtAt ih

/-! ## Declarations -/

theorem tells_modifiers (h : R.Account K s₀ s) : R.Tells s₀ modifiers s fun _ => K :=
  .of_ok rfl (h.takes (.skip s _) rfl rfl)

theorem counts_param : R.Counts param fun p => [.param p] := by
  intro K s₀ s h
  unfold param
  rw [tells_current_bind]
  refine (tells_typeName h).bind fun type s₁ h₁ => (tells_ident h₁).bind fun name s₂ h₂ => ?_
  rw [tells_spanFrom_bind]
  exact .pure h₂ (by simp)

/-- A method accounts for its parameters and its block. -/
theorem counts_methodDecl (hl : R.LevelCounts l d) (start : Location) (mods : List Token) :
    R.CountsStmt (methodDecl l start mods) := by
  intro K s₀ s h
  refine (tells_typeName h).bind fun result s₁ h₁ => (tells_ident h₁).bind fun name s₂ h₂ => ?_
  refine (tells_want h₂ (by decide)).bind fun _ s₃ h₃ => ?_
  refine (counts_separatedUntil counts_param _ _ _ _ h₃).bind fun params s₄ h₄ => ?_
  refine (tells_want h₄ (by decide)).bind fun _ s₅ h₅ => (counts_block hl _ _ _ h₅).bind fun body s₆ h₆ => ?_
  rw [tells_spanFrom_bind]
  refine .pure h₆ ?_
  simp [Node.marks_eq (.stmt (.methodDecl ..)), Node.children, Stmt.children, Ident.node, ← List.map_eq_flatMap]

theorem counts_member (hl : R.LevelCounts l d) : R.CountsStmt (member l) := by
  intro K s₀ s h
  unfold member
  rw [tells_current_bind]
  refine (tells_modifiers h).bind fun mods s₁ h₁ => ?_
  show R.Tells s₀ (if startsMethodDecl s₁.rest then _ else _) s₁ _
  split
  · exact counts_methodDecl hl _ _ _ _ _ h₁
  · refine (counts_varDecl hl _ _ _ _ _ h₁).bind fun v s₂ h₂ => (tells_want h₂ (by decide)).bind fun _ s₃ h₃ => ?_
    rw [tells_spanFrom_bind]
    exact .pure h₃ (congrArg (K ∪ ·) (marks_varDecl _))

/-- A class accounts for its members. -/
theorem counts_classDecl {inside : Option Level} (hl : ∀ l, inside = some l → ∃ d, R.LevelCounts l d)
    (start : Location) (mods : List Token) : R.CountsStmt (classDecl inside start mods) := by
  intro K s₀ s h
  refine (tells_want h (by decide)).bind fun _ s₁ h₁ => (tells_ident h₁).bind fun name s₂ h₂ => ?_
  refine tells_nested h₂ fun l hsome => (tells_want h₂ (by decide)).bind fun opened s₃ h₃ => ?_
  obtain ⟨d, hl⟩ := hl l hsome
  refine (counts_statements (counts_member hl) (reads_member R.suits hl.reads) _ _ _ h₃).bind fun members s₄ h₄ => ?_
  refine (tells_closeBrace opened h₄).bind fun loc s₅ h₅ => .pure h₅ ?_
  simp [Node.marks_eq (.stmt (.classDecl ..)), Node.children, Stmt.children, Ident.node]

/-- A statement of the outermost level accounts for what is in it. -/
theorem counts_topStmt (R : Row) (d : Nat) : R.CountsStmt (topStmt d) := by
  intro K s₀ s h
  have hlevel := R.levelCounts d
  unfold topStmt
  rw [tells_current_bind]
  show R.Tells s₀ (if _ || startsMethodDecl s.rest then _ else _) s _
  split
  · refine (tells_modifiers h).bind fun mods s₁ h₁ => ?_
    rw [tells_token_bind]
    split
    · refine counts_classDecl (fun l hsome => ?_) _ _ _ _ _ h₁
      cases d with
      | zero => cases hsome
      | succ d =>
        cases hsome
        exact ⟨d, R.levelCounts d⟩
    · show R.Tells s₀ (if startsMethodDecl s₁.rest then _ else _) s₁ _
      split
      · exact counts_methodDecl hlevel _ _ _ _ _ h₁
      · rw [tells_current_bind]
        exact tells_fail h₁ rfl
  · rw [stmt_eq_stmtAt]
    exact counts_stmtAt hlevel _ _ _ h

end Statements

/-- **A whole text is accounted for.** -/
theorem counts_topStmts (R : Row) (d : Nat) : R.Counts (topStmts d) fun ss => ss.map .stmt := by
  intro K s₀ s h
  refine tells_loop h.none fun ss t ht => ?_
  unfold topStep
  rw [tells_token_bind]
  split
  · exact .pure ht rfl
  · refine (counts_recoverStmt (R.counts_topStmt d) (reads_topStmt R.suits d) _ _ _ ht).bind fun x s₁ h₁ => .pure h₁ ?_
    simp [Set.union_assoc]

section Texts

variable {ss : List Stmt} {final : State}

theorem account_topStmts (R : Row) (d : Nat) (hrun : topStmts d R.setup { rest := R.all } = .ok ss final) :
    R.Account (Node.marksOf (ss.map .stmt)) { rest := R.all } final := by
  have hstart : State.At { rest := R.all } R.all := ⟨⟨[], rfl, rfl⟩, nofun⟩
  simpa using (R.counts_topStmts d ∅ _ _ (.refl hstart)).ok hrun

/-- What is reported of a whole text. -/
theorem reported_topStmts (R : Row) (d : Nat) (hrun : topStmts d R.setup { rest := R.all } = .ok ss final) :
    ∀ p ∈ final.problems, R.Reported R.all p := by
  obtain ⟨xs, ds, hsince, -⟩ := (R.account_topStmts d hrun).since
  intro p hp
  rw [hsince.problems, List.nil_append] at hp
  exact (hsince.reported p hp).mono ⟨[], final.rest, hsince.rest.symm⟩

/-- **Problems go from token to token**, in a parse of the whole row. -/
theorem spans_topStmts (R : Row) (d : Nat) (hrun : topStmts d R.setup { rest := R.all } = .ok ss final) :
    ∀ p ∈ final.problems, R.Spans p.location :=
  fun p hp => (R.reported_topStmts d hrun p hp).spans

end Texts

end SmallJava.Row
