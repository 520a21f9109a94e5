import SmallJava.Proofs.Accepting.Stmt
import SmallJava.Proofs.Lexical.Tokens
import SmallJava.Proofs.Sorting

/-!
# Derived texts are parsed

What the grammar derives from the tokens of a source is what a parse makes of the source, if the nesting limit allows
for it (`parse_eq_of_derives`). So no source has two trees (`DerivesProgram.unique`). A tree is nested no deeper than it
has tokens (`DerivesStmt.nestings_le`), so a parse that may go that deep tells whether there is a tree at all
(`not_derives_of_parse`).
-/

namespace SmallJava

open Grammar

/-- **A derivation is a parse.** If the grammar derives a tree from the tokens of a source, the parse of the source
gives the tree and finds only mild problems. -/
theorem parse_eq_of_derives {o : Options} {s : Source} {m : Mode} {ts : List Stmt} (hm : m.Exact)
    (hb : (o.setup s).Bears m) (h : DerivesProgram m s.tokens ts) (hd : Stmt.nestings ts ≤ o.depthLimit) :
    (parse o s).program.body = ts ∧
      ∃ ps : Diagnostics, (parse o s).diagnostics = Diagnostics.merge [s.faults, ps] ∧
        (∀ d ∈ ps, d.problem.isMild = true) ∧ (m.lax ∨ ps = []) := by
  have hs : ({ rest := s.tokens } : State).Ready s.tokens s.tokens := ⟨s.at_start, rfl, rfl⟩
  obtain ⟨final, hrun, hpass⟩ := Parser.accepts_topStmts (s.suits o) hm hb h hd hs
  obtain ⟨ps, hps, hmild, hlax⟩ := hpass.problems
  refine ⟨by simp [parse, readStatements, hrun], ps, ?_, hmild, hlax⟩
  simp [parse, readStatements, hrun, hps]

/-- **The grammar is unambiguous**: a source has at most one tree. -/
theorem DerivesProgram.unique {s : Source} {ts us : List Stmt} (ht : DerivesProgram .plain s.tokens ts)
    (hu : DerivesProgram .plain s.tokens us) : ts = us := by
  -- Both trees are what a parse gives that may go deep enough for either.
  let o : Options := { maxDepth := max (Stmt.nestings ts) (Stmt.nestings us) }
  have hlimit : max (Stmt.nestings ts) (Stmt.nestings us) ≤ o.depthLimit := by
    simp only [o, Options.depthLimit]
    split <;> omega
  have hm : Mode.plain.Exact := ⟨id, id, id⟩
  have hb : (o.setup s).Bears .plain := .inl rfl
  have ht := (parse_eq_of_derives hm hb ht (by omega)).1
  have hu := (parse_eq_of_derives hm hb hu (by omega)).1
  exact ht.symm.trans hu

/-! ## How deep a derivation can be -/

namespace Grammar

variable {m : Mode} {xs : List Lexeme}

/-- There is a token for each level of nesting. -/
theorem DerivesExpr.depths_le {sym : ExprSymbol} {ts : List Expr} (h : DerivesExpr m sym xs ts) :
    Expr.depths ts ≤ xs.length := by
  induction h with
  | value _ ih | tighter _ _ ih | term _ ih | unsigned _ ih | start _ ih | arrayOperand _ ih | one _ ih => exact ih
  | _ =>
    simp only [Expr.depths, Expr.nesting, ArrayLit.nesting, List.length_append, List.length_cons, List.length_nil] at *
    omega

/-- The parentheses of a condition make up for the level that it takes. -/
theorem Condition.depth_le {x : Expr} (h : Condition m xs x) : x.nesting + 1 ≤ xs.length := by
  cases h with
  | good _ hx _ =>
    have hle := hx.depths_le
    simp only [Expr.depths, List.length_cons, List.length_append] at hle ⊢
    omega
  | bad => simp

theorem OptExpr.depth_le {o : Option Expr} (h : OptExpr m xs o) : Expr.depthOpt o ≤ xs.length := by
  cases h with
  | none => simp [Expr.depthOpt]
  | some hx => simpa [Expr.depthOpt] using hx.depths_le

theorem Declares.depth_le {t : TypeName} {i : Ident} {o : Option Expr} (h : Declares m xs t i o) :
    Expr.depthOpt o ≤ xs.length := by
  cases h with
  | bare => simp [Expr.depthOpt]
  | init _ _ _ hx =>
    have hle := hx.depths_le
    simp only [Expr.depths, Expr.depthOpt, Option.map_some, Option.getD_some, List.length_append,
      List.length_cons] at hle ⊢
    omega

/-- Whatever a `for` starts with is no deeper than it is long. -/
theorem ForInit.nesting_le {s : Stmt} (h : ForInit m xs (some s)) : s.nesting ≤ xs.length := by
  cases h with
  | decl hd => exact hd.depth_le
  | expr hx => simpa using hx.depths_le

/-- **Statements are no deeper than they are long**, since each level takes a token. -/
theorem DerivesStmt.nestings_le {sym : StmtSymbol} {ss : List Stmt} (h : DerivesStmt m sym xs ss) :
    Stmt.nestings ss ≤ xs.length := by
  induction h with
  | braced _ ih | ifStmt _ ih | stmt _ ih => exact ih
  | nil => simp
  | empty => simp
  | varDecl hd _ | field _ hd _ =>
    have hle := hd.depth_le
    simp only [Stmt.nestings, Stmt.nesting, List.length_append]
    omega
  | expr hx _ _ =>
    have hle := hx.depths_le
    simp only [Expr.depths, Stmt.nestings, Stmt.nesting, List.length_append] at hle ⊢
    omega
  | ret _ hx _ =>
    have hle := hx.depth_le
    simp only [Stmt.nestings, Stmt.nesting, List.length_cons, List.length_append]
    omega
  | whileLoop _ hc _ ih | doWhile _ _ _ hc _ ih | arm _ hc _ ih =>
    have hle := hc.depth_le
    simp only [Stmt.nestings, Stmt.nesting, ElseIf.nestings, List.length_cons, List.length_append] at ih ⊢
    omega
  | @forLoop _ _ _ _ _ _ _ _ _ init _ _ _ _ _ hi _ hc _ hu _ _ ih =>
    have hcond := hc.depth_le
    have hupdate := hu.depth_le
    cases init with
    | none =>
      simp only [Stmt.nestings, Stmt.nesting, List.length_cons, List.length_append] at ih ⊢
      omega
    | some s =>
      have hinit := hi.nesting_le
      simp only [Stmt.nestings, Stmt.nesting, List.length_cons, List.length_append] at ih ⊢
      omega
  | elseIf _ _ _ hc _ iha ihb =>
    have hle := hc.depth_le
    simp only [Stmt.nestings, Stmt.nesting, ElseIf.nestings_append, ElseIf.nestings, ElseIf.nesting, List.length_cons,
      List.length_append] at iha ihb ⊢
    omega
  | _ =>
    simp only [Stmt.nestings, Stmt.nesting, Block.nesting, CatchClause.nestings_append, CatchClause.nestings,
      CatchClause.nesting, List.length_cons, List.length_append, List.length_nil] at *
    omega

end Grammar

/-- **A parse tells whether the tokens are a statement**: if it finds a problem that is not mild, they are not. -/
theorem not_derives_of_parse {o : Options} {s : Source} (hmax : o.errorLimit? = none)
    (hlimit : s.tokens.length ≤ o.depthLimit) (hfaults : s.faults = []) {d : Diagnostic}
    (hd : d ∈ (parse o s).diagnostics) (hmild : d.problem.isMild = false) :
    ¬ ∃ t, DerivesStmt .plain (.item .top) s.tokens [t] := by
  rintro ⟨t, ht⟩
  have hprogram : DerivesProgram .plain s.tokens [t] := by simpa [DerivesProgram] using ht.cons .nil
  have hnesting := hprogram.nestings_le
  obtain ⟨-, ps, hps, hall, -⟩ := parse_eq_of_derives ⟨id, id, id⟩ (.inl hmax) hprogram (by omega)
  rw [hps, hfaults, Diagnostics.mem_merge] at hd
  simp [hall d (by simpa using hd)] at hmild

end SmallJava
