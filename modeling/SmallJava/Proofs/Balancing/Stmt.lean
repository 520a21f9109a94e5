import SmallJava.Proofs.Balancing.Expr
import SmallJava.Proofs.Grammar.Fitting
import SmallJava.Proofs.Reading.Program
import SmallJava.Proofs.Sorting
import SmallJava.Proofs.Steps

/-!
# A statement in front of a semicolon

What a parser does with tokens in front of a semicolon that are no statement: it gets stuck before the semicolon or at
it (`bailsOut_topStmt`). Among these tokens there is no brace and no keyword of a statement, so they are read as an
expression, as a declaration or as the head of a method, whose body is missing then.
-/

namespace SmallJava

open Grammar

namespace Grammar

variable {m : Mode} {xs : List Lexeme}

/-- Without a malformed token, a tree has no bad expression. -/
theorem DerivesExpr.fits_plain {sym : ExprSymbol} {ts : List Expr} (h : DerivesExpr m sym xs ts)
    (hxs : ∀ x ∈ xs, x.token ≠ .invalid) : ∀ t ∈ ts, (Node.expr t).All (Node.Fits .plain) := by
  induction h with
  | value _ ih | tighter _ _ ih | term _ ih | unsigned _ ih | start _ ih | arrayOperand _ ih | one _ ih => exact ih hxs
  | malformed _ hx => exact absurd hx (hxs _ (by simp))
  | someArguments _ _ _ ih => exact ih fun x hx => hxs x (by simp [hx])
  | noArguments => simp
  | more _ _ _ ih ihs =>
    have := ih fun x hx => hxs x (by simp [hx])
    have := ihs fun x hx => hxs x (by simp [hx])
    simp_all
  | _ =>
    simp only [List.mem_singleton, forall_eq]
    rw [Node.all_iff]
    simp_all [Node.children, Expr.children, Node.Fits, Ident.node, ArrayLit.node, Mode.plain]

/-- Without malformed tokens an expression is one of the language. -/
theorem DerivesExpr.to_plain {sym : ExprSymbol} {ts : List Expr} (h : DerivesExpr m sym xs ts)
    (hxs : ∀ x ∈ xs, x.token ≠ .invalid) : DerivesExpr .plain sym xs ts := h.refit (h.fits_plain hxs)

theorem Declares.to_plain {t : TypeName} {i : Ident} {o : Option Expr} (h : Declares m xs t i o)
    (hxs : ∀ x ∈ xs, x.token ≠ .invalid) : Declares .plain xs t i o := by
  cases h with
  | bare ht hi => exact .bare ht hi
  | init ht hi ha hx => exact .init ht hi ha (hx.to_plain fun x hx => hxs x (by simp [hx]))

end Grammar

namespace Parser

variable {setup : Setup} {all : List Lexeme} {s : State} {σ : List Token}

/-! ## Declarations -/

section Declarations

variable (hmax : setup.maxErrors = none) (hs : s.Heads all)

include hmax hs

/-- A declaration closes what it opens. -/
theorem tracks_varDecl {l : Level} (hl : TracksExpr setup all l.expr) (start : Location) (mods : List Token) :
    Tracks setup (varDecl l start mods) s σ σ := by
  refine .bind hs (tracks_typeName hmax hs) fun _ s₁ _ hs₁ => ?_
  refine .bind hs₁ (tracks_ident hmax hs₁) fun _ s₂ _ hs₂ => ?_
  refine .bind hs₂ (tracks_optionalAfter hs₂ rfl (by decide) fun s' hs' => hl s' σ hs') fun _ s₃ _ hs₃ => ?_
  rw [tracks_spanFrom_bind]
  exact .pure hs₃.running σ

theorem tracks_param : Tracks setup param s σ σ := by
  unfold param
  rw [tracks_current_bind]
  refine .bind hs (tracks_typeName hmax hs) fun _ s₁ _ hs₁ => ?_
  refine .bind hs₁ (tracks_ident hmax hs₁) fun _ s₂ _ hs₂ => ?_
  rw [tracks_spanFrom_bind]
  exact .pure hs₂.running σ

/-- A block that is not there. -/
theorem bailsOut_block {l : Level} (hbrace : (s.current setup).token ≠ .lBrace) : BailsOut setup (block l) s σ := by
  unfold block
  cases l.inside with
  | none => exact bailsOut_nested_none _ hmax hs
  | some p => exact (bailsOut_want hmax hs hbrace).bind _

/-- A method without a body. -/
theorem bailsOut_methodDecl {l : Level} (hfront : ∀ x ∈ all.takeWhile (·.token ≠ .semi), x.token ≠ .lBrace)
    (start : Location) (mods : List Token) : BailsOut setup (methodDecl l start mods) s σ := by
  refine Tracks.bailsOut hs (tracks_typeName hmax hs) fun _ s₁ _ hs₁ => ?_
  refine Tracks.bailsOut hs₁ (tracks_ident hmax hs₁) fun _ s₂ _ hs₂ => ?_
  refine Tracks.bailsOut hs₂ (tracks_want (τ := .rParen :: σ) hmax hs₂ rfl (by decide)) fun _ s₃ _ hs₃ => ?_
  refine Tracks.bailsOut hs₃ (tracks_separatedUntil hs₃ (fun s' hs' => tracks_param hmax hs') _) fun _ s₄ _ hs₄ => ?_
  refine Tracks.bailsOut hs₄ (tracks_want hmax hs₄ rfl (by decide)) fun _ s₅ _ hs₅ => ?_
  refine (bailsOut_block hmax hs₅ ?_).bind _
  rcases hs₅.mem_front setup with hsemi | hmem
  · simp [hsemi]
  · exact hfront _ hmem

omit hs in
/-- **What is read, and the semicolon behind it.** Either the semicolon is there, or the parser comes to no value. -/
theorem semi_or_bailsOut {α β : Type} {p : Parser α} (g : α → Lexeme → Parser β) (hs : s.Heads all)
    (hp : Tracks setup p s σ σ) :
    (∃ a s' xs, p setup s = .ok a s' ∧ s.Reaches σ xs σ s' ∧ (s'.current setup).token = .semi) ∨
      BailsOut setup (p >>= fun a => want .semi >>= g a) s σ := by
  unfold Tracks at hp
  cases hr : p setup s with
  | ok a s' =>
    rw [hr] at hp
    obtain ⟨xs, hx⟩ := hp
    by_cases hsemi : (s'.current setup).token = .semi
    · exact .inl ⟨a, s', xs, rfl, hx, hsemi⟩
    · obtain ⟨b, s'', hr', hb⟩ := (bailsOut_want (σ := σ) hmax (hs.reaches hx) hsemi).bind (g a)
      exact .inr ⟨b, s'', (bind_ok _ hr).trans hr', .after hx hb⟩
  | error b s' =>
    rw [hr] at hp
    exact .inr ⟨b, s', bind_error _ hr, hp⟩

end Declarations

/-! ## Statements -/

section Statements

variable {xs back : List Lexeme} {semi : Lexeme} (hmax : setup.maxErrors = none) (hw : setup.Suits all)
  (hs : s.Heads all) (hrest : s.rest = xs ++ semi :: back) (hsemi : semi.token = .semi)
  (hxs : ∀ x ∈ xs, isBoundary x.token = false ∧ x.token ≠ .invalid)

include hmax hw hs hrest hsemi hxs

omit hmax hw hs in
/-- What has been read up to a semicolon has been read up to the first one. -/
theorem eq_of_reaches {s' : State} {ys : List Lexeme} (h : s.Reaches σ ys σ s')
    (hcur : s'.rest = s'.current setup :: s'.rest.tail) (hs' : (s'.current setup).token = .semi) : ys = xs := by
  have hfront : ∀ x ∈ xs, x.token ≠ .semi := by
    intro x hx hsemi
    simpa [hsemi, isBoundary] using (hxs x hx).1
  have hfirst : (xs ++ semi :: back).takeWhile (·.token ≠ .semi) = xs := takeWhile_semi hfront hsemi
  rw [← hfirst, ← hrest, h.takes.rest, hcur, takeWhile_semi h.leads.semis hs']

/-- **Tokens that are no statement** are not read as an expression or as a declaration. -/
theorem bailsOut_simpleStmt (d : Nat) (hstmt : ¬ ∃ t, DerivesStmt .plain (.item .inside) (xs ++ [semi]) [t]) :
    BailsOut setup (simpleStmt (level d)) s [] := by
  have hexpr : TracksExpr setup all (level d).expr := (innerTracks hmax hw d).1
  have hvalid : ∀ x ∈ xs, x.token ≠ .invalid := fun x hx => (hxs x hx).2
  show BailsOut setup (if startsVarDecl s.rest then _ else _ : Parser Stmt) s []
  split
  · have hvar := tracks_varDecl (σ := []) hmax hs hexpr (s.current setup).location []
    rw [bailsOut_current_bind]
    refine (semi_or_bailsOut hmax _ hs hvar).resolve_left ?_
    rintro ⟨v, s', ys, hrun, hreach, hcur⟩
    obtain rfl := eq_of_reaches hrest hsemi hxs hreach ((hs.reaches hreach).rest_eq setup) hcur
    obtain ⟨zs, htakes, hderives⟩ := (reads_varDecl hw (levelReads hw d) hs.place hs.place (.refl s) []).ok hrun
    obtain rfl : zs = ys := List.append_cancel_right (htakes.rest.symm.trans hreach.takes.rest)
    obtain ⟨t, i, x, hdecl, -⟩ := hderives .lenient Mode.admits_lenient
    exact hstmt ⟨_, .varDecl (hdecl.to_plain hvalid) hsemi⟩
  · refine (semi_or_bailsOut hmax _ hs (hexpr s [] hs)).resolve_left ?_
    rintro ⟨x, s', ys, hrun, hreach, hcur⟩
    obtain rfl := eq_of_reaches hrest hsemi hxs hreach ((hs.reaches hreach).rest_eq setup) hcur
    obtain ⟨zs, htakes, hderives⟩ := ((levelReads hw d).expr s hs.place).ok hrun
    obtain rfl : zs = ys := List.append_cancel_right (htakes.rest.symm.trans hreach.takes.rest)
    have hx := (hderives .lenient Mode.admits_lenient).1.to_plain hvalid
    obtain ⟨y, ys, rfl⟩ := List.exists_cons_of_ne_nil hx.ne_nil
    have hbrace : y.token ≠ .lBrace := by
      intro hy
      simpa [hy, isBoundary] using (hxs y (by simp)).1
    exact hstmt ⟨_, .expr hx hbrace hsemi⟩

/-- **Tokens that are no statement of a text** are not read. -/
theorem bailsOut_topStmt (d : Nat) (hall : all = s.rest)
    (hstmt : ¬ ∃ t, DerivesStmt .plain (.item .top) (xs ++ [semi]) [t]) : BailsOut setup (topStmt d) s [] := by
  have hinside : ¬ ∃ t, DerivesStmt .plain (.item .inside) (xs ++ [semi]) [t] :=
    fun ⟨t, ht⟩ => hstmt ⟨t, .stmt ht⟩
  -- a semicolon alone is a statement
  obtain ⟨x, xs, rfl⟩ : ∃ x ys, xs = x :: ys := by
    cases xs with
    | nil => exact absurd ⟨_, .empty hsemi⟩ hinside
    | cons x xs => exact ⟨x, xs, rfl⟩
  have hcurrent : s.current setup = x := by simp [State.current, hrest]
  have hboundary : isBoundary x.token = false := (hxs x (by simp)).1
  have hmodifier : x.token.isModifier = false := by
    revert hboundary
    cases x.token <;> simp [isBoundary, Token.isModifier]
  have hclass : x.token ≠ .kwClass := by
    rintro hx
    simp [hx, isBoundary] at hboundary
  show BailsOut setup (if (s.current setup).token.isModifier || (s.current setup).token = .kwClass
    || startsMethodDecl s.rest then _ else _ : Parser Stmt) s []
  rw [hcurrent, hmodifier, decide_eq_false hclass, Bool.false_or, Bool.false_or]
  cases hmethod : startsMethodDecl s.rest with
  | true =>
    have hmods : modifiers setup s = .ok [] s := by
      have hnone : s.rest.takeWhile (·.token.isModifier) = [] := by simp [hrest, hmodifier]
      show EStateM.Result.ok ((s.rest.takeWhile (·.token.isModifier)).map (·.token))
        (s.skip ((s.rest.takeWhile (·.token.isModifier)).map (·.token)).length) = _
      rw [hnone]
      rfl
    have hfront : ∀ y ∈ all.takeWhile (·.token ≠ .semi), y.token ≠ .lBrace := by
      intro y hy hbrace
      rw [hall, hrest, takeWhile_semi (fun z hz hz' => by simpa [hz', isBoundary] using (hxs z hz).1) hsemi] at hy
      simpa [hbrace, isBoundary] using (hxs y hy).1
    obtain ⟨b, s', hrun, hb⟩ := bailsOut_methodDecl (l := level d) (σ := []) hmax hs hfront x.location []
    refine ⟨b, s', ?_, hb⟩
    rw [if_pos rfl, bind_ok _ hmods]
    show (if (s.current setup).token = .kwClass then _ else _ : Parser Stmt) setup s = _
    rw [hcurrent, if_neg hclass]
    show (if startsMethodDecl s.rest then _ else _ : Parser Stmt) setup s = _
    rw [hmethod, if_pos rfl]
    exact hrun
  | false =>
    rw [if_neg (by simp), stmt_eq_stmtAt]
    have hstmtAt : stmtAt (level d) setup s = simpleStmt (level d) setup s := by
      have htoken : token setup s = .ok x.token s := by
        show EStateM.Result.ok (s.current setup).token s = _
        rw [hcurrent]
      rw [stmtAt, bind_ok _ htoken]
      revert hboundary
      cases x.token <;> simp [isBoundary]
    unfold BailsOut
    rw [hstmtAt]
    exact bailsOut_simpleStmt hmax hw hs hrest hsemi hxs d hinside

end Statements

end Parser

/-! ## What a parse passes through -/

section Passing

variable {o : Options} {c : Source} {t : State}
  (h : Parser.PassesThrough (o.setup c) (Parser.topStmts o.depthLimit) { rest := c.tokens } t)

include h

/-- What has been reported on the way is reported at the end. -/
theorem State.problems_prefix_readStatements : t.problems <+: (readStatements o c).2.problems := by
  have hkept := h.prefix_problems
  unfold readStatements
  cases hrun : Parser.topStmts o.depthLimit (o.setup c) { rest := c.tokens } with
  | ok ss final =>
    rw [hrun] at hkept
    exact hkept
  | error b final =>
    rw [hrun] at hkept
    exact hkept

/-- **That the nesting is too deep is reported.** A parse that does not report it passes through no state in which it
has been halted for that. -/
theorem State.not_tooDeep (hdepth : ∀ d ∈ (parse o c).diagnostics, d.code ≠ .maxNestingDepthExceeded) :
    ¬ t.TooDeep := by
  rintro ⟨d, hd, hcode⟩
  have hfinal := (problems_prefix_readStatements h).subset hd
  exact hdepth d (by simp [parse, hfinal]) hcode

end Passing

end SmallJava
