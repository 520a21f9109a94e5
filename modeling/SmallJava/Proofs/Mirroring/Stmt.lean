import SmallJava.Proofs.Committing
import SmallJava.Proofs.Mirroring.Expr

/-!
# Statements side by side

Statements, members of classes and whole texts go the same way in both of two parses (`Mirror`). Where a statement
fails, both parses discard the same tokens: the only thing that the second one might see differently is whether the
very first token stands on a new line, and that is not looked at, because a statement that starts with a name takes
the name before it fails (`settles_of_commits`).
-/

namespace SmallJava.Mirror

open SmallJava.Parser

variable {M : Mirror} {l : Level}

/-- A parser that takes a name before it fails leaves no doubt about how to recover. -/
theorem settles_of_commits {α : Type} {p : Parser α} (hc : Commits M.setup p) (hw : Walks M.setup p) : M.Settles p := by
  intro s b t hs hr _ hlast x hx hident
  obtain ⟨-, hrest⟩ := (hw.error hr).last hlast
  obtain ⟨r, hr'⟩ := List.head?_eq_some_iff.1 hx
  have hrunning : s.halted = false := by
    rw [Bool.eq_false_iff]
    intro hh
    rw [hs.halted hh, hr'] at hrest
    cases hrest
  exact hc.error hrunning (hrest.symm.trans hr') hident hr hlast

/-! ## Braces -/

/-- A parser for statements that goes the same way in both parses. -/
structure FollowsStmt (M : Mirror) (p : Parser Stmt) : Prop where
  follows : M.Follows p p (M.Moved Stmt.relocate)
  settles : M.Settles p

/-- The parsers of a level go the same way in both parses. -/
structure LevelFollows (M : Mirror) (l : Level) : Prop where
  expr : M.FollowsExpr l.expr
  inside : ∀ p, l.inside = some p → M.FollowsStmt p

/-- Both parses read as many statements, and stop before the same token. -/
theorem follows_statements {p : Parser Stmt} (hp : M.FollowsStmt p) :
    M.Follows (statements p) (statements p) (M.MovedAll Stmt.relocate) := by
  refine .loop .nil fun ss ss' hss => .bind follows_token ?_
  rintro t _ rfl
  refine .ite (fun _ => .pure (.done hss)) fun _ => ?_
  exact .bind (follows_recoverStmt hp.follows hp.settles) fun x x' hx => .pure (.yield (hss.concat hx))

/-- A brace that is missing is missing in both parses, and both say where the opening one stands. -/
theorem follows_closeBrace {opened opened' : Lexeme} (ho : M.Same opened opened') :
    M.Follows (closeBrace opened) (closeBrace opened') (M.Moved Location.relocate) := by
  refine .bind follows_current ?_
  rintro x _ ⟨-, rfl⟩
  refine .ite (fun _ => ?_) fun _ => .bind (follows_want _) ?_
  · have hproblem : M.Moved Problem.relocate (.unterminatedBlock opened.location.first)
        (.unterminatedBlock opened'.location.first) := by
      rw [ho.2]
      rfl
    exact .bind (follows_report hproblem rfl) fun _ _ _ => follows_spanFrom ho.start
  · rintro closed _ ⟨-, rfl⟩
    refine .pure ?_
    rw [ho.2]
    rfl

/-- The statements of a block, one level deeper, and its braces. -/
theorem follows_block (hl : M.LevelFollows l) : M.Follows (block l) (block l) (M.Moved Block.relocate) := by
  refine follows_nested fun p hsome => .bind (follows_want _) fun opened opened' ho =>
    .bind (follows_statements (hl.inside p hsome)) fun ss ss' hss => .bind (follows_closeBrace ho)
    fun loc loc' hloc => .pure ?_
  rw [Moved, Block.relocate_mk, hss, hloc]

/-! ## Parts of statements -/

/-- A condition recovers on its own, in both parses up to the same parenthesis. -/
theorem follows_condition (hl : M.LevelFollows l) : M.FollowsExpr (condition l) :=
  .bind (follows_want _) fun _ _ _ => .bind (follows_recoverExpr hl.expr) fun _ _ hx =>
    .bind (follows_want _) fun _ _ _ => .pure hx

/-- A declaration may start at its modifiers, so its start is given. -/
theorem follows_varDecl (hl : M.LevelFollows l) {start start' : Location} (hs : M.SameStart start start')
    (mods : List Token) :
    M.Follows (varDecl l start mods) (varDecl l start' mods) (M.Moved VarDecl.relocate) := by
  refine .bind follows_typeName fun type type' htype => .bind follows_ident fun name name' hname =>
    .bind (follows_optionalAfter hl.expr _) fun init init' hinit => .bind (follows_spanFrom hs)
    fun loc loc' hloc => .pure ?_
  rw [Moved, VarDecl.relocate, htype, hname, hinit, hloc]

theorem follows_optionalExpr (hl : M.LevelFollows l) (ending : Token) :
    M.Follows (optionalExpr l ending) (optionalExpr l ending) (M.MovedOpt Expr.relocate) := by
  refine .bind follows_token ?_
  rintro t _ rfl
  refine .ite (fun _ => .pure rfl) fun _ => .bind hl.expr ?_
  rintro x _ rfl
  exact .pure rfl

theorem follows_forInit (hl : M.LevelFollows l) : M.Follows (forInit l) (forInit l) (M.MovedOpt Stmt.relocate) := by
  refine .bind follows_atVarDecl ?_
  rintro declares _ rfl
  refine .ite (fun _ => ?_) fun _ => .bind (follows_optionalExpr hl _) ?_
  · refine .bind follows_current fun x x' hx => .bind (follows_varDecl hl hx.start []) ?_
    rintro d _ rfl
    exact .pure rfl
  · rintro x _ rfl
    cases x with
    | none => exact .pure rfl
    | some x =>
      refine .pure ?_
      simp [MovedOpt, Stmt.relocate]

/-! ## Statements -/

/-- Behind an `else` both parses see an `if`, or neither does. -/
theorem follows_armStep (hl : M.LevelFollows l) {arms arms' : List ElseIf × Option Block}
    (ha : M.MovedAll ElseIf.relocate arms.1 arms'.1) :
    M.Follows (armStep l arms) (armStep l arms') (SameStep fun r r' =>
      M.MovedAll ElseIf.relocate r.1 r'.1 ∧ M.MovedOpt Block.relocate r.2 r'.2) := by
  refine .bind follows_token ?_
  rintro t _ rfl
  refine .ite (fun _ => .bind follows_next ?_) fun _ => .pure (.done ⟨ha, rfl⟩)
  rintro kw _ ⟨-, rfl⟩
  refine .bind (follows_got _) ?_
  rintro more _ rfl
  refine .ite (fun _ => ?_) fun _ => .bind (follows_block hl) ?_
  · refine .bind (follows_condition hl) fun cond cond' hcond => .bind (follows_block hl) fun body body' hbody => ?_
    refine .pure (.yield ⟨ha.concat ?_, rfl⟩)
    rw [Moved, hcond, hbody, ElseIf.relocate, Block.location_relocate]
    rfl
  · rintro body _ rfl
    exact .pure (.done ⟨ha, rfl⟩)

/-- The arms of an `if` are read in a loop, and its location ends with the last of them. -/
theorem follows_ifStmt (hl : M.LevelFollows l) : M.Follows (ifStmt l) (ifStmt l) (M.Moved Stmt.relocate) := by
  refine .bind (follows_want _) fun kw kw' hkw => .bind (follows_condition hl) fun cond cond' hcond =>
    .bind (follows_block hl) fun body body' hbody => .bind (.loop ⟨rfl, rfl⟩ fun _ _ h => follows_armStep hl h.1) ?_
  rintro ⟨elseIfs, otherwise⟩ ⟨_, _⟩ ⟨rfl, rfl⟩
  refine .bind (follows_spanFrom hkw.start) fun loc loc' hloc => .pure ?_
  rw [Moved, Stmt.relocate_ifElse, hcond, hbody, hloc]

theorem follows_whileStmt (hl : M.LevelFollows l) : M.Follows (whileStmt l) (whileStmt l) (M.Moved Stmt.relocate) := by
  refine .bind (follows_want _) fun kw kw' hkw => .bind (follows_condition hl) fun cond cond' hcond =>
    .bind (follows_block hl) fun body body' hbody => .bind (follows_spanFrom hkw.start) fun loc loc' hloc => .pure ?_
  rw [Moved, Stmt.relocate, hcond, hbody, hloc]

theorem follows_doWhileStmt (hl : M.LevelFollows l) :
    M.Follows (doWhileStmt l) (doWhileStmt l) (M.Moved Stmt.relocate) := by
  refine .bind (follows_want _) fun kw kw' hkw => .bind (follows_block hl) fun body body' hbody =>
    .bind (follows_want _) fun _ _ _ => .bind (follows_condition hl) fun cond cond' hcond =>
    .bind (follows_want _) fun _ _ _ => .bind (follows_spanFrom hkw.start) fun loc loc' hloc => .pure ?_
  rw [Moved, Stmt.relocate, hcond, hbody, hloc]

theorem follows_forStmt (hl : M.LevelFollows l) : M.Follows (forStmt l) (forStmt l) (M.Moved Stmt.relocate) := by
  refine .bind (follows_want _) fun kw kw' hkw => .bind (follows_want _) fun _ _ _ =>
    .bind (follows_forInit hl) fun init init' hinit => .bind (follows_want _) fun _ _ _ =>
    .bind (follows_optionalExpr hl _) fun cond cond' hcond => .bind (follows_want _) fun _ _ _ =>
    .bind (follows_optionalExpr hl _) fun update update' hupdate => .bind (follows_want _) fun _ _ _ =>
    .bind (follows_block hl) fun body body' hbody => .bind (follows_spanFrom hkw.start) fun loc loc' hloc => .pure ?_
  rw [Moved, Stmt.relocate_forLoop, hinit, hcond, hupdate, hbody, hloc]

/-- Each clause of a `try` has the parameter and the block that it has in the other parse. -/
theorem follows_catchStep (hl : M.LevelFollows l) {clauses clauses' : List CatchClause}
    (hc : M.MovedAll CatchClause.relocate clauses clauses') :
    M.Follows (catchStep l clauses) (catchStep l clauses') (SameStep (M.MovedAll CatchClause.relocate)) := by
  refine .bind follows_token ?_
  rintro t _ rfl
  refine .ite (fun _ => .bind follows_next ?_) fun _ => .pure (.done hc)
  rintro kw _ ⟨-, rfl⟩
  refine .bind (follows_want _) fun _ _ _ => .bind follows_typeName fun type type' htype =>
    .bind follows_ident fun name name' hname => .bind (follows_want _) fun _ _ _ =>
    .bind (follows_block hl) fun body body' hbody => .pure (.yield (hc.concat ?_))
  rw [Moved, htype, hname, hbody, CatchClause.relocate, Block.location_relocate]
  rfl

/-- Both parses find a handler, or both report for the whole statement that there is none. -/
theorem follows_tryStmt (hl : M.LevelFollows l) : M.Follows (tryStmt l) (tryStmt l) (M.Moved Stmt.relocate) := by
  refine .bind (follows_want _) fun kw kw' hkw => .bind (follows_block hl) fun body body' hbody =>
    .bind (.loop .nil fun _ _ => follows_catchStep hl) fun catches catches' hcatches =>
    .bind (follows_optionalAfter (follows_block hl) _) fun cleanup cleanup' hcleanup =>
    .bind (follows_spanFrom hkw.start) fun loc loc' hloc => ?_
  have hnone : (catches'.isEmpty && cleanup'.isNone) = (catches.isEmpty && cleanup.isNone) := by
    rw [hcatches, hcleanup, List.isEmpty_map, Option.isNone_map]
  have htry : M.Moved Stmt.relocate (.tryCatch loc body catches cleanup) (.tryCatch loc' body' catches' cleanup') := by
    rw [Moved, Stmt.relocate_tryCatch, hbody, hcatches, hcleanup, hloc]
  rw [hnone]
  exact .ite (fun _ => .bind (follows_report rfl hloc) fun _ _ _ => .pure htry) fun _ => .pure htry

/-- A value is read in both parses, or in neither. -/
theorem follows_returnStmt (hl : M.LevelFollows l) :
    M.Follows (returnStmt l) (returnStmt l) (M.Moved Stmt.relocate) := by
  refine .bind (follows_want _) fun kw kw' hkw => .bind (follows_optionalExpr hl _) fun x x' hx =>
    .bind (follows_want _) fun _ _ _ => .bind (follows_spanFrom hkw.start) fun loc loc' hloc => .pure ?_
  rw [Moved, Stmt.relocate, hx, hloc]

/-- What starts with a type and a name is a declaration in both parses, and else an expression. -/
theorem follows_simpleStmt (hl : M.LevelFollows l) :
    M.Follows (simpleStmt l) (simpleStmt l) (M.Moved Stmt.relocate) := by
  refine .bind follows_atVarDecl ?_
  rintro declares _ rfl
  refine .ite (fun _ => ?_) fun _ => .bind hl.expr ?_
  · refine .bind follows_current fun x x' hx => .bind (follows_varDecl hl hx.start []) ?_
    rintro d _ rfl
    refine .bind (follows_want _) ?_
    rintro semi _ ⟨-, rfl⟩
    exact .pure rfl
  · rintro x _ rfl
    refine .bind (follows_want _) ?_
    rintro semi _ ⟨-, rfl⟩
    refine .pure ?_
    simp [Moved, Stmt.relocate, Location.relocate_through]

/-- The current token settles, in both parses, which kind of statement follows. -/
theorem follows_stmtAt (hl : M.LevelFollows l) : M.Follows (stmtAt l) (stmtAt l) (M.Moved Stmt.relocate) := by
  refine .bind follows_token ?_
  rintro t _ rfl
  split
  · refine .bind (follows_block hl) ?_
    rintro b _ rfl
    exact .pure rfl
  · refine .bind follows_next ?_
    rintro semi _ ⟨-, rfl⟩
    exact .pure rfl
  · exact follows_ifStmt hl
  · exact follows_whileStmt hl
  · exact follows_doWhileStmt hl
  · exact follows_forStmt hl
  · exact follows_tryStmt hl
  · exact follows_returnStmt hl
  · exact follows_simpleStmt hl

/-- **The statements of every level** are read in the same way. -/
theorem levelFollows (M : Mirror) (d : Nat) : M.LevelFollows (level d) := by
  induction d with
  | zero => exact ⟨follows_expr M 0, fun p h => nomatch h⟩
  | succ d ih =>
    refine ⟨follows_expr M (d + 1), ?_⟩
    rintro p ⟨⟩
    have hwalks : Walks M.setup (stmt d) := by
      rw [stmt_eq_stmtAt]
      exact walks.stmtAt (walks.level d)
    refine ⟨?_, settles_of_commits (commits_stmt d) hwalks⟩
    rw [stmt_eq_stmtAt]
    exact follows_stmtAt ih

/-! ## Declarations -/

/-- Modifiers are read by their kinds alone, so both parses give the same ones. -/
theorem follows_modifiers : M.Follows modifiers modifiers Eq := by
  refine .get_bind fun s s' hs => ?_
  have hmods : (s'.rest.takeWhile (·.token.isModifier)).map (·.token)
      = (s.rest.takeWhile (·.token.isModifier)).map (·.token) := by
    rw [hs.rest, List.takeWhile_map, List.map_map]
    rfl
  rw [hmods]
  exact .bind (.modify fun _ _ ht => ht.skip _) fun _ _ _ => .pure rfl

theorem follows_param : M.Follows param param (M.Moved Param.relocate) := by
  refine .bind follows_current fun start start' hstart => .bind follows_typeName fun type type' htype =>
    .bind follows_ident fun name name' hname => .bind (follows_spanFrom hstart.start) fun loc loc' hloc => .pure ?_
  rw [Moved, Param.relocate, htype, hname, hloc]

/-- A method, with its parameters and its body, starts at its modifiers. -/
theorem follows_methodDecl (hl : M.LevelFollows l) {start start' : Location} (hs : M.SameStart start start')
    (mods : List Token) :
    M.Follows (methodDecl l start mods) (methodDecl l start' mods) (M.Moved Stmt.relocate) := by
  refine .bind follows_typeName fun result result' hresult => .bind follows_ident fun name name' hname =>
    .bind (follows_want _) fun _ _ _ => .bind (follows_separatedUntil follows_param _) fun params params' hparams =>
    .bind (follows_want _) fun _ _ _ => .bind (follows_block hl) fun body body' hbody =>
    .bind (follows_spanFrom hs) fun loc loc' hloc => .pure ?_
  rw [Moved, Stmt.relocate, hresult, hname, hparams, hbody, hloc]

/-- A member of a class is a method or a declaration, by the same look ahead. -/
theorem follows_member (hl : M.LevelFollows l) : M.Follows (member l) (member l) (M.Moved Stmt.relocate) := by
  refine .bind follows_current fun x x' hx => .bind follows_modifiers ?_
  rintro mods _ rfl
  refine .bind follows_atMethodDecl ?_
  rintro method _ rfl
  refine .ite (fun _ => follows_methodDecl hl hx.start mods) fun _ => .bind (follows_varDecl hl hx.start mods) ?_
  rintro d _ rfl
  refine .bind (follows_want _) fun _ _ _ => .bind (follows_spanFrom hx.start) ?_
  rintro loc _ rfl
  exact .pure rfl

/-- A member settles how to recover, since it takes its first name. -/
theorem followsStmt_member (M : Mirror) (d : Nat) : M.FollowsStmt (member (level d)) :=
  ⟨follows_member (levelFollows M d), settles_of_commits (commits_member d) (walks.member (walks.level d))⟩

/-- The members of a class are one level deeper, if there is a level left. -/
theorem follows_classDecl (d : Nat) {start start' : Location} (hs : M.SameStart start start') (mods : List Token) :
    M.Follows (classDecl (levelInside d) start mods) (classDecl (levelInside d) start' mods)
      (M.Moved Stmt.relocate) := by
  refine .bind (follows_want _) fun _ _ _ => .bind follows_ident fun name name' hname => follows_nested ?_
  intro l hsome
  obtain ⟨d', rfl⟩ : ∃ d', l = level d' := by
    cases d with
    | zero => cases hsome
    | succ d => exact ⟨d, (Option.some.inj hsome).symm⟩
  refine .bind (follows_want _) fun opened opened' ho => .bind (follows_statements (followsStmt_member M d'))
    fun ss ss' hss => .bind (follows_closeBrace ho) fun loc loc' hloc => .pure ?_
  obtain ⟨x, x', ⟨-, rfl⟩, rfl, rfl⟩ := hs
  rw [Moved, Stmt.relocate_classDecl, hname, hss, hloc]
  rfl

/-- **A statement of the outermost level** is read in the same way. -/
theorem follows_topStmt (M : Mirror) (d : Nat) : M.Follows (topStmt d) (topStmt d) (M.Moved Stmt.relocate) := by
  refine .bind follows_current fun x x' hx => .bind follows_atMethodDecl ?_
  rintro method _ rfl
  rw [hx.2, Lexeme.token_relocate, ← hx.2]
  refine .ite (fun _ => .bind follows_modifiers ?_) fun _ => ?_
  · rintro mods _ rfl
    refine .bind follows_token ?_
    rintro t _ rfl
    refine .ite (fun _ => follows_classDecl d hx.start mods) fun _ => .bind follows_atMethodDecl ?_
    rintro method _ rfl
    refine .ite (fun _ => follows_methodDecl (levelFollows M d) hx.start mods) fun _ => .bind follows_current ?_
    rintro y _ ⟨-, rfl⟩
    exact follows_fail rfl
  · rw [stmt_eq_stmtAt]
    exact follows_stmtAt (levelFollows M d)

/-- **Whole texts go the same way** in both parses. What the second one has read before stays in front. -/
theorem follows_topStmts (M : Mirror) (d : Nat) (before : List Stmt) :
    M.Follows (loop [] (topStep d)) (loop before (topStep d)) fun ss ss' =>
      ss' = before ++ ss.map (Stmt.relocate M.move) := by
  have hset : M.Settles (topStmt d) := settles_of_commits (commits_topStmt d) (walks.topStmt d)
  refine .loop (by simp) fun ss ss' hss => .bind follows_token ?_
  rintro t _ rfl
  refine .ite (fun _ => .pure (.done hss)) fun _ => .bind (follows_recoverStmt (follows_topStmt M d) hset) ?_
  rintro x _ rfl
  refine .pure (.yield ?_)
  rw [hss, List.map_append, List.append_assoc]
  rfl

end SmallJava.Mirror
