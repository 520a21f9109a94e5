import SmallJava.Parser.Stmt
import SmallJava.Proofs.Reading.Expr

/-!
# Statements are read as derivations

The same for statements, members of classes and whole texts. A `Level` reads what the grammar says if its
expressions have its depth and the statements inside its blocks one level less; that is so for `level d` by
induction on `d`. The end of it is `reads_topStmts`: the statements of a text are derived from all of its tokens.
-/

namespace SmallJava

open Grammar

theorem Block.one_le_nesting (b : Block) : 1 ≤ b.nesting := by
  cases b
  simp [Block.nesting]

namespace Grammar

variable {m : Mode}

theorem DerivesStmt.list_append {p : Place} {xs ys : List Lexeme} {ss rs : List Stmt}
    (h : DerivesStmt m (.list p) xs ss) (h' : DerivesStmt m (.list p) ys rs) :
    DerivesStmt m (.list p) (xs ++ ys) (ss ++ rs) := by
  generalize hsym : StmtSymbol.list p = sym at h
  induction h with
  | nil =>
    cases hsym
    exact h'
  | cons hs _ _ ih =>
    cases hsym
    simpa using DerivesStmt.cons hs (ih rfl)
  | skip he hne _ ih =>
    cases hsym
    simpa using DerivesStmt.skip he hne (ih rfl)
  | _ => cases hsym

/-- The grammar adds statements in front of a list, and the parser behind it. -/
theorem DerivesStmt.list_concat {p : Place} {xs ys : List Lexeme} {ss : List Stmt} {s : Stmt}
    (h : DerivesStmt m (.list p) xs ss) (hs : DerivesStmt m (.item p) ys [s]) :
    DerivesStmt m (.list p) (xs ++ ys) (ss ++ [s]) := by
  simpa using h.list_append (.cons hs .nil)

/-- A bad statement may stand for any tokens, where error productions are allowed. -/
theorem DerivesStmt.list_bad {p : Place} {xs ys : List Lexeme} {ss : List Stmt}
    (h : DerivesStmt m (.list p) xs ss) (he : m.errors) (hne : ys ≠ []) :
    DerivesStmt m (.list p) (xs ++ ys) (ss ++ [Stmt.bad (extent ys)]) := by
  simpa using h.list_append (.skip he hne .nil)

end Grammar

namespace Parser

variable {setup : Setup} {all : List Lexeme} {s : State} {d : Nat} {l : Level}

/-- The parser gives statements for the place `p`, of depth at most `d`. -/
def ReadsItem (setup : Setup) (all : List Lexeme) (p : Place) (parser : Parser Stmt) (d : Nat) : Prop :=
  ∀ s : State, s.At all → Reads setup all parser s fun m xs t => DerivesStmt m (.item p) xs [t] ∧ t.nesting ≤ d

/-- The parsers of a level with `d` levels of nesting left. -/
structure LevelReads (setup : Setup) (all : List Lexeme) (l : Level) (d : Nat) : Prop where
  expr : ReadsExpr setup all l.expr d
  inside : ∀ p, l.inside = some p → ∃ d', d = d' + 1 ∧ ReadsItem setup all .inside p d'

/-! ## Lists and braces -/

/-- A statement that recovers is derived, or is a bad one over what was discarded. -/
theorem reads_recovering {p : Place} {parser : Parser Stmt} (hw : setup.Suits all)
    (hp : ReadsItem setup all p parser d) (hs : s.At all) (hne : (s.current setup).token ≠ .eof) :
    Reads setup all (recoverStmt parser) s fun m xs t =>
      xs ≠ [] ∧ (DerivesStmt m (.item p) xs [t] ∧ t.nesting ≤ d ∨ m.errors ∧ t = .bad (extent xs)) :=
  reads_recoverStmt hw hs hne ((hp s hs).mono fun _ _ _ h => ⟨h.1.ne_nil (by simp), h⟩)

/-- A statement that recovers makes a list of the statements before it. -/
theorem reads_recovering_step {p : Place} {parser : Parser Stmt} (hw : setup.Suits all)
    (hp : ReadsItem setup all p parser d) (hs : s.At all) (hne : (s.current setup).token ≠ .eof)
    {Q : Mode → List Lexeme → List Stmt → Prop} (zs : List Lexeme) (ss : List Stmt) :
    Reads setup all (recoverStmt parser >>= fun t => pure (.yield (ss ++ [t]))) s
      (StepPost (fun m xs ss => DerivesStmt m (.list p) xs ss ∧ Stmt.nestings ss ≤ d) Q zs ss) := by
  refine .bind hs (reads_recovering hw hp hs hne) fun xs t s' _ hs' => .pure fun m _ => ?_
  rintro ⟨hxs, ht⟩
  refine ⟨by simpa using hxs, ?_⟩
  rintro ⟨hss, hn⟩
  rw [List.append_nil]
  rcases ht with ⟨ht, hnt⟩ | ⟨he, rfl⟩
  · refine ⟨hss.list_concat ht, ?_⟩
    simp only [Stmt.nestings_append, Stmt.nestings]
    omega
  · refine ⟨hss.list_bad he hxs, ?_⟩
    simp only [Stmt.nestings_append, Stmt.nestings, Stmt.nesting]
    omega

/-- Statements up to a brace are derived one by one. -/
theorem reads_statements {p : Place} {parser : Parser Stmt} (hw : setup.Suits all)
    (hp : ReadsItem setup all p parser d) (hs : s.At all) :
    Reads setup all (statements parser) s fun m xs ss => DerivesStmt m (.list p) xs ss ∧ Stmt.nestings ss ≤ d := by
  refine reads_loop (I := fun m xs ss => DerivesStmt m (.list p) xs ss ∧ Stmt.nestings ss ≤ d) hs
    (fun m => ⟨.nil, Nat.zero_le d⟩) fun zs s₁ ss _ hs₁ => ?_
  unfold stmtStep
  rw [reads_token_bind]
  split
  · exact .pure fun m _ hI => by simpa using hI
  · next h => exact reads_recovering_step hw hp hs₁ (fun he => h (.inr he)) zs ss

/-- The brace is taken, or it is missing at the end of the text. -/
theorem reads_closeBrace (hw : setup.Suits all) (hs : s.At all) (opened : Lexeme) :
    Reads setup all (closeBrace opened) s fun m xs loc =>
      (∃ r, xs = [r] ∧ r.token = .rBrace ∧ loc = opened.location.through r.location) ∨
      (m.opens ∧ xs = [] ∧ loc = s.spanFrom opened.location) := by
  unfold closeBrace
  rw [reads_current_bind]
  split
  · next heof =>
    have hrest := (token_eq_eof_iff hw hs).1 heof
    refine .bind hs (reads_report hs _ _) fun js _ s₁ ht hs₁ => ?_
    have hjs : js = [] := by
      have := ht.rest
      simp only [hrest, List.nil_eq, List.append_eq_nil_iff] at this
      exact this.1
    subst hjs
    have hloc : s₁.spanFrom opened.location = s.spanFrom opened.location := by
      simp only [State.spanFrom, ht.last, List.getLast?_nil, Option.none_or]
    have hrun : spanFrom opened.location setup s₁ = .ok (s₁.spanFrom opened.location) s₁ := rfl
    exact .of_ok hrun (.refl s₁) fun m _ hreport => .inr ⟨hreport.1, rfl, hloc⟩
  · refine .bind hs (reads_want hw hs (by decide)) fun xs r s₁ _ hs₁ => .pure fun m _ => ?_
    rintro ⟨rfl, hr⟩
    exact .inl ⟨r, rfl, hr, rfl⟩

theorem reads_block (hw : setup.Suits all) (hl : LevelReads setup all l d) (hs : s.At all) :
    Reads setup all (block l) s fun m xs b => DerivesStmt m .block xs [.block b] ∧ b.nesting ≤ d := by
  refine reads_nested hs fun p hsome => ?_
  obtain ⟨d', rfl, hp⟩ := hl.inside p hsome
  refine .bind hs (reads_want hw hs (by decide)) fun os o s₁ ht₁ hs₁ => ?_
  refine .bind hs₁ (reads_statements hw hp hs₁) fun xs ss s₂ ht₂ hs₂ => ?_
  refine .bind hs₂ (reads_closeBrace hw hs₂ o) fun rs loc s₃ _ hs₃ => .pure fun m _ => ?_
  rintro hclose ⟨hss, hn⟩ ⟨rfl, ho⟩
  refine ⟨?_, by simp only [Block.nesting]; omega⟩
  rcases hclose with ⟨r, rfl, hr, rfl⟩ | ⟨he, rfl, rfl⟩
  · rw [← extent_concat o r xs]
    simpa using DerivesStmt.block ho hss hr
  · rw [spanFrom_eq_extent hw hs (ht₁.trans ht₂)]
    simpa using DerivesStmt.openBlock he ho hss

/-! ## Parts of statements -/

/-- A condition has its level to spend; a bad one needs none. -/
theorem reads_condition (hw : setup.Suits all) (hl : LevelReads setup all l d) (hs : s.At all) :
    Reads setup all (condition l) s fun m xs x => Condition m xs x ∧ x.nesting + 1 ≤ max d 1 := by
  refine .bind hs (reads_want hw hs (by decide)) fun os o s₁ _ hs₁ => ?_
  refine .bind hs₁ (reads_recoverExpr hw hs₁ (hl.expr s₁ hs₁)) fun xs x s₂ ht₂ hs₂ => ?_
  refine .bind hs₂ (reads_want hw hs₂ (by decide)) fun rs r s₃ ht₃ hs₃ => .pure fun m _ => ?_
  rintro ⟨rfl, hr⟩ hx ⟨rfl, ho⟩
  rcases hx with ⟨hx, hn⟩ | ⟨he, rfl⟩
  · exact ⟨by simpa using .good ho hx hr, by omega⟩
  · have hempty : xs = [] → s₁.current setup = r := by
      rintro rfl
      exact (current_eq_of_takes_nil setup ht₂).symm.trans (current_eq_of_takes ht₃)
    refine ⟨?_, by simp only [Expr.nesting]; omega⟩
    have hbad : Condition m (o :: (xs ++ [r])) _ := .bad he ho hr
    by_cases hxs : xs = []
    · simpa [hxs, hempty hxs] using hbad
    · simpa [hxs] using hbad

theorem reads_optionalExpr (hl : LevelReads setup all l d) (hs : s.At all) (ending : Token) :
    Reads setup all (optionalExpr l ending) s fun m xs o => OptExpr m xs o ∧ Expr.depthOpt o ≤ d := by
  unfold optionalExpr
  rw [reads_token_bind]
  split
  · exact .pure fun m _ => ⟨.none, Nat.zero_le d⟩
  · refine .bind hs (hl.expr s hs) fun xs x s₁ _ hs₁ => .pure fun m _ => ?_
    rintro ⟨hx, hn⟩
    exact ⟨by simpa using .some hx, hn⟩

/-- A declaration that starts where the state `s₀` stood, perhaps with modifiers in front. -/
theorem reads_varDecl (hw : setup.Suits all) (hl : LevelReads setup all l d) (hs : s.At all) {s₀ : State}
    (hs₀ : s₀.At all) {ws : List Lexeme} (ht₀ : s₀.Takes ws s) (mods : List Token) :
    Reads setup all (varDecl l (s₀.current setup).location mods) s fun m xs v => ∃ t i x,
      Declares m xs t i x ∧ Expr.depthOpt x ≤ d ∧
        v = { location := extent (ws ++ xs), modifiers := mods, type := t, name := i, init := x } := by
  refine .bind hs (reads_typeName hw hs) fun ts t s₁ ht₁ hs₁ => ?_
  refine .bind hs₁ (reads_ident hw hs₁) fun is i s₂ ht₂ hs₂ => ?_
  refine .bind hs₂ (reads_optionalAfter hw hs₂ (by decide) hl.expr) fun xs x s₃ ht₃ hs₃ => ?_
  rw [reads_spanFrom_bind]
  refine .pure fun m _ => ?_
  rintro hx ⟨i, rfl, hi, rfl⟩ ht
  refine ⟨t, i.ident, x, ?_⟩
  rw [spanFrom_current hw hs₀ (ht₀.trans (ht₁.trans (ht₂.trans ht₃))), if_neg (by simp [ht.ne_nil])]
  rcases hx with ⟨rfl, rfl⟩ | ⟨a, ys, x, rfl, ha, rfl, hx, hn⟩
  · exact ⟨by simpa using .bare ht hi, Nat.zero_le d, by simp⟩
  · exact ⟨by simpa using .init ht hi ha hx, hn, by simp⟩

theorem reads_forInit (hw : setup.Suits all) (hl : LevelReads setup all l d) (hs : s.At all) :
    Reads setup all (forInit l) s fun m xs o =>
      ForInit m xs o ∧ (match o with | none => 0 | some s => s.nesting) ≤ d := by
  unfold forInit
  rw [reads_atVarDecl_bind]
  split
  · rw [reads_current_bind]
    refine .bind hs (reads_varDecl hw hl hs hs (.refl s) []) fun xs v s₁ _ hs₁ => .pure fun m _ => ?_
    rintro ⟨t, i, x, hdecl, hn, rfl⟩
    exact ⟨by simpa using .decl hdecl, by simpa only [Stmt.nesting] using hn⟩
  · refine .bind hs (reads_optionalExpr hl hs .semi) fun xs o s₁ _ hs₁ => ?_
    cases o with
    | none =>
      refine .pure fun m _ => ?_
      rintro ⟨ho, -⟩
      cases ho
      exact ⟨.none, Nat.zero_le d⟩
    | some x =>
      refine .pure fun m _ => ?_
      rintro ⟨ho, hn⟩
      cases ho with
      | some hx =>
        rw [hx.location rfl x (by simp)]
        exact ⟨by simpa using .expr hx, hn⟩

/-! ## Statements -/

theorem reads_whileStmt (hw : setup.Suits all) (hl : LevelReads setup all l d) :
    ReadsItem setup all .inside (whileStmt l) d := by
  intro s hs
  refine .bind hs (reads_want hw hs (by decide)) fun ks kw s₁ ht₁ hs₁ => ?_
  refine .bind hs₁ (reads_condition hw hl hs₁) fun cs c s₂ ht₂ hs₂ => ?_
  refine .bind hs₂ (reads_block hw hl hs₂) fun bs b s₃ ht₃ hs₃ => ?_
  rw [reads_spanFrom_bind]
  refine .pure fun m _ => ?_
  rintro ⟨hb, hnb⟩ ⟨hc, hnc⟩ ⟨rfl, hk⟩
  rw [spanFrom_eq_extent hw hs (ht₁.trans (ht₂.trans ht₃))]
  refine ⟨by simpa using .whileLoop hk hc hb, ?_⟩
  have := b.one_le_nesting
  simp only [Stmt.nesting]
  omega

theorem reads_doWhileStmt (hw : setup.Suits all) (hl : LevelReads setup all l d) :
    ReadsItem setup all .inside (doWhileStmt l) d := by
  intro s hs
  refine .bind hs (reads_want hw hs (by decide)) fun ks kw s₁ ht₁ hs₁ => ?_
  refine .bind hs₁ (reads_block hw hl hs₁) fun bs b s₂ ht₂ hs₂ => ?_
  refine .bind hs₂ (reads_want hw hs₂ (by decide)) fun whs wh s₃ ht₃ hs₃ => ?_
  refine .bind hs₃ (reads_condition hw hl hs₃) fun cs c s₄ ht₄ hs₄ => ?_
  refine .bind hs₄ (reads_want hw hs₄ (by decide)) fun ss semi s₅ ht₅ hs₅ => ?_
  rw [reads_spanFrom_bind]
  refine .pure fun m _ => ?_
  rintro ⟨rfl, hsemi⟩ ⟨hc, hnc⟩ ⟨rfl, hwh⟩ ⟨hb, hnb⟩ ⟨rfl, hk⟩
  rw [spanFrom_eq_extent hw hs (ht₁.trans (ht₂.trans (ht₃.trans (ht₄.trans ht₅))))]
  refine ⟨by simpa using .doWhile hk hb hwh hc hsemi, ?_⟩
  have := b.one_le_nesting
  simp only [Stmt.nesting]
  omega

theorem reads_forStmt (hw : setup.Suits all) (hl : LevelReads setup all l d) :
    ReadsItem setup all .inside (forStmt l) d := by
  intro s hs
  refine .bind hs (reads_want hw hs (by decide)) fun ks kw s₁ ht₁ hs₁ => ?_
  refine .bind hs₁ (reads_want hw hs₁ (by decide)) fun os o s₂ ht₂ hs₂ => ?_
  refine .bind hs₂ (reads_forInit hw hl hs₂) fun is init s₃ ht₃ hs₃ => ?_
  refine .bind hs₃ (reads_want hw hs₃ (by decide)) fun ss₁ semi₁ s₄ ht₄ hs₄ => ?_
  refine .bind hs₄ (reads_optionalExpr hl hs₄ .semi) fun cs c s₅ ht₅ hs₅ => ?_
  refine .bind hs₅ (reads_want hw hs₅ (by decide)) fun ss₂ semi₂ s₆ ht₆ hs₆ => ?_
  refine .bind hs₆ (reads_optionalExpr hl hs₆ .rParen) fun us u s₇ ht₇ hs₇ => ?_
  refine .bind hs₇ (reads_want hw hs₇ (by decide)) fun rs r s₈ ht₈ hs₈ => ?_
  refine .bind hs₈ (reads_block hw hl hs₈) fun bs b s₉ ht₉ hs₉ => ?_
  rw [reads_spanFrom_bind]
  refine .pure fun m _ => ?_
  rintro ⟨hb, hnb⟩ ⟨rfl, hr⟩ ⟨hu, hnu⟩ ⟨rfl, hsemi₂⟩ ⟨hc, hnc⟩ ⟨rfl, hsemi₁⟩ ⟨hi, hni⟩ ⟨rfl, ho⟩ ⟨rfl, hk⟩
  rw [spanFrom_eq_extent hw hs
    (ht₁.trans (ht₂.trans (ht₃.trans (ht₄.trans (ht₅.trans (ht₆.trans (ht₇.trans (ht₈.trans ht₉))))))))]
  refine ⟨by simpa using .forLoop hk ho hi hsemi₁ hc hsemi₂ hu hr hb, ?_⟩
  cases init <;> simp only [Stmt.nesting] at hni ⊢ <;> omega

theorem reads_returnStmt (hw : setup.Suits all) (hl : LevelReads setup all l d) :
    ReadsItem setup all .inside (returnStmt l) d := by
  intro s hs
  refine .bind hs (reads_want hw hs (by decide)) fun ks kw s₁ ht₁ hs₁ => ?_
  refine .bind hs₁ (reads_optionalExpr hl hs₁ .semi) fun xs x s₂ ht₂ hs₂ => ?_
  refine .bind hs₂ (reads_want hw hs₂ (by decide)) fun ss semi s₃ ht₃ hs₃ => ?_
  rw [reads_spanFrom_bind]
  refine .pure fun m _ => ?_
  rintro ⟨rfl, hsemi⟩ ⟨hx, hn⟩ ⟨rfl, hk⟩
  rw [spanFrom_eq_extent hw hs (ht₁.trans (ht₂.trans ht₃))]
  exact ⟨by simpa using .ret hk hx hsemi, by simpa only [Stmt.nesting] using hn⟩

/-- Arms are added to a conditional one by one, and the `else` block ends it. -/
theorem reads_arms (hw : setup.Suits all) (hl : LevelReads setup all l d) (hs : s.At all) (ws : List Lexeme)
    (c : Expr) (b : Block) :
    Reads setup all (arms l) s fun m zs r =>
      DerivesStmt m .arms ws [.ifElse (extent ws) c b [] none] →
        DerivesStmt m (.item .inside) (ws ++ zs) [.ifElse (extent (ws ++ zs)) c b r.1 r.2] ∧
        ElseIf.nestings r.1 ≤ d ∧ (match r.2 with | none => 0 | some e => e.nesting) ≤ d := by
  -- the invariant of the loop: what has been read so far is a conditional that may still grow
  refine reads_loop (I := fun m zs r => DerivesStmt m .arms ws [.ifElse (extent ws) c b [] none] →
    DerivesStmt m .arms (ws ++ zs) [.ifElse (extent (ws ++ zs)) c b r.1 none] ∧ ElseIf.nestings r.1 ≤ d) hs ?_ ?_
  · intro m h
    exact ⟨by simpa using h, Nat.zero_le d⟩
  intro zs s₁ r _ hs₁
  unfold armStep
  rw [reads_token_bind]
  split
  · next helse =>
    refine reads_next_bind hw hs₁ (ne_eof_of_token helse (by decide)) fun s₂ _ hs₂ => ?_
    refine .bind hs₂ (reads_got hw hs₂ (by decide)) fun is more s₃ _ hs₃ => ?_
    cases more with
    | true =>
      refine .bind hs₃ (reads_condition hw hl hs₃) fun cs c' s₄ _ hs₄ => ?_
      refine .bind hs₄ (reads_block hw hl hs₄) fun bs b' s₅ _ hs₅ => .pure fun m _ => ?_
      rintro ⟨hb, hnb⟩ ⟨hc, hnc⟩ hif
      refine ⟨by simp, fun hI harms => ?_⟩
      obtain ⟨has, hnas⟩ := hI harms
      rcases hif with ⟨-, kw, rfl, hkw⟩ | ⟨hfalse, -⟩
      · rw [hb.block_location, location_through (s₁.current setup) (kw :: cs) (hb.ne_nil (by simp))]
        refine ⟨by simpa using DerivesStmt.elseIf has helse hkw hc hb, ?_⟩
        have := b'.one_le_nesting
        simp only [ElseIf.nestings_append, ElseIf.nestings, ElseIf.nesting]
        omega
      · simp at hfalse
    | false =>
      refine .bind hs₃ (reads_block hw hl hs₃) fun bs e s₄ _ hs₄ => .pure fun m _ => ?_
      rintro ⟨he, hne⟩ hif hI harms
      obtain ⟨has, hnas⟩ := hI harms
      rcases hif with ⟨hfalse, -⟩ | ⟨-, rfl⟩
      · simp at hfalse
      · exact ⟨by simpa using DerivesStmt.ifElse has helse he, hnas, hne⟩
  · refine .pure fun m _ hI harms => ?_
    obtain ⟨has, hnas⟩ := hI harms
    exact ⟨by simpa using .ifStmt has, hnas, Nat.zero_le d⟩

/-- A conditional is derived arm by arm. -/
theorem reads_ifStmt (hw : setup.Suits all) (hl : LevelReads setup all l d) :
    ReadsItem setup all .inside (ifStmt l) d := by
  intro s hs
  refine .bind hs (reads_want hw hs (by decide)) fun ks kw s₁ ht₁ hs₁ => ?_
  refine .bind hs₁ (reads_condition hw hl hs₁) fun cs c s₂ ht₂ hs₂ => ?_
  refine .bind hs₂ (reads_block hw hl hs₂) fun bs b s₃ ht₃ hs₃ => ?_
  refine .bind hs₃ (reads_arms hw hl hs₃ (kw :: (cs ++ bs)) c b) fun as r s₄ ht₄ hs₄ => ?_
  obtain ⟨elseIfs, otherwise⟩ := r
  rw [reads_spanFrom_bind]
  refine .pure fun m _ => ?_
  rintro has ⟨hb, hnb⟩ ⟨hc, hnc⟩ ⟨rfl, hk⟩
  rw [spanFrom_eq_extent hw hs (ht₁.trans (ht₂.trans (ht₃.trans ht₄)))]
  obtain ⟨hif, hnas, hne⟩ := has (.arm hk hc hb)
  refine ⟨by simpa using hif, ?_⟩
  have := b.one_le_nesting
  dsimp only at hnas
  cases otherwise <;> simp only [Stmt.nesting] at hne ⊢ <;> omega

/-- Clauses are added to a protected block one by one. -/
theorem reads_catchClauses (hw : setup.Suits all) (hl : LevelReads setup all l d) (hs : s.At all)
    (ws : List Lexeme) (b : Block) :
    Reads setup all (catchClauses l) s fun m zs cs =>
      DerivesStmt m .clauses ws [.tryCatch (extent ws) b [] none] →
        DerivesStmt m .clauses (ws ++ zs) [.tryCatch (extent (ws ++ zs)) b cs none] ∧
        CatchClause.nestings cs ≤ d := by
  refine reads_loop (I := fun m zs cs => DerivesStmt m .clauses ws [.tryCatch (extent ws) b [] none] →
    DerivesStmt m .clauses (ws ++ zs) [.tryCatch (extent (ws ++ zs)) b cs none] ∧
    CatchClause.nestings cs ≤ d) hs ?_ ?_
  · intro m h
    exact ⟨by simpa using h, Nat.zero_le d⟩
  intro zs s₁ cs _ hs₁
  unfold catchStep
  rw [reads_token_bind]
  split
  · next hcatch =>
    refine reads_next_bind hw hs₁ (ne_eof_of_token hcatch (by decide)) fun s₂ _ hs₂ => ?_
    refine .bind hs₂ (reads_want hw hs₂ (by decide)) fun os o s₃ _ hs₃ => ?_
    refine .bind hs₃ (reads_typeName hw hs₃) fun ts t s₄ _ hs₄ => ?_
    refine .bind hs₄ (reads_ident hw hs₄) fun is i s₅ _ hs₅ => ?_
    refine .bind hs₅ (reads_want hw hs₅ (by decide)) fun rs r s₆ _ hs₆ => ?_
    refine .bind hs₆ (reads_block hw hl hs₆) fun bs b' s₇ _ hs₇ => .pure fun m _ => ?_
    rintro ⟨hb, hnb⟩ ⟨rfl, hr⟩ ⟨i, rfl, hi, rfl⟩ ht ⟨rfl, ho⟩
    refine ⟨by simp, fun hI hclauses => ?_⟩
    obtain ⟨hcs, hncs⟩ := hI hclauses
    rw [hb.block_location, location_through (s₁.current setup) (o :: (ts ++ [i, r])) (hb.ne_nil (by simp))]
    refine ⟨by simpa using DerivesStmt.catchClause hcs hcatch ho ht hi hr hb, ?_⟩
    simp only [CatchClause.nestings_append, CatchClause.nestings, CatchClause.nesting]
    omega
  · refine .pure fun m _ hI hclauses => ?_
    simpa using hI hclauses

/-- A protected block that nothing handles is reported, and that may halt the parse; the tokens then given up are
behind the statement. -/
theorem reads_tryStmt (hw : setup.Suits all) (hl : LevelReads setup all l d) :
    ReadsItem setup all .inside (tryStmt l) d := by
  intro s hs
  refine .bind hs (reads_want hw hs (by decide)) fun ks kw s₁ ht₁ hs₁ => ?_
  refine .bind hs₁ (reads_block hw hl hs₁) fun bs b s₂ ht₂ hs₂ => ?_
  refine .bind hs₂ (reads_catchClauses hw hl hs₂ (kw :: bs) b) fun zs cs s₃ ht₃ hs₃ => ?_
  refine .bind hs₃ (reads_optionalAfter hw hs₃ (by decide) fun s hs => reads_block hw hl hs)
    fun fs f s₄ ht₄ hs₄ => ?_
  rw [reads_spanFrom_bind]
  split
  · -- nothing handles it
    next hnone =>
    simp only [Bool.and_eq_true, List.isEmpty_iff, Option.isNone_iff_eq_none] at hnone
    obtain ⟨rfl, rfl⟩ := hnone
    refine .bind hs₄ (reads_report hs₄ _ _) fun junk _ s₅ ht₅ hs₅ => .pure fun m _ => ?_
    rintro ⟨-, hlax, hjunk⟩ hf hcs ⟨hb, hnb⟩ ⟨rfl, hk⟩
    have hfs : fs = [] := by simpa using hf
    subst hfs
    rw [spanFrom_eq_extent hw hs (ht₁.trans (ht₂.trans (ht₃.trans ht₄)))]
    obtain ⟨hcs, -⟩ := hcs (.guarded hk hb)
    have htry := DerivesStmt.tryStmt hcs (.inl hlax) (hjunk.imp_right And.left)
    exact ⟨by simpa using htry, by simpa [Stmt.nesting, CatchClause.nestings] using hnb⟩
  · next hsome =>
    refine .pure fun m _ => ?_
    rintro hf hcs ⟨hb, hnb⟩ ⟨rfl, hk⟩
    rw [spanFrom_eq_extent hw hs (ht₁.trans (ht₂.trans (ht₃.trans ht₄)))]
    obtain ⟨hcs, hncs⟩ := hcs (.guarded hk hb)
    rcases hf with ⟨rfl, rfl⟩ | ⟨kw', ys, f, rfl, hkw', rfl, hf, hnf⟩
    · have hne : cs ≠ [] := by simpa using hsome
      have htry : DerivesStmt m _ (_ ++ []) _ := .tryStmt hcs (.inr hne) (.inl rfl)
      refine ⟨by simpa using htry, ?_⟩
      simp only [Stmt.nesting]
      omega
    · refine ⟨by simpa using DerivesStmt.tryFinally hcs hkw' hf, ?_⟩
      simp only [Stmt.nesting]
      omega

/-- What looks ahead to a type and a name is derived as a declaration, and anything else as an expression. -/
theorem reads_simpleStmt (hw : setup.Suits all) (hl : LevelReads setup all l d) (hs : s.At all)
    (hbrace : (s.current setup).token ≠ .lBrace) :
    Reads setup all (simpleStmt l) s fun m xs t => DerivesStmt m (.item .inside) xs [t] ∧ t.nesting ≤ d := by
  unfold simpleStmt
  rw [reads_atVarDecl_bind]
  split
  · rw [reads_current_bind]
    refine .bind hs (reads_varDecl hw hl hs hs (.refl s) []) fun xs v s₁ _ hs₁ => ?_
    refine .bind hs₁ (reads_want hw hs₁ (by decide)) fun ss semi s₂ _ hs₂ => .pure fun m _ => ?_
    rintro ⟨rfl, hsemi⟩ ⟨t, i, x, hdecl, hn, rfl⟩
    refine ⟨?_, by simpa only [Stmt.nesting] using hn⟩
    rw [List.nil_append, through_location hdecl.ne_nil [] semi]
    simpa using DerivesStmt.varDecl hdecl hsemi
  · refine .bind hs (hl.expr s hs) fun xs x s₁ ht₁ hs₁ => ?_
    refine .bind hs₁ (reads_want hw hs₁ (by decide)) fun ss semi s₂ _ hs₂ => .pure fun m _ => ?_
    rintro ⟨rfl, hsemi⟩ ⟨hx, hn⟩
    refine ⟨?_, by simpa only [Stmt.nesting] using hn⟩
    rw [hx.location rfl x (by simp), through_location hx.ne_nil [] semi]
    obtain ⟨y, ys, rfl⟩ := List.exists_cons_of_ne_nil hx.ne_nil
    rw [current_eq_of_takes ht₁] at hbrace
    simpa using DerivesStmt.expr hx hbrace hsemi

/-- The current token settles which production the statement is made by. -/
theorem reads_stmtAt (hw : setup.Suits all) (hl : LevelReads setup all l d) :
    ReadsItem setup all .inside (stmtAt l) d := by
  intro s hs
  unfold stmtAt
  rw [reads_token_bind]
  split
  · refine .bind hs (reads_block hw hl hs) fun xs b s₁ _ hs₁ => .pure fun m _ => ?_
    rintro ⟨hb, hn⟩
    exact ⟨by simpa using .braced hb, by simpa only [Stmt.nesting] using hn⟩
  · next hsemi =>
    refine reads_next_bind hw hs (ne_eof_of_token hsemi (by decide)) fun s₁ _ hs₁ => .pure fun m _ => ?_
    exact ⟨.empty hsemi, Nat.zero_le d⟩
  · exact reads_ifStmt hw hl s hs
  · exact reads_whileStmt hw hl s hs
  · exact reads_doWhileStmt hw hl s hs
  · exact reads_forStmt hw hl s hs
  · exact reads_tryStmt hw hl s hs
  · exact reads_returnStmt hw hl s hs
  · next hbrace _ _ _ _ _ _ _ => exact reads_simpleStmt hw hl hs hbrace

/-! ## All levels -/

/-- **Statements of every level**, by induction on the number of levels. -/
theorem levelReads (hw : setup.Suits all) (d : Nat) : LevelReads setup all (level d) d := by
  induction d with
  | zero => exact ⟨reads_expr hw 0, fun p h => nomatch h⟩
  | succ d ih =>
    refine ⟨reads_expr hw (d + 1), ?_⟩
    rintro p ⟨⟩
    refine ⟨d, rfl, ?_⟩
    rw [stmt_eq_stmtAt]
    exact reads_stmtAt hw ih

theorem reads_stmt (hw : setup.Suits all) (d : Nat) : ReadsItem setup all .inside (stmt d) d := by
  rw [stmt_eq_stmtAt]
  exact reads_stmtAt hw (levelReads hw d)

/-! ## Declarations -/

theorem reads_modifiers :
    Reads setup all modifiers s fun _ xs ts => (∀ k ∈ xs, k.token.isModifier = true) ∧ ts = xs.map (·.token) := by
  have ht := State.Takes.skip s ((s.rest.takeWhile (·.token.isModifier)).map (·.token)).length
  rw [List.length_map, ← List.prefix_iff_eq_take.1 (List.takeWhile_prefix _)] at ht
  have hrun : modifiers setup s = .ok ((s.rest.takeWhile (·.token.isModifier)).map (·.token))
      (s.skip ((s.rest.takeWhile (·.token.isModifier)).map (·.token)).length) := rfl
  rw [List.length_map] at hrun
  exact .of_ok hrun ht fun m _ => ⟨List.all_eq_true.1 List.all_takeWhile, rfl⟩

theorem reads_param (hw : setup.Suits all) (hs : s.At all) :
    Reads setup all param s fun _ xs p => IsParam xs p := by
  unfold param
  rw [reads_current_bind]
  refine .bind hs (reads_typeName hw hs) fun ts t s₁ ht₁ hs₁ => ?_
  refine .bind hs₁ (reads_ident hw hs₁) fun is i s₂ ht₂ hs₂ => ?_
  rw [reads_spanFrom_bind]
  refine .pure fun m _ => ?_
  rintro ⟨i, rfl, hi, rfl⟩ ht
  rw [spanFrom_current hw hs (ht₁.trans ht₂), if_neg (by simp)]
  simpa using IsParam.mk ht hi

theorem ParamList.concat {xs ys : List Lexeme} {ps : List Param} {c : Lexeme} {p : Param}
    (h : ParamList xs ps) (hc : c.token = .comma) (hp : IsParam ys p) :
    ParamList (xs ++ c :: ys) (ps ++ [p]) := by
  induction h with
  | one h => exact .more h hc (.one hp)
  | more h hc' _ ih => simpa using ParamList.more h hc' ih

/-- A method that starts where the state `s₀` stood, with modifiers in front. -/
theorem reads_methodDecl (hw : setup.Suits all) (hl : LevelReads setup all l d) (hs : s.At all) {s₀ : State}
    (hs₀ : s₀.At all) {ws : List Lexeme} (ht₀ : s₀.Takes ws s) {p : Place} (hp : p ≠ .inside) (mods : List Token) :
    Reads setup all (methodDecl l (s₀.current setup).location mods) s fun m xs t =>
      (∀ k ∈ ws, k.token.isModifier = true) ∧ mods = ws.map (·.token) →
        DerivesStmt m (.item p) (ws ++ xs) [t] ∧ t.nesting ≤ d := by
  refine .bind hs (reads_typeName hw hs) fun ts t s₁ ht₁ hs₁ => ?_
  refine .bind hs₁ (reads_ident hw hs₁) fun is i s₂ ht₂ hs₂ => ?_
  refine .bind hs₂ (reads_want hw hs₂ (by decide)) fun os o s₃ ht₃ hs₃ => ?_
  refine .bind hs₃ (reads_separatedUntil (P := fun _ => IsParam) (L := fun _ => ParamList) hw
    (fun _ _ _ => .one) (fun _ _ _ _ _ _ => ParamList.concat) (fun _ => reads_param hw) hs₃ .rParen)
    fun ps params s₄ ht₄ hs₄ => ?_
  refine .bind hs₄ (reads_want hw hs₄ (by decide)) fun rs r s₅ ht₅ hs₅ => ?_
  refine .bind hs₅ (reads_block hw hl hs₅) fun bs b s₆ ht₆ hs₆ => ?_
  rw [reads_spanFrom_bind]
  refine .pure fun m _ => ?_
  rintro ⟨hb, hnb⟩ ⟨rfl, hr⟩ hparams ⟨rfl, ho⟩ ⟨i, rfl, hi, rfl⟩ ht ⟨hmods, rfl⟩
  rw [spanFrom_current hw hs₀ (ht₀.trans (ht₁.trans (ht₂.trans (ht₃.trans (ht₄.trans (ht₅.trans ht₆)))))),
    if_neg (by simp)]
  have hps : Params (o :: (ps ++ [r])) params := by
    rcases hparams with ⟨rfl, rfl⟩ | hparams
    · exact .none ho hr
    · exact .some ho hparams hr
  exact ⟨by simpa using DerivesStmt.method hp hmods ht hi hps hb, by simpa only [Stmt.nesting] using hnb⟩

theorem reads_member (hw : setup.Suits all) (hl : LevelReads setup all l d) :
    ReadsItem setup all .member (member l) d := by
  intro s hs
  unfold member
  rw [reads_current_bind]
  refine .bind hs reads_modifiers fun ws mods s₁ ht₁ hs₁ => ?_
  rw [reads_atMethodDecl_bind]
  split
  · exact reads_methodDecl hw hl hs₁ hs ht₁ (by simp) mods
  · refine .bind hs₁ (reads_varDecl hw hl hs₁ hs ht₁ mods) fun xs v s₂ ht₂ hs₂ => ?_
    refine .bind hs₂ (reads_want hw hs₂ (by decide)) fun ss semi s₃ ht₃ hs₃ => ?_
    rw [reads_spanFrom_bind]
    refine .pure fun m _ => ?_
    rintro ⟨rfl, hsemi⟩ ⟨t, i, x, hdecl, hn, rfl⟩ ⟨hmods, rfl⟩
    rw [spanFrom_current hw hs (ht₁.trans (ht₂.trans ht₃)), if_neg (by simp)]
    exact ⟨by simpa using DerivesStmt.field hmods hdecl hsemi, by simpa only [Stmt.nesting] using hn⟩

/-- From where the state `s₀` stood to the end of the tokens `ys`. -/
theorem current_through (setup : Setup) {s₀ : State} (ws ys : List Lexeme) (ht : s₀.Takes (ws ++ ys) s) (hy : ys ≠ []) :
    (s₀.current setup).location.through (extent ys) = extent (ws ++ ys) := by
  cases ws with
  | nil =>
    obtain ⟨y, ys, rfl⟩ := List.exists_cons_of_ne_nil hy
    rw [current_eq_of_takes ht]
    rfl
  | cons w ws =>
    rw [current_eq_of_takes ht]
    exact location_through w ws hy

/-- A class starts at its modifiers, which have been taken before. -/
theorem reads_classDecl {inside : Option Level} (hw : setup.Suits all)
    (hi : ∀ l, inside = some l → ∃ d', d = d' + 1 ∧ LevelReads setup all l d') (hs : s.At all) {s₀ : State}
    {ws : List Lexeme} (ht₀ : s₀.Takes ws s) (mods : List Token) :
    Reads setup all (classDecl inside (s₀.current setup).location mods) s fun m xs t =>
      (∀ k ∈ ws, k.token.isModifier = true) ∧ mods = ws.map (·.token) →
        DerivesStmt m (.item .top) (ws ++ xs) [t] ∧ t.nesting ≤ d := by
  refine .bind hs (reads_want hw hs (by decide)) fun ks kw s₁ ht₁ hs₁ => ?_
  refine .bind hs₁ (reads_ident hw hs₁) fun is i s₂ ht₂ hs₂ => ?_
  refine reads_nested hs₂ fun l hsome => ?_
  obtain ⟨d', rfl, hl⟩ := hi l hsome
  refine .bind hs₂ (reads_want hw hs₂ (by decide)) fun os o s₃ ht₃ hs₃ => ?_
  refine .bind hs₃ (reads_statements hw (reads_member hw hl) hs₃) fun xs ss s₄ ht₄ hs₄ => ?_
  refine .bind hs₄ (reads_closeBrace hw hs₄ o) fun rs loc s₅ ht₅ hs₅ => .pure fun m _ => ?_
  rintro hclose ⟨hss, hn⟩ ⟨rfl, ho⟩ ⟨i, rfl, hi, rfl⟩ ⟨rfl, hk⟩ ⟨hmods, rfl⟩
  refine ⟨?_, by simp only [Stmt.nesting]; omega⟩
  have ht := ht₀.trans (ht₁.trans (ht₂.trans ht₃))
  rcases hclose with ⟨r, rfl, hr, rfl⟩ | ⟨he, rfl, rfl⟩
  · rw [← extent_concat o r xs]
    have hall : s₀.Takes (ws ++ [kw, i] ++ o :: (xs ++ [r])) s₅ := by simpa using ht.trans (ht₄.trans ht₅)
    rw [current_through setup _ _ hall (by simp)]
    simpa using DerivesStmt.classDecl hmods hk hi ho hss hr
  · have hopen : s₂.Takes (o :: xs) s₄ := ht₃.trans ht₄
    have hall : s₀.Takes (ws ++ [kw, i] ++ o :: xs) s₄ := by simpa using ht.trans ht₄
    rw [spanFrom_eq_extent hw hs₂ hopen, current_through setup _ _ hall (by simp)]
    simpa using DerivesStmt.openClass he hmods hk hi ho hss

/-- **A statement of the outermost level** is derived. -/
theorem reads_topStmt (hw : setup.Suits all) (d : Nat) : ReadsItem setup all .top (topStmt d) d := by
  intro s hs
  unfold topStmt
  rw [reads_current_bind, reads_atMethodDecl_bind]
  split
  · refine .bind hs reads_modifiers fun ws mods s₁ ht₁ hs₁ => ?_
    rw [reads_token_bind]
    split
    · have hinside : ∀ l, levelInside d = some l → ∃ d', d = d' + 1 ∧ LevelReads setup all l d' := by
        intro l hsome
        cases d with
        | zero => cases hsome
        | succ d =>
          cases hsome
          exact ⟨d, rfl, levelReads hw d⟩
      exact reads_classDecl hw hinside hs₁ ht₁ mods
    · rw [reads_atMethodDecl_bind]
      split
      · exact reads_methodDecl hw (levelReads hw d) hs₁ hs ht₁ (by simp) mods
      · rw [reads_current_bind]
        exact reads_fail hs₁ _
  · exact (reads_stmt hw d s hs).mono fun m xs t h => ⟨.stmt h.1, h.2⟩

/-- One more statement of a text, which is done when there are no more tokens. -/
theorem reads_topStep (hw : setup.Suits all) (d : Nat) {zs : List Lexeme} {s' : State} (ss : List Stmt)
    (ht : s.Takes zs s') (hs' : s'.At all) :
    Reads setup all (topStep d ss) s'
      (StepPost (fun m xs ss => DerivesStmt m (.list .top) xs ss ∧ Stmt.nestings ss ≤ d)
        (fun m xs ss => xs = s.rest ∧ DerivesProgram m xs ss ∧ Stmt.nestings ss ≤ d) zs ss) := by
  unfold topStep
  rw [reads_token_bind]
  split
  · next heof =>
    have hrest := (token_eq_eof_iff hw hs').1 heof
    refine .pure fun m _ hI => ?_
    rw [List.append_nil]
    exact ⟨by rw [ht.rest, hrest, List.append_nil], hI⟩
  · next hne => exact reads_recovering_step hw (reads_topStmt hw d) hs' hne zs ss

/-- **A text is read as a derivation** of all its tokens, no deeper than the limit. -/
theorem reads_topStmts (hw : setup.Suits all) (d : Nat) (hs : s.At all) :
    Reads setup all (topStmts d) s fun m xs ss =>
      xs = s.rest ∧ DerivesProgram m xs ss ∧ Stmt.nestings ss ≤ d :=
  reads_loop (I := fun m xs ss => DerivesStmt m (.list .top) xs ss ∧ Stmt.nestings ss ≤ d) hs
    (fun _ => ⟨.nil, Nat.zero_le d⟩) fun _ _ ss ht hs' => reads_topStep hw d ss ht hs'

/-- Reading a text does not bail out. -/
theorem topStmts_succeeds (hw : setup.Suits all) (d : Nat) (hs : s.At all) :
    ∃ ss s', topStmts d setup s = .ok ss s' := by
  refine loop_succeeds hs (fun _ _ ss ht hs' => reads_topStep hw d ss ht hs') fun s' ss hs' => ?_
  by_cases heof : (s'.current setup).token = .eof
  · refine ⟨.done ss, s', ?_⟩
    show (if (s'.current setup).token = .eof then _ else _ : Parser _) setup s' = _
    rw [if_pos heof]
    rfl
  · obtain ⟨t, s'', hr⟩ := recoverStmt_succeeds (reads_topStmt hw d s' hs')
    refine ⟨.yield (ss ++ [t]), s'', ?_⟩
    show (if (s'.current setup).token = .eof then _ else _ : Parser _) setup s' = _
    rw [if_neg heof]
    exact bind_ok _ hr

end Parser

end SmallJava
