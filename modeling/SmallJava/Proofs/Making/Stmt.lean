import SmallJava.Proofs.Making.Expr
import SmallJava.Proofs.Printing.Stmt

/-!
# Statements made of tokens

A tree that nobody has parsed has no tokens, but tokens can be found for it if its nodes are sound: then each node is
derived from some tokens, up to its location, if the nodes below it are. Where a statement stands decides which symbol
derives it, and the same statement may stand in several places.

* `StmtSymbol.Makes` — the symbol derives the statements from some tokens, with one lemma for each production;
* `Node.Sound` — what is asked of a node;
* `Node.isMade` — there are tokens for a tree all of whose nodes are sound.
-/

namespace SmallJava

open Grammar
open Token (token_mark token_lexeme)

namespace Grammar

variable {m : Mode}

/-! ## Parts of statements -/

/-- Modifiers are tokens that stand for themselves. -/
theorem exists_modifiers {mods : List Token} (h : ∀ t ∈ mods, t.isModifier = true) :
    ∃ ks : List Lexeme, (∀ k ∈ ks, k.token.isModifier = true) ∧ (∀ k ∈ ks, k.Faithful) ∧ ks.map (·.token) = mods := by
  refine ⟨mods.map Token.mark, by simpa using h, ?_, by simp [Function.comp_def]⟩
  refine List.forall_mem_map.2 fun t ht => Token.faithful_mark (.inl ?_)
  have hmod := h t ht
  cases t <;> first | rfl | cases hmod

theorem exists_condition {c : Expr} (h : ExprSymbol.expr.Makes m [c]) :
    ∃ xs u, Condition m xs u ∧ (∀ x ∈ xs, x.Faithful) ∧ u.unlocated = c.unlocated := by
  obtain ⟨xs, u, hu, hf, huc⟩ := h.single
  refine ⟨_, u, .good (token_mark _) hu (token_mark _), ?_, huc⟩
  simpa +decide [or_imp, forall_and, Token.faithful_mark] using hf

theorem exists_optExpr {o : Option Expr} (h : ∀ x ∈ o, ExprSymbol.expr.Makes m [x]) :
    ∃ xs u, OptExpr m xs u ∧ (∀ x ∈ xs, x.Faithful) ∧ u.map Expr.unlocated = o.map Expr.unlocated := by
  cases o with
  | none => exact ⟨[], none, .none, List.forall_mem_nil _, rfl⟩
  | some x =>
    obtain ⟨xs, u, hu, hf, hux⟩ := (h x rfl).single
    exact ⟨xs, some u, .some hu, hf, by simp [hux]⟩

/-- A declaration is made of its type, its name and its value. -/
theorem exists_declares {t : TypeName} {i : Ident} {o : Option Expr} (ht : t.IsSpelled) (hi : IsName i.name)
    (ho : ∀ x ∈ o, ExprSymbol.expr.Makes m [x]) :
    ∃ xs t' i' o', Declares m xs t' i' o' ∧ (∀ x ∈ xs, x.Faithful) ∧ t'.unlocated = t.unlocated ∧
      i'.unlocated = i.unlocated ∧ o'.map Expr.unlocated = o.map Expr.unlocated := by
  obtain ⟨xs, t', ht', hfx, htt⟩ := ht.typeRef
  have hname : (Token.ident.lexeme i.name).ident.unlocated = i.unlocated := by simp [Lexeme.ident, Ident.unlocated]
  cases o with
  | none =>
    refine ⟨_, t', _, none, .bare ht' (token_lexeme _ i.name), ?_, htt, hname, rfl⟩
    exact List.forall_mem_append.2 ⟨hfx, List.forall_mem_singleton.2 hi.faithful⟩
  | some x =>
    obtain ⟨ys, u, hu, hfy, hux⟩ := (ho x rfl).single
    refine ⟨_, t', _, some u, .init ht' (token_lexeme _ i.name) (token_mark _) hu, ?_, htt,
      hname, by simp [hux]⟩
    simpa +decide [or_imp, forall_and, Token.faithful_mark, hi.faithful] using ⟨hfx, hfy⟩

theorem exists_param {p : Param} (h : p.type.IsSpelled ∧ IsName p.name.name) :
    ∃ xs q, IsParam xs q ∧ (∀ x ∈ xs, x.Faithful) ∧ q.unlocated = p.unlocated := by
  obtain ⟨xs, t, ht, hf, htt⟩ := h.1.typeRef
  refine ⟨_, _, .mk ht (token_lexeme _ p.name.name), ?_, ?_⟩
  · exact List.forall_mem_append.2 ⟨hf, List.forall_mem_singleton.2 h.2.faithful⟩
  · simp [Param.unlocated, htt, Lexeme.ident, Ident.unlocated]

theorem exists_paramList {ps : List Param} (h : ∀ p ∈ ps, p.type.IsSpelled ∧ IsName p.name.name) (hne : ps ≠ []) :
    ∃ xs qs, ParamList xs qs ∧ (∀ x ∈ xs, x.Faithful) ∧ qs.map Param.unlocated = ps.map Param.unlocated := by
  induction ps with
  | nil => exact absurd rfl hne
  | cons p ps ih =>
    obtain ⟨hp, hps⟩ := List.forall_mem_cons.1 h
    obtain ⟨xs, q, hq, hfx, hqp⟩ := exists_param hp
    by_cases hlast : ps = []
    · subst hlast
      exact ⟨xs, [q], .one hq, hfx, by simp [hqp]⟩
    · obtain ⟨ys, qs, hqs, hfy, hsame⟩ := ih hps hlast
      refine ⟨_, _, .more hq (token_mark _) hqs, ?_, by simp [hqp, hsame]⟩
      simpa +decide [or_imp, forall_and, Token.faithful_mark] using ⟨hfx, hfy⟩

/-- Parameters are made of types and names, in parentheses. -/
theorem exists_params {ps : List Param} (h : ∀ p ∈ ps, p.type.IsSpelled ∧ IsName p.name.name) :
    ∃ xs qs, Params xs qs ∧ (∀ x ∈ xs, x.Faithful) ∧ qs.map Param.unlocated = ps.map Param.unlocated := by
  by_cases hne : ps = []
  · subst hne
    refine ⟨_, _, .none (token_mark _) (token_mark _), ?_, rfl⟩
    simp +decide [Token.faithful_mark]
  · obtain ⟨xs, qs, hqs, hf, hsame⟩ := exists_paramList h hne
    refine ⟨_, _, .some (token_mark _) hqs (token_mark _), ?_, hsame⟩
    simpa +decide [or_imp, forall_and, Token.faithful_mark] using hf

/-! ## Statements -/

/-- The symbol derives the statements from some tokens, up to their locations. -/
def StmtSymbol.Makes (m : Mode) (sym : StmtSymbol) (ss : List Stmt) : Prop :=
  ∃ xs us, DerivesStmt m sym xs us ∧ (∀ x ∈ xs, x.Faithful) ∧ Stmt.unlocatedAll us = Stmt.unlocatedAll ss

namespace StmtSymbol.Makes

variable {sym sym' : StmtSymbol} {s : Stmt} {ss : List Stmt} {b : Block} {c : Expr} {loc : Location}
  {as : List ElseIf} {cs : List CatchClause} {i : Ident} {t : TypeName} {o : Option Expr} {mods : List Token}

/-- Tokens from which a statement of the same structure is derived. -/
theorem single (h : sym.Makes m [s]) :
    ∃ xs u, DerivesStmt m sym xs [u] ∧ (∀ x ∈ xs, x.Faithful) ∧ u.unlocated = s.unlocated := by
  obtain ⟨xs, us, hus, hf, heq⟩ := h
  obtain ⟨u, rfl, hu⟩ := unlocatedAll_eq_stmt heq
  exact ⟨xs, u, hus, hf, hu⟩

/-- Tokens from which a block of the same structure is derived. -/
theorem body (h : StmtSymbol.block.Makes m [.block b]) :
    ∃ xs u, DerivesStmt m .block xs [.block u] ∧ (∀ x ∈ xs, x.Faithful) ∧ u.unlocated = b.unlocated := by
  obtain ⟨xs, s, hs, hf, heq⟩ := h.single
  obtain ⟨u, hu⟩ := hs.eq_block
  cases hu
  exact ⟨xs, u, hs, hf, by simpa using heq⟩

/-- One symbol stands for another. -/
theorem lift (h : sym.Makes m [s]) (hd : ∀ xs u, DerivesStmt m sym xs [u] → DerivesStmt m sym' xs [u]) :
    sym'.Makes m [s] := by
  obtain ⟨xs, u, hu, hf, heq⟩ := h.single
  exact ⟨xs, [u], hd xs u hu, hf, by simp [heq]⟩

/-! ### Blocks and lists -/

/-- Statements are put together one behind the other. -/
theorem list {p : Place} (h : ∀ s ∈ ss, (StmtSymbol.item p).Makes m [s]) : (StmtSymbol.list p).Makes m ss := by
  induction ss with
  | nil => exact ⟨[], [], .nil, List.forall_mem_nil _, rfl⟩
  | cons s ss ih =>
    obtain ⟨hs, hss⟩ := List.forall_mem_cons.1 h
    obtain ⟨xs, u, hu, hfx, hus⟩ := hs.single
    obtain ⟨ys, us, husd, hfy, hsame⟩ := ih hss
    exact ⟨_, _, .cons hu husd, List.forall_mem_append.2 ⟨hfx, hfy⟩, by simp [hus, hsame]⟩

theorem block (h : ∀ s ∈ ss, (StmtSymbol.item .inside).Makes m [s]) :
    StmtSymbol.block.Makes m [.block (.mk loc ss)] := by
  obtain ⟨xs, us, hus, hf, hsame⟩ := list h
  refine ⟨_, _, .block (token_mark _) hus (token_mark _), ?_, by simp [hsame]⟩
  simpa +decide [or_imp, forall_and, Token.faithful_mark] using hf

/-! ### Simple statements -/

/-- An expression that starts with a brace would be read as a block. -/
theorem expr {x : Expr} (hx : ExprSymbol.expr.Makes m [x]) (hbrace : x.text.head? ≠ some (byte '\x7b')) :
    (StmtSymbol.item .inside).Makes m [.expr loc x] := by
  obtain ⟨xs, u, hu, hf, hux⟩ := hx.single
  obtain ⟨y, ys, rfl⟩ := List.exists_cons_of_ne_nil hu.ne_nil
  have hy : y.token ≠ .lBrace := by
    intro hy
    obtain ⟨r, hr⟩ := hu.text_of_brace y rfl hy u rfl
    rw [← Expr.text_unlocated, hux, Expr.text_unlocated] at hr
    exact hbrace (by rw [hr]; rfl)
  refine ⟨_, _, .expr hu hy (token_mark _), ?_, by simp [hux]⟩
  simpa +decide [or_imp, forall_and, Token.faithful_mark] using hf

theorem empty : (StmtSymbol.item .inside).Makes m [.empty loc] := by
  refine ⟨_, _, .empty (token_mark _), ?_, rfl⟩
  simp +decide [Token.faithful_mark]

theorem ret (ho : ∀ x ∈ o, ExprSymbol.expr.Makes m [x]) : (StmtSymbol.item .inside).Makes m [.ret loc o] := by
  obtain ⟨xs, u, hu, hf, huo⟩ := exists_optExpr ho
  refine ⟨_, _, .ret (token_mark _) hu (token_mark _), ?_, by simp [huo]⟩
  simpa +decide [or_imp, forall_and, Token.faithful_mark] using hf

/-- Inside a block a declaration has no modifiers. -/
theorem varDecl {d : VarDecl} (hmods : d.modifiers = []) (ht : d.type.IsSpelled) (hi : IsName d.name.name)
    (ho : ∀ x ∈ d.init, ExprSymbol.expr.Makes m [x]) : (StmtSymbol.item .inside).Makes m [.varDecl d] := by
  obtain ⟨xs, t, i, u, hu, hf, htt, hii, huo⟩ := exists_declares ht hi ho
  refine ⟨_, _, .varDecl hu (token_mark _), ?_, ?_⟩
  · simpa +decide [or_imp, forall_and, Token.faithful_mark] using hf
  · simp [VarDecl.unlocated, hmods, htt, hii, huo]

/-! ### Loops -/

theorem whileLoop (hc : ExprSymbol.expr.Makes m [c]) (hb : StmtSymbol.block.Makes m [.block b]) :
    (StmtSymbol.item .inside).Makes m [.whileLoop loc c b] := by
  obtain ⟨xs, u, hu, hfx, huc⟩ := exists_condition hc
  obtain ⟨ys, v, hv, hfy, hvb⟩ := hb.body
  refine ⟨_, _, .whileLoop (token_mark _) hu hv, ?_, by simp [huc, hvb]⟩
  simpa +decide [or_imp, forall_and, Token.faithful_mark] using ⟨hfx, hfy⟩

theorem doWhile (hb : StmtSymbol.block.Makes m [.block b]) (hc : ExprSymbol.expr.Makes m [c]) :
    (StmtSymbol.item .inside).Makes m [.doWhile loc b c] := by
  obtain ⟨xs, v, hv, hfx, hvb⟩ := hb.body
  obtain ⟨ys, u, hu, hfy, huc⟩ := exists_condition hc
  refine ⟨_, _, .doWhile (token_mark _) hv (token_mark _) hu (token_mark _),
    ?_, by simp [huc, hvb]⟩
  simpa +decide [or_imp, forall_and, Token.faithful_mark] using ⟨hfx, hfy⟩

/-- The three parts of a `for` are given as tokens, or left out. -/
theorem forLoop {init : Option Stmt} {update : Option Expr}
    (hi : ∃ xs u, ForInit m xs u ∧ (∀ x ∈ xs, x.Faithful) ∧ u.map Stmt.unlocated = init.map Stmt.unlocated)
    (hc : ∀ x ∈ o, ExprSymbol.expr.Makes m [x]) (hu : ∀ x ∈ update, ExprSymbol.expr.Makes m [x])
    (hb : StmtSymbol.block.Makes m [.block b]) : (StmtSymbol.item .inside).Makes m [.forLoop loc init o update b] := by
  obtain ⟨xs, i, hi, hfx, hii⟩ := hi
  obtain ⟨ys, c, hc, hfy, hcc⟩ := exists_optExpr hc
  obtain ⟨zs, u, hu, hfz, huu⟩ := exists_optExpr hu
  obtain ⟨ws, v, hv, hfw, hvb⟩ := hb.body
  refine ⟨_, _, .forLoop (token_mark _) (token_mark _) hi (token_mark _) hc (token_mark _) hu (token_mark _) hv, ?_,
    by simp [hii, hcc, huu, hvb]⟩
  simpa +decide [or_imp, forall_and, Token.faithful_mark] using ⟨hfx, hfy, hfz, hfw⟩

/-! ### Conditionals and protected blocks -/

/-- The arms are added one after the other. -/
theorem arms (hc : ExprSymbol.expr.Makes m [c]) (hb : StmtSymbol.block.Makes m [.block b])
    (has : ∀ loc c b, ElseIf.mk loc c b ∈ as → ExprSymbol.expr.Makes m [c] ∧ StmtSymbol.block.Makes m [.block b]) :
    ∃ xs v u vs, DerivesStmt m .arms xs [.ifElse (extent xs) v u vs none] ∧ (∀ x ∈ xs, x.Faithful) ∧
      v.unlocated = c.unlocated ∧ u.unlocated = b.unlocated ∧ ElseIf.unlocatedAll vs = ElseIf.unlocatedAll as := by
  induction as using List.reverseRecOn with
  | nil =>
    obtain ⟨xs, v, hv, hfx, hvc⟩ := exists_condition hc
    obtain ⟨ys, u, hu, hfy, hub⟩ := hb.body
    refine ⟨_, v, u, [], .arm (token_mark _) hv hu, ?_, hvc, hub, rfl⟩
    simpa +decide [or_imp, forall_and, Token.faithful_mark] using ⟨hfx, hfy⟩
  | append_singleton as a ih =>
    obtain ⟨loc', c', b'⟩ := a
    obtain ⟨hc', hb'⟩ := has loc' c' b' (by simp)
    obtain ⟨xs, v, u, vs, hd, hfx, hvc, hub, hsame⟩ := ih fun loc c b ha => has loc c b (by simp [ha])
    obtain ⟨ys, v', hv', hfy, hvc'⟩ := exists_condition hc'
    obtain ⟨zs, u', hu', hfz, hub'⟩ := hb'.body
    refine ⟨_, v, u, _, .elseIf hd (token_mark _) (token_mark _) hv' hu', ?_, hvc, hub, ?_⟩
    · simpa +decide [or_imp, forall_and, Token.faithful_mark] using ⟨hfx, hfy, hfz⟩
    · simp [hsame, hvc', hub']

/-- A conditional is made of its arms, one by one, and its last block. -/
theorem ifElse {otherwise : Option Block} (hc : ExprSymbol.expr.Makes m [c])
    (hb : StmtSymbol.block.Makes m [.block b])
    (has : ∀ loc c b, ElseIf.mk loc c b ∈ as → ExprSymbol.expr.Makes m [c] ∧ StmtSymbol.block.Makes m [.block b])
    (he : ∀ e ∈ otherwise, StmtSymbol.block.Makes m [.block e]) :
    (StmtSymbol.item .inside).Makes m [.ifElse loc c b as otherwise] := by
  obtain ⟨xs, v, u, vs, hd, hfx, hvc, hub, hsame⟩ := arms hc hb has
  cases otherwise with
  | none => exact ⟨xs, _, .ifStmt hd, hfx, by simp [hvc, hub, hsame]⟩
  | some e =>
    obtain ⟨ys, w, hw, hfy, hwe⟩ := (he e rfl).body
    refine ⟨_, _, .ifElse hd (token_mark _) hw, ?_, by simp [hvc, hub, hsame, hwe]⟩
    simpa +decide [or_imp, forall_and, Token.faithful_mark] using ⟨hfx, hfy⟩

/-- The clauses are added one after the other. -/
theorem clauses (hb : StmtSymbol.block.Makes m [.block b])
    (hcs : ∀ loc t i b, CatchClause.mk loc t i b ∈ cs →
      t.IsSpelled ∧ IsName i.name ∧ StmtSymbol.block.Makes m [.block b]) :
    ∃ xs u vs, DerivesStmt m .clauses xs [.tryCatch (extent xs) u vs none] ∧ (∀ x ∈ xs, x.Faithful) ∧
      u.unlocated = b.unlocated ∧ CatchClause.unlocatedAll vs = CatchClause.unlocatedAll cs := by
  induction cs using List.reverseRecOn with
  | nil =>
    obtain ⟨xs, u, hu, hfx, hub⟩ := hb.body
    refine ⟨_, u, [], .guarded (token_mark _) hu, ?_, hub, rfl⟩
    simpa +decide [Token.faithful_mark] using hfx
  | append_singleton cs c ih =>
    obtain ⟨loc', t, i, b'⟩ := c
    obtain ⟨ht, hi, hb'⟩ := hcs loc' t i b' (by simp)
    obtain ⟨xs, u, vs, hd, hfx, hub, hsame⟩ := ih fun loc t i b hc => hcs loc t i b (by simp [hc])
    obtain ⟨ys, t', ht', hfy, htt⟩ := ht.typeRef
    obtain ⟨zs, u', hu', hfz, hub'⟩ := hb'.body
    refine ⟨_, u, _, .catchClause hd (token_mark _) (token_mark _) ht' (token_lexeme _ i.name) (token_mark _) hu', ?_,
      hub, ?_⟩
    · simpa +decide [or_imp, forall_and, Token.faithful_mark, hi.faithful] using ⟨hfx, hfy, hfz⟩
    · simp [hsame, htt, hub', Lexeme.ident, Ident.unlocated]

/-- A `try` is made of its clauses, one by one, and its last block; it needs one of them, unless the mode is lax. -/
theorem tryCatch {cleanup : Option Block} (hb : StmtSymbol.block.Makes m [.block b])
    (hcs : ∀ loc t i b, CatchClause.mk loc t i b ∈ cs →
      t.IsSpelled ∧ IsName i.name ∧ StmtSymbol.block.Makes m [.block b])
    (hf : ∀ f ∈ cleanup, StmtSymbol.block.Makes m [.block f]) (hhandled : cleanup = none → m.lax ∨ cs ≠ []) :
    (StmtSymbol.item .inside).Makes m [.tryCatch loc b cs cleanup] := by
  obtain ⟨xs, u, vs, hd, hfx, hub, hsame⟩ := clauses hb hcs
  cases cleanup with
  | none =>
    have hvs : m.lax ∨ vs ≠ [] := by
      refine (hhandled rfl).imp_right fun hne hnil => ?_
      cases cs with
      | nil => exact hne rfl
      | cons c cs =>
        cases c
        simp [hnil] at hsame
    refine ⟨xs ++ [], _, .tryStmt hd hvs (.inl rfl), by simpa using hfx, by simp [hub, hsame]⟩
  | some f =>
    obtain ⟨ys, w, hw, hfy, hwf⟩ := (hf f rfl).body
    refine ⟨_, _, .tryFinally hd (token_mark _) hw, ?_, by simp [hub, hsame, hwf]⟩
    simpa +decide [or_imp, forall_and, Token.faithful_mark] using ⟨hfx, hfy⟩

/-! ### Declarations -/

theorem field {d : VarDecl} (hmods : ∀ t ∈ d.modifiers, t.isModifier = true) (ht : d.type.IsSpelled)
    (hi : IsName d.name.name) (ho : ∀ x ∈ d.init, ExprSymbol.expr.Makes m [x]) :
    (StmtSymbol.item .member).Makes m [.varDecl d] := by
  obtain ⟨ks, hks, hfk, hkinds⟩ := exists_modifiers hmods
  obtain ⟨xs, t, i, u, hu, hfx, htt, hii, huo⟩ := exists_declares ht hi ho
  refine ⟨_, _, .field hks hu (token_mark _), ?_, ?_⟩
  · simpa +decide [or_imp, forall_and, Token.faithful_mark] using ⟨hfk, hfx⟩
  · simp [VarDecl.unlocated, hkinds, htt, hii, huo]

/-- A method may stand anywhere but inside a block. -/
theorem method {p : Place} {ps : List Param} (hp : p ≠ .inside) (hmods : ∀ t ∈ mods, t.isModifier = true)
    (ht : t.IsSpelled) (hi : IsName i.name) (hps : ∀ p ∈ ps, p.type.IsSpelled ∧ IsName p.name.name)
    (hb : StmtSymbol.block.Makes m [.block b]) :
    (StmtSymbol.item p).Makes m [.methodDecl loc mods t i ps b] := by
  obtain ⟨ks, hks, hfk, hkinds⟩ := exists_modifiers hmods
  obtain ⟨xs, t', ht', hfx, htt⟩ := ht.typeRef
  obtain ⟨ys, qs, hqs, hfy, hsame⟩ := exists_params hps
  obtain ⟨zs, u, hu, hfz, hub⟩ := hb.body
  refine ⟨_, _, .method hp hks ht' (token_lexeme _ i.name) hqs hu, ?_, ?_⟩
  · simpa [or_imp, forall_and, hi.faithful] using ⟨hfk, hfx, hfy, hfz⟩
  · simp [hkinds, htt, hsame, hub, Lexeme.ident, Ident.unlocated]

/-- A class is made of its members. -/
theorem classDecl (hmods : ∀ t ∈ mods, t.isModifier = true) (hi : IsName i.name)
    (hss : ∀ s ∈ ss, (StmtSymbol.item .member).Makes m [s]) :
    (StmtSymbol.item .top).Makes m [.classDecl loc mods i ss] := by
  obtain ⟨ks, hks, hfk, hkinds⟩ := exists_modifiers hmods
  obtain ⟨xs, us, hus, hfx, hsame⟩ := list hss
  refine ⟨_, _, .classDecl hks (token_mark _) (token_lexeme _ i.name) (token_mark _) hus (token_mark _), ?_, ?_⟩
  · simpa +decide [or_imp, forall_and, Token.faithful_mark, hi.faithful] using ⟨hfk, hfx⟩
  · simp [hkinds, hsame, Lexeme.ident, Ident.unlocated]

end StmtSymbol.Makes

end Grammar

/-! ## Nodes -/

/-- The statement is no expression whose text starts with a brace. -/
def Stmt.IsUnbraced : Stmt → Prop
  | .expr _ x => x.text.head? ≠ some (byte '\x7b')
  | _ => True

/-- No statement of a body or a block starts with a brace, unless it is a block. -/
def Node.IsUnbraced (n : Node) : Prop :=
  n.kind ∈ [.program, .block] → ∀ s, Node.stmt s ∈ n.children.map (·.node) → s.IsUnbraced

/-- The node is one that tokens can be found for: it fits the mode, has its shape, is spelled as it should be, and holds
no statement that would be taken for a block. -/
structure Node.Sound (m : Mode) (n : Node) : Prop where
  fits : n.Fits m
  shaped : n.Shaped
  spelled : n.IsSpelled
  unbraced : n.IsUnbraced

/-- **Tokens for a statement**: in each place where it may stand, as a body, and as the first clause of a loop. -/
structure Stmt.IsMade (m : Mode) (s : Stmt) : Prop where
  item : ∀ p, (StmtSymbol.item p).Gives s → s.IsUnbraced → (StmtSymbol.item p).Makes m [s]
  block : s.kind = .block → StmtSymbol.block.Makes m [s]
  clause : s.kind ∈ [.varDecl, .exprStmt] → (Node.stmt s).StandsBelow .forStmt →
    ∃ xs u, ForInit m xs (some u) ∧ (∀ x ∈ xs, x.Faithful) ∧ u.unlocated = s.unlocated

/-- There are tokens for the node. -/
def Node.IsMade (m : Mode) : Node → Prop
  | .program p => (StmtSymbol.list .top).Makes m p.body
  | .stmt s => s.IsMade m
  | .expr x => x.symbol.Makes m [x]
  | .elseIf (.mk _ c b) => ExprSymbol.expr.Makes m [c] ∧ StmtSymbol.block.Makes m [.block b]
  | .catchClause (.mk _ t i b) => t.IsSpelled ∧ IsName i.name ∧ StmtSymbol.block.Makes m [.block b]
  | .param p => p.type.IsSpelled ∧ IsName p.name.name
  | .typeName _ | .comment _ => True

variable {m : Mode}

/-- A statement that stands in blocks, and on its own. -/
theorem Stmt.IsMade.of_inside {s : Stmt} (h : (StmtSymbol.item .inside).Makes m [s])
    (hs : s.kind ∉ [.block, .varDecl, .exprStmt, .methodDecl, .classDecl, .badStmt]) : s.IsMade m := by
  constructor
  · intro p hp _
    cases p with
    | inside => exact h
    | top => exact h.lift fun _ _ => .stmt
    | member =>
      have hkind := hp.2 rfl
      simp_all
  · intro hkind
    simp [hkind] at hs
  · intro hkind
    simp_all

section Children

variable {n : Node} (hc : ∀ c ∈ n.children.map (·.node), c.Sound m ∧ c.IsMade m)

include hc

/-- An expression under the node is made of tokens. -/
theorem Node.makes_child {x : Expr} (hx : Node.expr x ∈ n.children.map (·.node)) : ExprSymbol.expr.Makes m [x] :=
  makes_expr (hc _ hx).2 (hc _ hx).1.shaped.1

theorem Node.makes_body {b : Block} (hb : Node.stmt (.block b) ∈ n.children.map (·.node)) :
    StmtSymbol.block.Makes m [.block b] :=
  (hc _ hb).2.block rfl

theorem Node.isName_child {i : Ident} (hi : i.node ∈ n.children.map (·.node)) : IsName i.name := (hc _ hi).1.spelled

theorem Node.isSpelled_child {t : TypeName} (ht : Node.typeName t ∈ n.children.map (·.node)) : t.IsSpelled :=
  (hc _ ht).1.spelled

/-- Nodes that hold a list of statements: each of them may stand there. -/
theorem Node.makes_items (hn : n.Sound m) {p : Place} (hp : p.kind = n.kind) {s : Stmt}
    (hs : Node.stmt s ∈ n.children.map (·.node))
    (hmember : p = .member → s.kind ∈ [.methodDecl, .varDecl, .badStmt]) : (StmtSymbol.item p).Makes m [s] := by
  refine (hc _ hs).2.item p ⟨hp ▸ hn.shaped.2 _ hs, hmember⟩ ?_
  by_cases hplace : p = .member
  · have hkind := hmember hplace
    cases s with
    | expr => simp [Stmt.kind] at hkind
    | _ => trivial
  · refine hn.unbraced ?_ s hs
    rw [← hp]
    cases p <;> simp_all [Place.kind]

end Children

/-- **There are tokens for a statement if there are for the nodes below it.** -/
theorem Stmt.isMade (hm : ¬ m.errors) {s : Stmt} (hs : (Node.stmt s).Sound m)
    (hc : ∀ c ∈ (Node.stmt s).children.map (·.node), c.Sound m ∧ c.IsMade m) : s.IsMade m := by
  -- most statements stand inside a body only; the others are taken place by place
  cases s with
  | block b =>
    obtain ⟨loc, stmts⟩ := b
    have hblock : StmtSymbol.block.Makes m [.block (.mk loc stmts)] :=
      .block fun t ht => Node.makes_items hc hs rfl (by simpa [Node.children, children] using ht) (by simp)
    refine ⟨fun p hp _ => ?_, fun _ => hblock, by simp [Stmt.kind]⟩
    cases p with
    | inside => exact hblock.lift fun _ _ => .braced
    | top => exact hblock.lift fun _ _ hu => .stmt (.braced hu)
    | member => simpa [Stmt.kind] using hp.2 rfl
  | varDecl d =>
    have ht := Node.isSpelled_child hc (t := d.type) (by simp [Node.children, children])
    have hi := Node.isName_child hc (i := d.name) (by simp [Node.children, children])
    have ho : ∀ x ∈ d.init, ExprSymbol.expr.Makes m [x] := fun x hx =>
      Node.makes_child hc (by simp [Node.children, children, show d.init = some x from hx])
    refine ⟨fun p hp _ => ?_, by simp [Stmt.kind], fun _ hbelow => ?_⟩
    · cases p with
      | inside => exact .varDecl (hp.1.resolve_right (by simp [Place.kind])) ht hi ho
      | top =>
        have hinside := StmtSymbol.Makes.varDecl (hp.1.resolve_right (by simp [Place.kind])) ht hi ho
        exact hinside.lift fun _ _ => .stmt
      | member => exact .field hs.shaped.1 ht hi ho
    · obtain ⟨xs, t, i, u, hu, hf, htt, hii, huo⟩ := exists_declares ht hi ho
      refine ⟨xs, _, .decl hu, hf, ?_⟩
      simp [VarDecl.unlocated, htt, hii, huo, hbelow.resolve_right (by simp)]
  | expr loc x =>
    have hx := Node.makes_child hc (x := x) (by simp [Node.children, children])
    refine ⟨fun p hp hbrace => ?_, by simp [Stmt.kind], fun _ _ => ?_⟩
    · cases p with
      | inside => exact .expr hx hbrace
      | top => exact (StmtSymbol.Makes.expr hx hbrace).lift fun _ _ => .stmt
      | member => simpa [Stmt.kind] using hp.2 rfl
    · obtain ⟨xs, u, hu, hf, hux⟩ := hx.single
      exact ⟨xs, _, .expr hu, hf, by simp [hux]⟩
  | ifElse loc c b as e =>
    have hcond := Node.makes_child hc (x := c) (by simp [Node.children, children])
    have hbody := Node.makes_body hc (b := b) (by simp [Node.children, children, Block.node])
    refine .of_inside (.ifElse hcond hbody (fun loc c b ha => ?_) fun e he => ?_) (by simp [Stmt.kind])
    · exact (hc (.elseIf (.mk loc c b)) (by simp [Node.children, children, ha])).2
    · exact Node.makes_body hc (by simp [Node.children, children, Block.node, show _ = some e from he])
  | whileLoop loc c b =>
    have hcond := Node.makes_child hc (x := c) (by simp [Node.children, children])
    have hbody := Node.makes_body hc (b := b) (by simp [Node.children, children, Block.node])
    exact .of_inside (.whileLoop hcond hbody) (by simp [Stmt.kind])
  | doWhile loc b c =>
    have hcond := Node.makes_child hc (x := c) (by simp [Node.children, children])
    have hbody := Node.makes_body hc (b := b) (by simp [Node.children, children, Block.node])
    exact .of_inside (.doWhile hbody hcond) (by simp [Stmt.kind])
  | forLoop loc i c u b =>
    have hbody := Node.makes_body hc (b := b) (by simp [Node.children, children, Block.node])
    refine .of_inside (.forLoop ?_ (fun x hx => ?_) (fun x hx => ?_) hbody) (by simp [Stmt.kind])
    · cases i with
      | none => exact ⟨[], none, .none, List.forall_mem_nil _, rfl⟩
      | some s =>
        have hmem : Node.stmt s ∈ (Node.stmt (.forLoop loc (some s) c u b)).children.map (·.node) := by
          simp [Node.children, children]
        obtain ⟨xs, v, hv, hf, hvs⟩ := (hc _ hmem).2.clause (hs.shaped.1 s rfl) (hs.shaped.2 _ hmem)
        exact ⟨xs, some v, hv, hf, by simp [hvs]⟩
    · exact Node.makes_child hc (by simp [Node.children, children, show c = some x from hx])
    · exact Node.makes_child hc (by simp [Node.children, children, show u = some x from hx])
  | tryCatch loc b cs f =>
    have hbody := Node.makes_body hc (b := b) (by simp [Node.children, children, Block.node])
    refine .of_inside (.tryCatch hbody (fun loc t i b hcl => ?_) (fun f hf => ?_) ?_) (by simp [Stmt.kind])
    · exact (hc (.catchClause (.mk loc t i b)) (by simp [Node.children, children, hcl])).2
    · exact Node.makes_body hc (by simp [Node.children, children, Block.node, show _ = some f from hf])
    · rintro rfl
      exact hs.fits
  | ret loc o =>
    refine .of_inside (.ret fun x hx => ?_) (by simp [Stmt.kind])
    exact Node.makes_child hc (by simp [Node.children, children, show o = some x from hx])
  | empty loc => exact .of_inside .empty (by simp [Stmt.kind])
  | classDecl loc mods i ss =>
    have hi := Node.isName_child hc (i := i) (by simp [Node.children, children])
    have hmembers : ∀ t ∈ ss, (StmtSymbol.item .member).Makes m [t] := fun t ht =>
      Node.makes_items hc hs rfl (by simp [Node.children, children, ht]) fun _ => hs.shaped.1.2 t ht
    have hclass : (StmtSymbol.item .top).Makes m [.classDecl loc mods i ss] := .classDecl hs.shaped.1.1 hi hmembers
    refine ⟨fun p hp _ => ?_, by simp [Stmt.kind], by simp [Stmt.kind]⟩
    cases p with
    | top => exact hclass
    | inside | member => exact absurd hp.1 (by simp [Node.StandsBelow, Place.kind])
  | methodDecl loc mods t i ps b =>
    have ht := Node.isSpelled_child hc (t := t) (by simp [Node.children, children])
    have hi := Node.isName_child hc (i := i) (by simp [Node.children, children])
    have hbody := Node.makes_body hc (b := b) (by simp [Node.children, children, Block.node])
    refine ⟨fun p hp _ => .method ?_ hs.shaped.1 ht hi (fun q hq => ?_) hbody, by simp [Stmt.kind], by simp [Stmt.kind]⟩
    · rintro rfl
      exact absurd hp.1 (by simp [Node.StandsBelow, Place.kind])
    · exact (hc (.param q) (by simp [Node.children, children, hq])).2
  | bad loc => exact absurd hs.fits hm

/-- **There are tokens for all sound trees.** -/
theorem Node.isMade (hm : ¬ m.errors) {n : Node} (h : n.All (Sound m)) : n.IsMade m := by
  refine h.induct fun n hn hc => ?_
  cases n with
  | program p => exact .list fun s hs => makes_items hc hn rfl (by simpa [children] using hs) (by simp)
  | stmt s => exact s.isMade hm hn hc
  | expr x =>
    exact x.makes_symbol hm hn.fits hn.shaped.1 hn.spelled (fun c hx => (hc c hx).1.spelled)
      fun y hy => ⟨(hc _ hy).2, (hc _ hy).1.shaped.1⟩
  | elseIf arm =>
    obtain ⟨loc, c, b⟩ := arm
    exact ⟨makes_child hc (by simp [children]), makes_body hc (by simp [children, Block.node])⟩
  | catchClause clause =>
    obtain ⟨loc, t, i, b⟩ := clause
    exact ⟨isSpelled_child hc (by simp [children]), isName_child hc (by simp [children]),
      makes_body hc (by simp [children, Block.node])⟩
  | param p => exact ⟨isSpelled_child hc (by simp [children]), isName_child hc (by simp [children])⟩
  | typeName | comment => trivial

end SmallJava
