import SmallJava.Proofs.Accepting.Lookahead
import SmallJava.Proofs.Reading.Stmt

/-!
# Statements are accepted

The same for statements, members of classes and whole texts: `AcceptedStmt` says for each symbol of the grammar
what its parser does before a derivation, and `acceptedStmt` proves it by induction on the derivation.

A statement that may go on (a conditional, a protected block) is accepted before anything but the keyword that it
would go on with, and no statement starts with such a keyword.
-/

namespace SmallJava

open Grammar

/-! ## First and following tokens -/

namespace Token

/-- Whether the token goes on with a statement that may already be complete. -/
def continuesStmt : Token → Bool
  | .kwElse | .kwCatch | .kwFinally => true
  | _ => false

/-- Whether the token starts a statement inside a block. -/
def startsStmt : Token → Bool
  | .semi | .kwReturn | .kwWhile | .kwDo | .kwFor | .kwIf | .kwTry => true
  | t => t.startsExpr

/-- Whether the token starts a statement or a declaration. -/
def startsItem (t : Token) : Bool := t.startsStmt || t.isModifier || t = .kwClass

/-- What starts an expression starts a statement. -/
theorem startsStmt_of_startsExpr {t : Token} (h : t.startsExpr = true) : t.startsStmt = true := by
  cases t <;> first | rfl | simp [startsExpr, startsOperand, isLiteral, Parser.isPrefixOperator] at h

theorem endsExpr_of_semi {t : Token} (h : t = .semi) : t.endsExpr = true := by
  rw [h]
  rfl

/-- What starts a statement goes on with none and closes none. -/
theorem not_continuesStmt_of_startsItem {t : Token} (h : t.startsItem = true) :
    t.continuesStmt = false ∧ t ≠ .rBrace ∧ t ≠ .eof := by
  revert h
  cases t <;> decide

end Token

namespace Grammar

variable {m : Mode} {xs : List Lexeme}

theorem QualName.starts {t : TypeName} (h : QualName xs t) : headToken xs = .ident := by
  induction h with
  | single hx => exact hx
  | dotted h _ _ ih => rwa [headToken_append h.ne_nil]

/-- A type starts with a name. -/
theorem TypeRef.starts {t : TypeName} (h : TypeRef xs t) : headToken xs = .ident := by
  cases h with
  | mk hq _ => rw [headToken_append hq.ne_nil, hq.starts]

theorem Declares.starts {t : TypeName} {i : Ident} {x : Option Expr} (h : Declares m xs t i x) :
    headToken xs = .ident := by
  cases h with
  | bare ht _ => rw [headToken_append ht.ne_nil, ht.starts]
  | init ht _ _ _ => rw [headToken_append ht.ne_nil, ht.starts]

theorem IsParam.starts {p : Param} (h : IsParam xs p) : xs ≠ [] ∧ headToken xs = .ident := by
  cases h with
  | mk ht _ => exact ⟨by simp, by rw [headToken_append ht.ne_nil, ht.starts]⟩

/-- Parameters start with the name of a type. -/
theorem ParamList.starts {ps : List Param} (h : ParamList xs ps) : xs ≠ [] ∧ headToken xs = .ident := by
  cases h with
  | one h => exact h.starts
  | more h _ _ => exact ⟨by simp, by rw [headToken_append h.starts.1, h.starts.2]⟩

/-- The tokens that a derivation from a symbol may start with; a list may also be empty. -/
def StmtSymbol.starts : StmtSymbol → Token → Bool
  | .item .inside => Token.startsStmt
  | .item _ => Token.startsItem
  | .list _ => fun t => t.startsItem || t = .eof
  | .block => fun t => t = .lBrace
  | .arms => fun t => t = .kwIf
  | .clauses => fun t => t = .kwTry

/-- Modifiers before a declaration do not change where declarations may start. -/
theorem headToken_modifiers {mods ys : List Lexeme} (h : ∀ k ∈ mods, k.token.isModifier = true)
    (hy : (headToken ys).startsItem = true) : (headToken (mods ++ ys)).startsItem = true := by
  cases mods with
  | nil => exact hy
  | cons k mods => simp [Token.startsItem, h k]

/-- **The first token of a derivation** is one that the symbol may start with. -/
theorem DerivesStmt.starts {sym : StmtSymbol} {ss : List Stmt} (hm : m.Exact) (h : DerivesStmt m sym xs ss) :
    sym.starts (headToken xs) = true := by
  induction h with
  | varDecl hd _ =>
    rw [headToken_append hd.ne_nil, hd.starts]
    rfl
  | expr he _ _ => exact Token.startsStmt_of_startsExpr he.starts
  | braced _ ih => simp_all [StmtSymbol.starts, Token.startsStmt, Token.startsExpr, Token.startsOperand]
  | ifElse h _ _ ih | elseIf h _ _ _ _ ih | tryFinally h _ _ ih | catchClause h _ _ _ _ _ _ ih | tryStmt h _ _ ih =>
    rw [headToken_append (h.ne_nil (by simp))]
    simp_all [StmtSymbol.starts, Token.startsStmt]
  | @field mods xs semi t i x hmods hd _ =>
    refine headToken_modifiers hmods ?_
    rw [headToken_append hd.ne_nil, hd.starts]
    rfl
  | @method p mods xs ys zs i t ps b hp hmods ht _ _ _ _ =>
    have hname : (headToken (xs ++ i :: (ys ++ zs))).startsItem = true := by
      rw [headToken_append ht.ne_nil, ht.starts]
      rfl
    have hstart := headToken_modifiers hmods hname
    cases p with
    | inside => exact absurd rfl hp
    | member => exact hstart
    | top => exact hstart
  | stmt _ ih => simp_all [StmtSymbol.starts, Token.startsItem]
  | classDecl hmods hk _ _ _ _ _ => exact headToken_modifiers hmods (by simp [hk, Token.startsItem])
  | @cons p _ _ _ _ h _ ih _ =>
    rw [headToken_append (h.ne_nil (by simp))]
    cases p <;> simp_all [StmtSymbol.starts, Token.startsItem]
  | openBlock ho | openClass ho => exact absurd ho hm.opens
  | skip he => exact absurd he hm.errors
  | _ => simp_all [StmtSymbol.starts, Token.startsStmt]

/-- What a name cannot start does not start with one, and so no look ahead mistakes it. -/
theorem DerivesStmt.head_ne_ident {sym : StmtSymbol} {ss : List Stmt} (hm : m.Exact) (h : DerivesStmt m sym xs ss)
    (hlist : ∀ p, sym ≠ .list p) (hsym : sym.starts .ident = false) (rest : List Lexeme) :
    headToken (xs ++ rest) ≠ .ident := by
  rw [headToken_append (h.ne_nil hlist)]
  intro heq
  have hstart := h.starts hm
  rw [heq, hsym] at hstart
  exact Bool.noConfusion hstart

end Grammar

namespace Parser

variable {setup : Setup} {m : Mode} {all xs ys rest : List Lexeme} {s : State} {d : Nat}

/-! ## Parts of statements -/

/-- A condition is accepted as it stands, so there is nothing to recover from. -/
theorem accepts_condition {x : Expr} (hw : setup.Suits all) (hm : m.Exact) (hb : setup.Bears m)
    (h : Condition m xs x) (hd : x.nesting + 1 ≤ d) :
    AcceptsBefore setup m all (condition (level d)) (fun _ => True) xs x := by
  intro s rest hs _
  cases h with
  | bad he => exact absurd he hm.errors
  | @good l r xs x hl hx hr =>
    rw [List.cons_append, List.append_assoc] at hs
    refine accepts_want_bind hs hl fun s₁ _ hs₁ => ?_
    have hexpr := accepts_expr hw hb hx hd hs₁ (by simp [hr]; rfl)
    have hcloser : Accepts setup m (upToCloser (level d).expr) s₁ xs x := by
      refine hexpr.last hs₁ fun s₂ _ hs₂ => ?_
      rw [accepts_current_bind, hs₂.current, if_pos hr]
      exact .pure hs₂.running
    have hrecover : Accepts setup m (recoverExpr (level d).expr) s₁ xs x := by
      obtain ⟨s₂, hrun, hpass⟩ := hcloser
      exact ⟨s₂, tryCatch_ok _ hrun, hpass⟩
    refine hrecover.bind hs₁ fun s₂ _ hs₂ => ?_
    exact accepts_want_bind hs₂ hr fun s₃ _ hs₃ => .pure hs₃.running

/-- An expression is accepted where it may be absent. -/
theorem accepts_optionalExpr_some {x : Expr} {ending : Token} (hw : setup.Suits all) (hb : setup.Bears m)
    (h : DerivesExpr m .expr xs [x]) (hd : x.nesting + 1 ≤ d) (hstart : ending.startsExpr = false)
    (hs : s.Ready all (xs ++ rest)) (hrest : (headToken rest).endsExpr = true) :
    Accepts setup m (optionalExpr (level d) ending) s xs (some x) := by
  unfold optionalExpr
  rw [accepts_token_bind, hs.token hw, headToken_append h.ne_nil, if_neg (Token.ne_of_startsExpr h.starts hstart)]
  exact (accepts_expr hw hb h hd hs hrest).last hs fun s₁ _ hs₁ => .pure hs₁.running

/-- An expression that may be absent is accepted before the token that ends it. -/
theorem accepts_optionalExpr {o : Option Expr} {ending : Token} (hw : setup.Suits all) (hb : setup.Bears m)
    (h : OptExpr m xs o) (hd : Expr.depthOpt o ≤ d) (hends : ending.endsExpr = true)
    (hstart : ending.startsExpr = false) (hs : s.Ready all (xs ++ rest)) (hrest : headToken rest = ending) :
    Accepts setup m (optionalExpr (level d) ending) s xs o := by
  cases h with
  | none =>
    unfold optionalExpr
    rw [accepts_token_bind, hs.token hw, List.nil_append, if_pos hrest]
    exact .pure hs.running
  | some hx => exact accepts_optionalExpr_some hw hb hx hd hstart hs (by rw [hrest]; exact hends)

/-- The value of a declaration, with the sign of assignment in front of it, if there is one. -/
theorem accepts_initializer {o : Option Expr} (hw : setup.Suits all) (hb : setup.Bears m)
    (hd : Expr.depthOpt o ≤ d) (hs : s.Ready all (xs ++ rest)) (hrest : (headToken rest).endsExpr = true)
    (h : xs = [] ∧ o = none ∨ ∃ a ys x, xs = a :: ys ∧ a.token = .assign ∧ o = some x ∧ DerivesExpr m .expr ys [x]) :
    Accepts setup m (optionalAfter .assign (level d).expr) s xs o := by
  rcases h with ⟨rfl, rfl⟩ | ⟨a, ys, x, rfl, ha, rfl, hx⟩
  · have hne : headToken rest ≠ .assign := by
      intro h
      rw [h] at hrest
      exact absurd hrest (by decide)
    exact accepts_got_bind_of_ne hw hs hne (.pure hs.running)
  · refine accepts_got_bind hs ha fun s₁ _ hs₁ => ?_
    exact (accepts_expr hw hb hx hd hs₁ hrest).last hs₁ fun s₂ _ hs₂ => .pure hs₂.running

/-- A declaration that starts where the state `s₀` stood, perhaps with modifiers in front, is accepted before what ends
an expression. -/
theorem accepts_varDecl {s₀ : State} {ws : List Lexeme} {t : TypeName} {i : Ident} {x : Option Expr}
    (hw : setup.Suits all) (hb : setup.Bears m) (hs₀ : s₀.At all) (h₀ : s₀.Passes m ws s)
    (h : Declares m xs t i x) (hd : Expr.depthOpt x ≤ d) (hs : s.Ready all (xs ++ rest))
    (hrest : (headToken rest).endsExpr = true) (mods : List Token) :
    Accepts setup m (varDecl (level d) (s₀.current setup).location mods) s xs
      { location := extent (ws ++ xs), modifiers := mods, type := t, name := i, init := x } := by
  obtain ⟨ts, i, zs, rfl, ht, hi, rfl, hinit⟩ : ∃ ts i' zs, xs = ts ++ i' :: zs ∧ TypeRef ts t ∧ i'.token = .ident ∧
      i = i'.ident ∧ (zs = [] ∧ x = none ∨
        ∃ a ys x', zs = a :: ys ∧ a.token = .assign ∧ x = some x' ∧ DerivesExpr m .expr ys [x']) := by
    cases h with
    | bare ht hi => exact ⟨_, _, _, rfl, ht, hi, rfl, .inl ⟨rfl, rfl⟩⟩
    | init ht hi ha hx => exact ⟨_, _, _, rfl, ht, hi, rfl, .inr ⟨_, _, _, rfl, ha, rfl, hx⟩⟩
  rw [List.append_assoc] at hs
  refine (accepts_typeName ht hs (by simpa using hi)).bind hs fun s₁ h₁ hs₁ => ?_
  refine (accepts_ident hs₁ hi).bind hs₁ fun s₂ h₂ hs₂ => ?_
  refine (accepts_initializer hw hb hd hs₂ hrest hinit).last hs₂ fun s₃ h₃ hs₃ => ?_
  have hall := h₀.trans (h₁.trans (h₂.trans h₃))
  rw [accepts_spanFrom_bind, spanFrom_current hw hs₀ hall.takes, if_neg (by simp)]
  exact .pure hs₃.running

theorem startsVarDecl_of_declares {t : TypeName} {i : Ident} {x : Option Expr} (h : Declares m xs t i x) :
    startsVarDecl (xs ++ rest) = true := by
  cases h with
  | bare ht hi => simpa using startsVarDecl_of_typeRef ht hi
  | init ht hi _ _ => simpa using startsVarDecl_of_typeRef ht hi

/-- A declaration that ends with a semicolon is not taken for a method. -/
theorem startsMethodDecl_of_declares {t : TypeName} {i : Ident} {x : Option Expr} (h : Declares m xs t i x)
    (hrest : headToken rest = .semi) : startsMethodDecl (xs ++ rest) = false := by
  cases h with
  | bare ht hi => simp [startsMethodDecl_of_typeRef ht hi, hrest]
  | init ht hi ha _ => simp [startsMethodDecl_of_typeRef ht hi, ha]

/-- A declaration is told from an expression by looking ahead, as in any statement. -/
theorem accepts_forInit {o : Option Stmt} (hw : setup.Suits all) (hb : setup.Bears m) (h : ForInit m xs o)
    (hd : ∀ t ∈ o, t.nesting ≤ d) {semi : Lexeme} (hsemi : semi.token = .semi) (hs : s.Ready all (xs ++ semi :: rest)) :
    Accepts setup m (forInit (level d)) s xs o := by
  unfold forInit
  rw [accepts_atVarDecl_bind, hs.rest]
  cases h with
  | none =>
    rw [if_neg (by simp [startsVarDecl_of_ne_ident, hsemi])]
    have hnone := accepts_optionalExpr hw hb .none (Nat.zero_le d) rfl rfl hs hsemi
    exact hnone.last hs fun s₁ _ hs₁ => .pure hs₁.running
  | decl hdecl =>
    rw [if_pos (startsVarDecl_of_declares hdecl), accepts_current_bind]
    have hv := accepts_varDecl hw hb hs.place (.refl hs.running) hdecl (hd _ rfl) hs (Token.endsExpr_of_semi hsemi) []
    exact hv.last hs fun s₁ _ hs₁ => .pure hs₁.running
  | @expr xs x hx =>
    rw [if_neg (by simp [hx.startsVarDecl_eq hsemi])]
    have hsome := accepts_optionalExpr hw hb (.some hx) (hd _ rfl) rfl rfl hs hsemi
    refine hsome.last hs fun s₁ _ hs₁ => ?_
    rw [← hx.location rfl x (by simp)]
    exact .pure hs₁.running

/-! ## What each symbol is accepted as -/

/-- The parser for a statement or declaration at a place, with `d` levels of nesting left. -/
def itemParser (d : Nat) : Place → Parser Stmt
  | .inside => stmt d
  | .member => member (level d)
  | .top => topStmt d

/-- The step of the loop over the statements or declarations at a place. -/
def listStep (d : Nat) : Place → List Stmt → Parser (ForInStep (List Stmt))
  | .top => topStep d
  | p => stmtStep (itemParser d p)

/-- The token that ends the statements or declarations at a place. -/
def endOf : Place → Token
  | .top => .eof
  | _ => .rBrace

/-- A statement or declaration is accepted before anything that does not go on with it. -/
def AcceptsItemAt (setup : Setup) (m : Mode) (all : List Lexeme) (d : Nat) (p : Place) (xs : List Lexeme) (t : Stmt) :
    Prop :=
  AcceptsBefore setup m all (itemParser d p) (fun rest => (headToken rest).continuesStmt = false) xs t

/-- A block is accepted before anything. -/
def AcceptsBlock (setup : Setup) (m : Mode) (all : List Lexeme) (d : Nat) (xs : List Lexeme) (b : Block) : Prop :=
  AcceptsBefore setup m all (block (level d)) (fun _ => True) xs b

/-- A conditional without `else`: its first arm is accepted, and the loop over the other arms goes on. -/
def AcceptsArms (setup : Setup) (m : Mode) (all : List Lexeme) (d : Nat) (xs : List Lexeme) (c : Expr) (b : Block)
    (as : List ElseIf) : Prop :=
  ∃ kw cs bs zs, xs = kw :: (cs ++ (bs ++ zs)) ∧ kw.token = .kwIf ∧
    AcceptsBefore setup m all (condition (level d)) (fun _ => True) cs c ∧ AcceptsBlock setup m all d bs b ∧
    ∀ (s : State) (rest : List Lexeme), s.Ready all (zs ++ rest) →
      Repeats setup m (armStep (level d)) ([], none) s zs (as, none)

/-- A protected block without `finally`: the block is accepted, and the loop over the clauses goes on. -/
def AcceptsClauses (setup : Setup) (m : Mode) (all : List Lexeme) (d : Nat) (xs : List Lexeme) (b : Block)
    (cs : List CatchClause) : Prop :=
  ∃ kw bs zs, xs = kw :: (bs ++ zs) ∧ kw.token = .kwTry ∧ AcceptsBlock setup m all d bs b ∧
    ∀ (s : State) (rest : List Lexeme), s.Ready all (zs ++ rest) →
      Repeats setup m (catchStep (level d)) [] s zs cs

/-- **What the parser does before a derivation**, for each symbol of the grammar and any number `d` of levels that
suffices. -/
def AcceptedStmt (setup : Setup) (m : Mode) (all : List Lexeme) : StmtSymbol → List Lexeme → List Stmt → Prop
  | .item p, xs, [t] => ∀ d, t.nesting ≤ d → AcceptsItemAt setup m all d p xs t
  | .list p, xs, ss => ∀ d, Stmt.nestings ss ≤ d → ∀ (s : State) (rest : List Lexeme) (before : List Stmt),
      s.Ready all (xs ++ rest) → headToken rest = endOf p →
      Finishes setup m (listStep d p) before s xs (before ++ ss)
  | .block, xs, [.block b] => ∀ d, b.nesting ≤ d → AcceptsBlock setup m all d xs b
  | .arms, xs, [.ifElse loc c b as none] => ∀ d, (Stmt.ifElse loc c b as none).nesting ≤ d →
      AcceptsArms setup m all d xs c b as
  | .clauses, xs, [.tryCatch loc b cs none] => ∀ d, (Stmt.tryCatch loc b cs none).nesting ≤ d →
      AcceptsClauses setup m all d xs b cs
  | _, _, _ => True

/-! ## Lists and braces -/

/-- What is accepted needs no recovery. -/
theorem accepts_recoverStmt {p : Parser Stmt} {t : Stmt} (h : Accepts setup m p s xs t) :
    Accepts setup m (recoverStmt p) s xs t := by
  obtain ⟨s', hrun, hpass⟩ := h
  exact ⟨s', recoverStmt_ok hrun, hpass⟩

/-- The loop over statements takes a statement where one starts. -/
theorem accepts_listStep {p : Place} {t : Stmt} (hw : setup.Suits all) (hs : s.Ready all (xs ++ rest)) (hne : xs ≠ [])
    (hstart : (headToken xs).startsItem = true) (ht : Accepts setup m (itemParser d p) s xs t) (before : List Stmt) :
    Accepts setup m (listStep d p before) s xs (.yield (before ++ [t])) := by
  have htoken : (s.current setup).token = headToken xs := by rw [hs.token hw, headToken_append hne]
  obtain ⟨-, hbrace, heof⟩ := Token.not_continuesStmt_of_startsItem hstart
  have hstmt : Accepts setup m (stmtStep (itemParser d p) before) s xs (.yield (before ++ [t])) := by
    unfold stmtStep
    rw [accepts_token_bind, htoken, if_neg (by simp [hbrace, heof])]
    exact (accepts_recoverStmt ht).last hs fun s₁ _ hs₁ => .pure hs₁.running
  cases p with
  | inside => exact hstmt
  | member => exact hstmt
  | top =>
    show Accepts setup m (topStep d before) s xs _
    unfold topStep
    rw [accepts_token_bind, htoken, if_neg heof]
    exact (accepts_recoverStmt ht).last hs fun s₁ _ hs₁ => .pure hs₁.running

/-- The loop over statements ends before the token that ends them. -/
theorem accepts_listStep_done {p : Place} (hw : setup.Suits all) (hs : s.Ready all rest)
    (hrest : headToken rest = endOf p) (before : List Stmt) :
    Accepts setup m (listStep d p before) s [] (.done before) := by
  have hstmt : headToken rest = .rBrace → Accepts setup m (stmtStep (itemParser d p) before) s [] (.done before) := by
    intro hbrace
    unfold stmtStep
    rw [accepts_token_bind, hs.token hw, if_pos (.inl hbrace)]
    exact .pure hs.running
  cases p with
  | inside => exact hstmt hrest
  | member => exact hstmt hrest
  | top =>
    have heof : headToken rest = .eof := hrest
    show Accepts setup m (topStep d before) s [] _
    unfold topStep
    rw [accepts_token_bind, hs.token hw, if_pos heof]
    exact .pure hs.running

/-- The closing brace of `opened`. -/
theorem accepts_closeBrace {opened r : Lexeme} (hs : s.Ready all (r :: rest)) (hr : r.token = .rBrace) :
    Accepts setup m (closeBrace opened) s [r] (opened.location.through r.location) := by
  unfold closeBrace
  rw [accepts_current_bind, hs.current, if_neg (by simp [hr])]
  exact accepts_want_bind hs hr fun s₁ _ hs₁ => .pure hs₁.running

/-- The statements of a block are accepted one level deeper, up to its brace. -/
theorem acceptsBlock_braces {l r : Lexeme} {ss : List Stmt} (hl : l.token = .lBrace) (hr : r.token = .rBrace)
    (hss : ∀ (s : State) (rest : List Lexeme) (before : List Stmt), s.Ready all (xs ++ rest) →
      headToken rest = .rBrace → Finishes setup m (listStep d .inside) before s xs (before ++ ss)) :
    AcceptsBlock setup m all (d + 1) (l :: (xs ++ [r])) (.mk (extent (l :: (xs ++ [r]))) ss) := by
  intro s rest hs _
  rw [List.cons_append, List.append_assoc] at hs
  rw [extent_concat]
  refine accepts_want_bind hs hl fun s₁ _ hs₁ => ?_
  refine (hss s₁ _ [] hs₁ hr).loop.bind hs₁ fun s₂ _ hs₂ => ?_
  exact (accepts_closeBrace hs₂ hr).last hs₂ fun s₃ _ hs₃ => .pure hs₃.running

/-! ## Statements -/

/-- A brace starts a block, and no expression statement. -/
theorem accepts_braced {b : Block} (hw : setup.Suits all) (hstart : headToken xs = .lBrace) (hne : xs ≠ [])
    (h : AcceptsBlock setup m all d xs b) : AcceptsItemAt setup m all d .inside xs (.block b) := by
  intro s rest hs _
  rw [itemParser, stmt_eq_stmtAt, stmtAt, accepts_token_bind, hs.token hw, headToken_append hne, hstart]
  exact (h s rest hs trivial).last hs fun s₁ _ hs₁ => .pure hs₁.running

theorem accepts_empty {semi : Lexeme} (hsemi : semi.token = .semi) :
    AcceptsItemAt setup m all d .inside [semi] (.empty semi.location) := by
  intro s rest hs _
  rw [itemParser, stmt_eq_stmtAt, stmtAt, accepts_token_bind, hs.current, hsemi]
  exact accepts_next_bind hs fun s₁ _ hs₁ => .pure hs₁.running

/-- A `while` is its condition and its block. -/
theorem accepts_whileStmt {kw : Lexeme} {c : Expr} {b : Block} (hw : setup.Suits all) (hk : kw.token = .kwWhile)
    (hc : AcceptsBefore setup m all (condition (level d)) (fun _ => True) xs c)
    (hb : AcceptsBlock setup m all d ys b) :
    AcceptsItemAt setup m all d .inside (kw :: (xs ++ ys)) (.whileLoop (extent (kw :: (xs ++ ys))) c b) := by
  intro s rest hs _
  have hplace := hs.place
  rw [List.cons_append, List.append_assoc] at hs
  rw [itemParser, stmt_eq_stmtAt, stmtAt, accepts_token_bind, hs.current, hk]
  refine accepts_want_bind hs hk fun s₁ h₁ hs₁ => ?_
  refine (hc s₁ _ hs₁ trivial).bind hs₁ fun s₂ h₂ hs₂ => ?_
  refine (hb s₂ _ hs₂ trivial).last hs₂ fun s₃ h₃ hs₃ => ?_
  rw [accepts_spanFrom_bind, spanFrom_eq_of_passes hw hplace (h₁.trans (h₂.trans h₃))]
  exact .pure hs₃.running

/-- A `do` is its block, and behind it its condition. -/
theorem accepts_doWhileStmt {kw wh semi : Lexeme} {c : Expr} {b : Block} (hw : setup.Suits all) (hk : kw.token = .kwDo)
    (hb : AcceptsBlock setup m all d xs b) (hwh : wh.token = .kwWhile)
    (hc : AcceptsBefore setup m all (condition (level d)) (fun _ => True) ys c) (hsemi : semi.token = .semi) :
    AcceptsItemAt setup m all d .inside (kw :: (xs ++ wh :: (ys ++ [semi])))
      (.doWhile (extent (kw :: (xs ++ wh :: (ys ++ [semi])))) b c) := by
  intro s rest hs _
  have hplace := hs.place
  simp only [List.cons_append, List.append_assoc] at hs
  rw [itemParser, stmt_eq_stmtAt, stmtAt, accepts_token_bind, hs.current, hk]
  refine accepts_want_bind hs hk fun s₁ h₁ hs₁ => ?_
  refine (hb s₁ _ hs₁ trivial).bind hs₁ fun s₂ h₂ hs₂ => ?_
  refine accepts_want_bind hs₂ hwh fun s₃ h₃ hs₃ => ?_
  refine (hc s₃ _ hs₃ trivial).bind hs₃ fun s₄ h₄ hs₄ => ?_
  refine accepts_want_bind hs₄ hsemi fun s₅ h₅ hs₅ => ?_
  have hall := h₁.trans (h₂.trans (h₃.trans (h₄.trans h₅)))
  rw [accepts_spanFrom_bind, spanFrom_eq_of_passes hw hplace hall]
  exact .pure hs₅.running

/-- A `return` has a value unless the semicolon follows at once. -/
theorem accepts_returnStmt {kw semi : Lexeme} {x : Option Expr} (hw : setup.Suits all)
    (hb : setup.Bears m) (hk : kw.token = .kwReturn) (hx : OptExpr m xs x) (hd : Expr.depthOpt x ≤ d)
    (hsemi : semi.token = .semi) :
    AcceptsItemAt setup m all d .inside (kw :: (xs ++ [semi])) (.ret (extent (kw :: (xs ++ [semi]))) x) := by
  intro s rest hs _
  have hplace := hs.place
  simp only [List.cons_append, List.append_assoc] at hs
  rw [itemParser, stmt_eq_stmtAt, stmtAt, accepts_token_bind, hs.current, hk]
  refine accepts_want_bind hs hk fun s₁ h₁ hs₁ => ?_
  refine (accepts_optionalExpr hw hb hx hd rfl rfl hs₁ hsemi).bind hs₁ fun s₂ h₂ hs₂ => ?_
  refine accepts_want_bind hs₂ hsemi fun s₃ h₃ hs₃ => ?_
  rw [accepts_spanFrom_bind, spanFrom_eq_of_passes hw hplace (h₁.trans (h₂.trans h₃))]
  exact .pure hs₃.running

/-- Each part of a `for` is left out where the token that ends it follows at once. -/
theorem accepts_forStmt {kw l s₁ s₂ r : Lexeme} {is cs us bs : List Lexeme} {init : Option Stmt}
    {c u : Option Expr} {b : Block} (hw : setup.Suits all) (hbears : setup.Bears m)
    (hk : kw.token = .kwFor) (hl : l.token = .lParen) (hi : ForInit m is init) (hni : ∀ t ∈ init, t.nesting ≤ d)
    (hs₁ : s₁.token = .semi) (hc : OptExpr m cs c) (hnc : Expr.depthOpt c ≤ d) (hs₂ : s₂.token = .semi)
    (hu : OptExpr m us u) (hnu : Expr.depthOpt u ≤ d) (hr : r.token = .rParen) (hb : AcceptsBlock setup m all d bs b) :
    AcceptsItemAt setup m all d .inside (kw :: l :: (is ++ s₁ :: (cs ++ s₂ :: (us ++ r :: bs))))
      (.forLoop (extent (kw :: l :: (is ++ s₁ :: (cs ++ s₂ :: (us ++ r :: bs))))) init c u b) := by
  intro s rest hs _
  have hplace := hs.place
  simp only [List.cons_append, List.append_assoc] at hs
  rw [itemParser, stmt_eq_stmtAt, stmtAt, accepts_token_bind, hs.current, hk]
  refine accepts_want_bind hs hk fun t₁ h₁ ht₁ => ?_
  refine accepts_want_bind ht₁ hl fun t₂ h₂ ht₂ => ?_
  refine (accepts_forInit hw hbears hi hni hs₁ ht₂).bind ht₂ fun t₃ h₃ ht₃ => ?_
  refine accepts_want_bind ht₃ hs₁ fun t₄ h₄ ht₄ => ?_
  refine (accepts_optionalExpr hw hbears hc hnc rfl rfl ht₄ hs₂).bind ht₄ fun t₅ h₅ ht₅ => ?_
  refine accepts_want_bind ht₅ hs₂ fun t₆ h₆ ht₆ => ?_
  refine (accepts_optionalExpr hw hbears hu hnu rfl rfl ht₆ hr).bind ht₆ fun t₇ h₇ ht₇ => ?_
  refine accepts_want_bind ht₇ hr fun t₈ h₈ ht₈ => ?_
  refine (hb t₈ _ ht₈ trivial).last ht₈ fun t₉ h₉ ht₉ => ?_
  have hall := h₁.trans (h₂.trans (h₃.trans (h₄.trans (h₅.trans (h₆.trans (h₇.trans (h₈.trans h₉)))))))
  rw [accepts_spanFrom_bind, spanFrom_eq_of_passes hw hplace hall]
  exact .pure ht₉.running

/-- A declaration or an expression statement is read by `simpleStmt`. -/
theorem stmt_eq_simpleStmt (hw : setup.Suits all) (hs : s.Ready all xs) (hstart : (headToken xs).startsExpr = true)
    (hbrace : headToken xs ≠ .lBrace) : stmt d setup s = simpleStmt (level d) setup s := by
  have htoken : token setup s = .ok (headToken xs) s := by
    show EStateM.Result.ok (s.current setup).token s = _
    rw [hs.token hw]
  rw [stmt_eq_stmtAt, stmtAt, bind_ok _ htoken]
  generalize headToken xs = t at hstart hbrace ⊢
  cases t <;> first | exact absurd hstart (by decide) | exact absurd rfl hbrace | rfl

/-- A declaration is told by looking ahead for a type and a name. -/
theorem accepts_varDeclStmt {semi : Lexeme} {t : TypeName} {i : Ident} {x : Option Expr} (hw : setup.Suits all)
    (hb : setup.Bears m) (h : Declares m xs t i x) (hd : Expr.depthOpt x ≤ d)
    (hsemi : semi.token = .semi) :
    AcceptsItemAt setup m all d .inside (xs ++ [semi])
      (.varDecl { location := extent (xs ++ [semi]), modifiers := [], type := t, name := i, init := x }) := by
  intro s rest hs _
  have hhead : headToken (xs ++ [semi]) = .ident := by rw [headToken_append h.ne_nil, h.starts]
  have hhead' : headToken (xs ++ [semi] ++ rest) = .ident := by rw [headToken_append (by simp), hhead]
  have hsimple : stmt d setup s = simpleStmt (level d) setup s :=
    stmt_eq_simpleStmt hw hs (by rw [hhead']; rfl) (by rw [hhead']; decide)
  unfold Accepts
  rw [itemParser, hsimple]
  show Accepts setup m (simpleStmt (level d)) s _ _
  rw [List.append_assoc] at hs
  rw [simpleStmt, accepts_atVarDecl_bind, hs.rest, if_pos (startsVarDecl_of_declares h), accepts_current_bind]
  have hdecl := accepts_varDecl hw hb hs.place (.refl hs.running) h hd hs (Token.endsExpr_of_semi hsemi) []
  refine hdecl.bind hs fun s₁ _ hs₁ => accepts_want_bind hs₁ hsemi fun s₂ _ hs₂ => ?_
  have hloc : (extent ([] ++ xs)).through semi.location = extent (xs ++ [semi]) := through_location h.ne_nil [] semi
  rw [← hloc]
  exact .pure hs₂.running

/-- An expression is not taken for a declaration, since no type and name stand before it. -/
theorem accepts_exprStmt {x semi : Lexeme} {e : Expr} (hw : setup.Suits all) (hb : setup.Bears m)
    (h : DerivesExpr m .expr (x :: xs) [e]) (hd : e.nesting + 1 ≤ d) (hbrace : x.token ≠ .lBrace)
    (hsemi : semi.token = .semi) :
    AcceptsItemAt setup m all d .inside (x :: xs ++ [semi]) (.expr (extent (x :: xs ++ [semi])) e) := by
  intro s rest hs _
  have hsimple : stmt d setup s = simpleStmt (level d) setup s := stmt_eq_simpleStmt hw hs h.starts hbrace
  unfold Accepts
  rw [itemParser, hsimple]
  show Accepts setup m (simpleStmt (level d)) s _ _
  rw [List.append_assoc] at hs
  rw [simpleStmt, accepts_atVarDecl_bind, hs.rest,
    if_neg (by rw [List.singleton_append, h.startsVarDecl_eq hsemi]; decide)]
  refine (accepts_expr hw hb h hd hs (Token.endsExpr_of_semi hsemi)).bind hs fun s₁ _ hs₁ => ?_
  refine accepts_want_bind hs₁ hsemi fun s₂ _ hs₂ => ?_
  have hloc := h.through_token rfl [] semi
  rw [List.nil_append] at hloc
  rw [← hloc]
  exact .pure hs₂.running

/-! ## Conditionals -/

/-- Another arm: the loop over the arms goes on. -/
theorem acceptsArms_elseIf {els kw : Lexeme} {cs bs : List Lexeme} {c c' : Expr} {b b' : Block} {as : List ElseIf}
    (has : AcceptsArms setup m all d xs c b as) (hels : els.token = .kwElse) (hk : kw.token = .kwIf)
    (hc : AcceptsBefore setup m all (condition (level d)) (fun _ => True) cs c')
    (hb : AcceptsBlock setup m all d bs b') :
    AcceptsArms setup m all d (xs ++ els :: kw :: (cs ++ bs)) c b
      (as ++ [ElseIf.mk (els.location.through b'.location) c' b']) := by
  obtain ⟨kw₀, cs₀, bs₀, zs, rfl, hkw₀, hc₀, hb₀, hrepeats⟩ := has
  refine ⟨kw₀, cs₀, bs₀, zs ++ els :: kw :: (cs ++ bs), by simp, hkw₀, hc₀, hb₀, fun s rest hs => ?_⟩
  simp only [List.append_assoc, List.cons_append] at hs
  refine (hrepeats s _ hs).trans hs fun s₁ hs₁ => .one ?_ (by simp)
  unfold armStep
  rw [accepts_token_bind, hs₁.current, if_pos hels]
  refine accepts_next_bind hs₁ fun s₂ _ hs₂ => accepts_got_bind hs₂ hk fun s₃ _ hs₃ => ?_
  refine (hc s₃ _ hs₃ trivial).bind hs₃ fun s₄ _ hs₄ => ?_
  exact (hb s₄ _ hs₄ trivial).last hs₄ fun s₅ _ hs₅ => .pure hs₅.running

/-- A conditional is read up to its last arm, and then what is left of the loop over the arms. -/
theorem AcceptsArms.accepts {c : Expr} {b : Block} {as : List ElseIf} {o : Option Block} (hw : setup.Suits all)
    (has : AcceptsArms setup m all d xs c b as) (hs : s.Ready all (xs ++ (ys ++ rest)))
    (hlast : ∀ s' : State, s'.Ready all (ys ++ rest) →
      Accepts setup m (armStep (level d) (as, none)) s' ys (.done (as, o))) :
    Accepts setup m (itemParser d .inside) s (xs ++ ys) (.ifElse (extent (xs ++ ys)) c b as o) := by
  obtain ⟨kw, cs, bs, zs, rfl, hk, hc, hb, hrepeats⟩ := has
  have hplace := hs.place
  simp only [List.append_assoc, List.cons_append] at hs ⊢
  rw [itemParser, stmt_eq_stmtAt, stmtAt, accepts_token_bind, hs.current, hk]
  refine accepts_want_bind hs hk fun s₁ h₁ hs₁ => ?_
  refine (hc s₁ _ hs₁ trivial).bind hs₁ fun s₂ h₂ hs₂ => ?_
  refine (hb s₂ _ hs₂ trivial).bind hs₂ fun s₃ h₃ hs₃ => ?_
  have harms : Accepts setup m (arms (level d)) s₃ (zs ++ ys) (as, o) :=
    ((hrepeats s₃ _ hs₃).finish hs₃ fun s' hs' => .done (hlast s' hs')).loop
  refine harms.last (by simpa using hs₃) fun s₄ h₄ hs₄ => ?_
  rw [accepts_spanFrom_bind, spanFrom_eq_of_passes hw hplace (h₁.trans (h₂.trans (h₃.trans h₄)))]
  exact .pure hs₄.running

/-- No `else` follows, so the arms are complete. -/
theorem accepts_ifStmt {c : Expr} {b : Block} {as : List ElseIf} (hw : setup.Suits all)
    (has : AcceptsArms setup m all d xs c b as) :
    AcceptsItemAt setup m all d .inside xs (.ifElse (extent xs) c b as none) := by
  intro s rest hs hrest
  have hne : headToken rest ≠ .kwElse := by
    intro h
    simp [h, Token.continuesStmt] at hrest
  have haccepts := has.accepts (o := none) hw hs fun s' hs' => by
    unfold armStep
    rw [accepts_token_bind, hs'.token hw, List.nil_append, if_neg hne]
    exact .pure hs'.running
  simpa using haccepts

/-- A block behind the last `else` ends the arms. -/
theorem accepts_ifElse {els : Lexeme} {c : Expr} {b e : Block} {as : List ElseIf} (hw : setup.Suits all)
    (has : AcceptsArms setup m all d xs c b as) (hels : els.token = .kwElse) (hstart : headToken ys = .lBrace)
    (hne : ys ≠ []) (he : AcceptsBlock setup m all d ys e) :
    AcceptsItemAt setup m all d .inside (xs ++ els :: ys) (.ifElse (extent (xs ++ els :: ys)) c b as (some e)) := by
  intro s rest hs _
  rw [List.append_assoc] at hs
  refine has.accepts hw hs fun s₁ hs₁ => ?_
  have hif : headToken (ys ++ rest) ≠ .kwIf := by
    rw [headToken_append hne, hstart]
    decide
  unfold armStep
  rw [accepts_token_bind, hs₁.current, if_pos hels]
  refine accepts_next_bind hs₁ fun s₂ _ hs₂ => accepts_got_bind_of_ne hw hs₂ hif ?_
  exact (he s₂ rest hs₂ trivial).last hs₂ fun s₃ _ hs₃ => .pure hs₃.running

/-! ## Protected blocks -/

/-- Another clause: the loop over the clauses goes on. -/
theorem acceptsClauses_catch {kw l i r : Lexeme} {ts bs : List Lexeme} {t : TypeName} {b b' : Block}
    {cs : List CatchClause} (hcs : AcceptsClauses setup m all d xs b cs) (hk : kw.token = .kwCatch)
    (hl : l.token = .lParen) (ht : TypeRef ts t) (hi : i.token = .ident) (hr : r.token = .rParen)
    (hb : AcceptsBlock setup m all d bs b') :
    AcceptsClauses setup m all d (xs ++ kw :: l :: (ts ++ i :: r :: bs)) b
      (cs ++ [.mk (kw.location.through b'.location) t i.ident b']) := by
  obtain ⟨kw₀, bs₀, zs, rfl, hkw₀, hb₀, hrepeats⟩ := hcs
  refine ⟨kw₀, bs₀, zs ++ kw :: l :: (ts ++ i :: r :: bs), by simp, hkw₀, hb₀, fun s rest hs => ?_⟩
  simp only [List.append_assoc, List.cons_append] at hs
  refine (hrepeats s _ hs).trans hs fun s₁ hs₁ => .one ?_ (by simp)
  unfold catchStep
  rw [accepts_token_bind, hs₁.current, if_pos hk]
  refine accepts_next_bind hs₁ fun s₂ _ hs₂ => accepts_want_bind hs₂ hl fun s₃ _ hs₃ => ?_
  refine (accepts_typeName ht hs₃ (by simpa using hi)).bind hs₃ fun s₄ _ hs₄ => ?_
  refine (accepts_ident hs₄ hi).bind hs₄ fun s₅ _ hs₅ => accepts_want_bind hs₅ hr fun s₆ _ hs₆ => ?_
  exact (hb s₆ _ hs₆ trivial).last hs₆ fun s₇ _ hs₇ => .pure hs₇.running

/-- The `try` statement whose clauses are accepted, with a `finally` block or without one. If nothing handles it, that
is reported, and the mode has to be lax. -/
theorem AcceptsClauses.accepts {b : Block} {cs : List CatchClause} {o : Option Block} (hw : setup.Suits all)
    (hbears : setup.Bears m) (hcs : AcceptsClauses setup m all d xs b cs) (hs : s.Ready all (xs ++ (ys ++ rest)))
    (hcatch : headToken (ys ++ rest) ≠ .kwCatch) (hhandled : m.lax ∨ cs ≠ [] ∨ o ≠ none)
    (hlast : ∀ s' : State, s'.Ready all (ys ++ rest) →
      Accepts setup m (optionalAfter .kwFinally (block (level d))) s' ys o) :
    Accepts setup m (itemParser d .inside) s (xs ++ ys) (.tryCatch (extent (xs ++ ys)) b cs o) := by
  obtain ⟨kw, bs, zs, rfl, hk, hb, hrepeats⟩ := hcs
  have hplace := hs.place
  simp only [List.append_assoc, List.cons_append] at hs ⊢
  rw [itemParser, stmt_eq_stmtAt, stmtAt, accepts_token_bind, hs.current, hk]
  refine accepts_want_bind hs hk fun s₁ h₁ hs₁ => ?_
  refine (hb s₁ _ hs₁ trivial).bind hs₁ fun s₂ h₂ hs₂ => ?_
  have hclauses : Accepts setup m (catchClauses (level d)) s₂ zs cs := by
    refine ((hrepeats s₂ _ hs₂).finish_last hs₂ fun s' hs' => ?_).loop
    unfold catchStep
    rw [accepts_token_bind, hs'.token hw, if_neg hcatch]
    exact .pure hs'.running
  refine hclauses.bind hs₂ fun s₃ h₃ hs₃ => ?_
  refine (hlast s₃ hs₃).last hs₃ fun s₄ h₄ hs₄ => ?_
  rw [accepts_spanFrom_bind, spanFrom_eq_of_passes hw hplace (h₁.trans (h₂.trans (h₃.trans h₄)))]
  split
  · next hnone =>
    simp only [Bool.and_eq_true, List.isEmpty_iff, Option.isNone_iff_eq_none] at hnone
    have hlax : m.lax := hhandled.resolve_right (by simp [hnone.1, hnone.2])
    refine (accepts_report hs₄.running hbears hlax .tryWithoutHandler (extent _) rfl).last hs₄ fun s₅ _ hs₅ => ?_
    exact .pure hs₅.running
  · exact .pure hs₄.running

/-- Without a last block there is a clause, or the mode is lax and a problem is reported. -/
theorem accepts_tryStmt {b : Block} {cs : List CatchClause} (hw : setup.Suits all) (hbears : setup.Bears m)
    (hcs : AcceptsClauses setup m all d xs b cs) (hhandled : m.lax ∨ cs ≠ []) :
    AcceptsItemAt setup m all d .inside xs (.tryCatch (extent xs) b cs none) := by
  intro s rest hs hrest
  have hcatch : headToken ([] ++ rest) ≠ .kwCatch := by
    rintro h
    simp [show headToken rest = .kwCatch from h, Token.continuesStmt] at hrest
  have hfinally : headToken ([] ++ rest) ≠ .kwFinally := by
    intro h
    simp [show headToken rest = .kwFinally from h, Token.continuesStmt] at hrest
  have hs' : s.Ready all (xs ++ ([] ++ rest)) := hs
  have haccepts := hcs.accepts (o := none) hw hbears hs' hcatch (hhandled.imp_right .inl) fun s₁ hs₁ =>
    accepts_got_bind_of_ne hw hs₁ hfinally (.pure hs₁.running)
  simpa using haccepts

/-- A last block is a handler, whether there are clauses or not. -/
theorem accepts_tryFinally {kw : Lexeme} {b f : Block} {cs : List CatchClause} (hw : setup.Suits all)
    (hbears : setup.Bears m) (hcs : AcceptsClauses setup m all d xs b cs) (hk : kw.token = .kwFinally)
    (hf : AcceptsBlock setup m all d ys f) :
    AcceptsItemAt setup m all d .inside (xs ++ kw :: ys) (.tryCatch (extent (xs ++ kw :: ys)) b cs (some f)) := by
  intro s rest hs _
  rw [List.append_assoc] at hs
  refine hcs.accepts hw hbears hs (by simp [hk]) (.inr (.inr (by simp))) fun s₁ hs₁ => ?_
  refine accepts_got_bind hs₁ hk fun s₂ _ hs₂ => ?_
  exact (hf s₂ rest hs₂ trivial).last hs₂ fun s₃ _ hs₃ => .pure hs₃.running

/-! ## Declarations -/

/-- All modifiers are taken, up to something else. -/
theorem accepts_modifiers {mods : List Lexeme} (h : ∀ k ∈ mods, k.token.isModifier = true)
    (hs : s.Ready all (mods ++ rest)) (hrest : (headToken rest).isModifier = false) :
    Accepts setup m modifiers s mods (mods.map (·.token)) := by
  have htake : (mods ++ rest).takeWhile (·.token.isModifier) = mods := by
    rw [List.takeWhile_append_of_pos h]
    cases rest with
    | nil => simp
    | cons x rest =>
      have hx : x.token.isModifier = false := hrest
      simp [hx]
  refine ⟨s.skip mods.length, ?_, ?_⟩
  · show EStateM.Result.ok ((s.rest.takeWhile (·.token.isModifier)).map (·.token)) (s.skip _) = _
    rw [hs.rest, htake, List.length_map]
  · refine ⟨by simp [State.skip, hs.rest], by simp [State.skip, hs.rest], hs.running, [], by simp [State.skip],
      by simp, .inr rfl⟩

theorem accepts_param {p : Param} (hw : setup.Suits all) (h : IsParam xs p) (hs : s.Ready all (xs ++ rest)) :
    Accepts setup m param s xs p := by
  cases h with
  | @mk ts t i ht hi =>
    have hplace := hs.place
    rw [List.append_assoc] at hs
    unfold param
    rw [accepts_current_bind]
    refine (accepts_typeName ht hs (by simpa using hi)).bind hs fun s₁ h₁ hs₁ => ?_
    refine (accepts_ident hs₁ hi).last hs₁ fun s₂ h₂ hs₂ => ?_
    rw [accepts_spanFrom_bind, spanFrom_current hw hplace (h₁.trans h₂).takes, if_neg (by simp)]
    exact .pure hs₂.running

theorem separated_of_paramList {ps : List Param} (h : ParamList xs ps) : Separated IsParam xs ps := by
  induction h with
  | one h => exact .one h
  | more h hc _ ih => exact .more h hc ih

/-- The parameters of a method, without their parentheses, are accepted before the closing one. -/
theorem accepts_paramList {r : Lexeme} {ps : List Param} (hw : setup.Suits all)
    (h : xs = [] ∧ ps = [] ∨ ParamList xs ps) (hr : r.token = .rParen) (hs : s.Ready all (xs ++ r :: rest)) :
    Accepts setup m (separatedUntil .rParen param) s xs ps := by
  unfold separatedUntil
  rcases h with ⟨rfl, rfl⟩ | h
  · rw [accepts_token_bind, hs.current, if_pos hr]
    exact .pure hs.running
  · obtain ⟨hne, hident⟩ := h.starts
    rw [accepts_token_bind, hs.token hw, headToken_append hne, hident, if_neg (by decide)]
    have hitem : AcceptsItem setup m all param IsParam fun _ => True :=
      fun xs p hp s rest hs _ => accepts_param hw hp hs
    exact accepts_separated hw hitem trivial (separated_of_paramList h) hs trivial (by simp [hr])

/-- A method that starts where the state `s₀` stood, with modifiers in front. -/
theorem accepts_methodDecl {s₀ : State} {ws ts bs : List Lexeme} {i : Lexeme} {t : TypeName} {ps : List Param}
    {b : Block} (hw : setup.Suits all) (hs₀ : s₀.At all) (h₀ : s₀.Passes m ws s) (ht : TypeRef ts t)
    (hi : i.token = .ident) (hps : Params ys ps) (hb : AcceptsBlock setup m all d bs b)
    (hs : s.Ready all (ts ++ i :: (ys ++ bs) ++ rest)) (mods : List Token) :
    Accepts setup m (methodDecl (level d) (s₀.current setup).location mods) s (ts ++ i :: (ys ++ bs))
      (.methodDecl (extent (ws ++ (ts ++ i :: (ys ++ bs)))) mods t i.ident ps b) := by
  obtain ⟨l, zs, r, rfl, hl, hr, hparams⟩ : ∃ l zs r, ys = l :: (zs ++ [r]) ∧ l.token = .lParen ∧
      r.token = .rParen ∧ (zs = [] ∧ ps = [] ∨ ParamList zs ps) := by
    cases hps with
    | none hl hr => exact ⟨_, [], _, rfl, hl, hr, .inl ⟨rfl, rfl⟩⟩
    | some hl h hr => exact ⟨_, _, _, rfl, hl, hr, .inr h⟩
  simp only [List.append_assoc, List.cons_append, List.nil_append] at hs ⊢
  refine (accepts_typeName ht hs (by simpa using hi)).bind hs fun s₁ h₁ hs₁ => ?_
  refine (accepts_ident hs₁ hi).bind hs₁ fun s₂ h₂ hs₂ => ?_
  refine accepts_want_bind hs₂ hl fun s₃ h₃ hs₃ => ?_
  refine (accepts_paramList hw hparams hr hs₃).bind hs₃ fun s₄ h₄ hs₄ => ?_
  refine accepts_want_bind hs₄ hr fun s₅ h₅ hs₅ => ?_
  refine (hb s₅ rest hs₅ trivial).last hs₅ fun s₆ h₆ hs₆ => ?_
  have hall := h₀.trans (h₁.trans (h₂.trans (h₃.trans (h₄.trans (h₅.trans h₆)))))
  rw [accepts_spanFrom_bind, spanFrom_current hw hs₀ hall.takes, if_neg (by simp)]
  exact .pure hs₆.running

theorem not_isModifier_of_ident {xs : List Lexeme} (h : headToken xs = .ident) :
    (headToken xs).isModifier = false := by
  rw [h]
  rfl

/-- A member without a parenthesis behind its name is a declaration. -/
theorem accepts_field {mods : List Lexeme} {semi : Lexeme} {t : TypeName} {i : Ident} {x : Option Expr}
    (hw : setup.Suits all) (hb : setup.Bears m) (hmods : ∀ k ∈ mods, k.token.isModifier = true)
    (h : Declares m xs t i x) (hd : Expr.depthOpt x ≤ d) (hsemi : semi.token = .semi) :
    AcceptsItemAt setup m all d .member (mods ++ (xs ++ [semi]))
      (.varDecl { location := extent (mods ++ (xs ++ [semi])), modifiers := mods.map (·.token), type := t, name := i,
                  init := x }) := by
  intro s rest hs _
  have hplace := hs.place
  simp only [List.append_assoc] at hs
  have hident : headToken (xs ++ ([semi] ++ rest)) = .ident := by rw [headToken_append h.ne_nil, h.starts]
  rw [itemParser, member, accepts_current_bind]
  refine (accepts_modifiers hmods hs (not_isModifier_of_ident hident)).bind hs fun s₁ h₁ hs₁ => ?_
  rw [accepts_atMethodDecl_bind, hs₁.rest, if_neg (by simp [startsMethodDecl_of_declares h, hsemi])]
  refine (accepts_varDecl hw hb hplace h₁ h hd hs₁ (Token.endsExpr_of_semi hsemi) _).bind hs₁ fun s₂ h₂ hs₂ => ?_
  refine accepts_want_bind hs₂ hsemi fun s₃ h₃ hs₃ => ?_
  have hall := h₁.trans (h₂.trans h₃)
  rw [accepts_spanFrom_bind, spanFrom_current hw hplace hall.takes, if_neg (by simp)]
  exact .pure hs₃.running

/-- A method is told by the parenthesis behind its name. -/
theorem startsMethodDecl_of_params {ts : List Lexeme} {i : Lexeme} {t : TypeName} {ps : List Param}
    (ht : TypeRef ts t) (hi : i.token = .ident) (hps : Params ys ps) (rest : List Lexeme) :
    startsMethodDecl (ts ++ i :: (ys ++ rest)) = true := by
  have hparen : headToken (ys ++ rest) = .lParen := by
    rw [headToken_append hps.ne_nil]
    cases hps with
    | none hl _ => exact hl
    | some hl _ _ => exact hl
  rw [startsMethodDecl_of_typeRef ht hi, hparen]
  rfl

/-- Outside of blocks a method is accepted with all its modifiers. -/
theorem accepts_method {p : Place} {mods ts bs : List Lexeme} {i : Lexeme} {t : TypeName} {ps : List Param}
    {b : Block} (hw : setup.Suits all) (hp : p ≠ .inside) (hmods : ∀ k ∈ mods, k.token.isModifier = true)
    (ht : TypeRef ts t) (hi : i.token = .ident) (hps : Params ys ps) (hb : AcceptsBlock setup m all d bs b) :
    AcceptsItemAt setup m all d p (mods ++ (ts ++ i :: (ys ++ bs)))
      (.methodDecl (extent (mods ++ (ts ++ i :: (ys ++ bs)))) (mods.map (·.token)) t i.ident ps b) := by
  intro s rest hs _
  have hplace := hs.place
  rw [List.append_assoc] at hs
  have hident : headToken (ts ++ i :: (ys ++ bs) ++ rest) = .ident := by
    rw [List.append_assoc, headToken_append ht.ne_nil, ht.starts]
  have hmethod : startsMethodDecl (ts ++ i :: (ys ++ bs) ++ rest) = true := by
    simpa using startsMethodDecl_of_params ht hi hps (bs ++ rest)
  have hmodifiers : Accepts setup m modifiers s mods (mods.map (·.token)) :=
    accepts_modifiers hmods hs (not_isModifier_of_ident hident)
  have hdecl : ∀ s₁ : State, s.Passes m mods s₁ → s₁.Ready all (ts ++ i :: (ys ++ bs) ++ rest) →
      Accepts setup m (methodDecl (level d) (s.current setup).location (mods.map (·.token))) s₁
        (ts ++ i :: (ys ++ bs)) (.methodDecl (extent (mods ++ (ts ++ i :: (ys ++ bs)))) (mods.map (·.token)) t
          i.ident ps b) :=
    fun s₁ h₁ hs₁ => accepts_methodDecl hw hplace h₁ ht hi hps hb hs₁ _
  cases p with
  | inside => exact absurd rfl hp
  | member =>
    rw [itemParser, member, accepts_current_bind]
    refine hmodifiers.bind hs fun s₁ h₁ hs₁ => ?_
    rw [accepts_atMethodDecl_bind, hs₁.rest, if_pos hmethod]
    exact hdecl s₁ h₁ hs₁
  | top =>
    rw [itemParser, topStmt, accepts_current_bind, accepts_atMethodDecl_bind, if_pos ?declaration]
    case declaration =>
      -- a modifier is in front, or the lookahead sees the method
      cases mods with
      | nil => rw [hs.rest, List.nil_append, hmethod, Bool.or_true]
      | cons k mods => simp [hs.current, hmods k]
    refine hmodifiers.bind hs fun s₁ h₁ hs₁ => ?_
    rw [accepts_token_bind, hs₁.token hw, hident, if_neg (by decide), accepts_atMethodDecl_bind, hs₁.rest,
      if_pos hmethod]
    exact hdecl s₁ h₁ hs₁

/-- The members of a class are accepted one level deeper, up to its brace. -/
theorem accepts_classDecl {mods : List Lexeme} {kw i l r : Lexeme} {ss : List Stmt}
    (hmods : ∀ k ∈ mods, k.token.isModifier = true) (hk : kw.token = .kwClass) (hi : i.token = .ident)
    (hl : l.token = .lBrace) (hr : r.token = .rBrace)
    (hss : ∀ (s : State) (rest : List Lexeme) (before : List Stmt), s.Ready all (xs ++ rest) →
      headToken rest = .rBrace → Finishes setup m (listStep d .member) before s xs (before ++ ss)) :
    AcceptsItemAt setup m all (d + 1) .top (mods ++ kw :: i :: l :: (xs ++ [r]))
      (.classDecl (extent (mods ++ kw :: i :: l :: (xs ++ [r]))) (mods.map (·.token)) i.ident ss) := by
  intro s rest hs _
  simp only [List.append_assoc, List.cons_append] at hs
  rw [itemParser, topStmt, accepts_current_bind, accepts_atMethodDecl_bind, if_pos ?declaration]
  case declaration =>
    cases mods with
    | nil => simp [hs.current, hk]
    | cons k mods => simp [hs.current, hmods k]
  refine (accepts_modifiers hmods hs (by simp [hk]; rfl)).bind hs fun s₁ h₁ hs₁ => ?_
  rw [accepts_token_bind, hs₁.current, if_pos hk]
  refine accepts_want_bind hs₁ hk fun s₂ h₂ hs₂ => ?_
  refine (accepts_ident hs₂ hi).bind hs₂ fun s₃ h₃ hs₃ => ?_
  refine accepts_want_bind hs₃ hl fun s₄ h₄ hs₄ => ?_
  refine (hss s₄ _ [] hs₄ hr).loop.bind hs₄ fun s₅ h₅ hs₅ => ?_
  refine (accepts_closeBrace hs₅ hr).last hs₅ fun s₆ h₆ hs₆ => ?_
  have hall : s.Passes m (mods ++ [kw, i] ++ l :: (xs ++ [r])) s₆ := by
    simpa using h₁.trans (h₂.trans (h₃.trans (h₄.trans (h₅.trans h₆))))
  have hloc := current_through setup _ _ hall.takes (by simp)
  rw [extent_concat] at hloc
  rw [hloc, List.append_assoc]
  exact .pure hs₆.running

theorem startsMethodDecl_of_startsVarDecl (h : startsVarDecl xs = false) : startsMethodDecl xs = false := by
  cases hm : startsMethodDecl xs with
  | false => rfl
  | true => simp [startsVarDecl_of_startsMethodDecl hm] at h

/-- A statement does not start like a method. -/
theorem startsMethodDecl_of_stmt {ss : List Stmt} (hm : m.Exact) (h : DerivesStmt m (.item .inside) xs ss)
    (rest : List Lexeme) : startsMethodDecl (xs ++ rest) = false := by
  have hkeyword : headToken (xs ++ rest) ≠ .ident → startsMethodDecl (xs ++ rest) = false := fun hne =>
    startsMethodDecl_of_startsVarDecl (startsVarDecl_of_ne_ident hne)
  cases h with
  | varDecl hd hsemi =>
    rw [List.append_assoc]
    exact startsMethodDecl_of_declares hd hsemi
  | expr he _ hsemi =>
    rw [List.append_assoc]
    exact startsMethodDecl_of_startsVarDecl (he.startsVarDecl_eq hsemi rest)
  | braced h => exact hkeyword (h.head_ne_ident hm (by simp) rfl rest)
  | ifStmt h => exact hkeyword (h.head_ne_ident hm (by simp) rfl rest)
  | ifElse h => exact hkeyword (by rw [List.append_assoc]; exact h.head_ne_ident hm (by simp) rfl _)
  | tryStmt h => exact hkeyword (by rw [List.append_assoc]; exact h.head_ne_ident hm (by simp) rfl _)
  | tryFinally h => exact hkeyword (by rw [List.append_assoc]; exact h.head_ne_ident hm (by simp) rfl _)
  | method hp => exact absurd rfl hp
  | empty hk | ret hk | whileLoop hk | doWhile hk | forLoop hk => exact hkeyword (by simp [hk])

/-- What starts a statement and not a method is read as a statement. -/
theorem topStmt_eq_stmt (hw : setup.Suits all) (hs : s.Ready all xs) (hstart : (headToken xs).startsStmt = true)
    (hmethod : startsMethodDecl xs = false) : topStmt d setup s = stmt d setup s := by
  have hmodifier : (headToken xs).isModifier = false ∧ headToken xs ≠ .kwClass := by
    revert hstart
    cases headToken xs <;> decide
  show (if ((s.current setup).token.isModifier || decide ((s.current setup).token = .kwClass)
    || startsMethodDecl s.rest) = true then _ else _ : Parser Stmt) setup s = _
  rw [hs.token hw, hs.rest, if_neg (by simp [hmodifier.1, hmodifier.2, hmethod])]

/-- Any statement may stand at the top, since it is neither a class nor a method. -/
theorem accepts_topStmt {t : Stmt} (hw : setup.Suits all) (hm : m.Exact) (ht : DerivesStmt m (.item .inside) xs [t])
    (h : AcceptsItemAt setup m all d .inside xs t) : AcceptsItemAt setup m all d .top xs t := by
  intro s rest hs hrest
  have hstart : (headToken (xs ++ rest)).startsStmt = true := by
    rw [headToken_append (ht.ne_nil (by simp))]
    exact ht.starts hm
  unfold Accepts
  rw [itemParser, topStmt_eq_stmt hw hs hstart (startsMethodDecl_of_stmt hm ht rest)]
  exact h s rest hs hrest

end Parser

/-! ## All symbols -/

namespace Grammar

variable {m : Mode} {xs : List Lexeme}

theorem DerivesStmt.startsItem {p : Place} {ss : List Stmt} (hm : m.Exact) (h : DerivesStmt m (.item p) xs ss) :
    (headToken xs).startsItem = true := by
  have hstart := h.starts hm
  cases p with
  | inside => simp_all [StmtSymbol.starts, Token.startsItem]
  | member => exact hstart
  | top => exact hstart

/-- What follows a statement in a list does not go on with it. -/
theorem DerivesStmt.follow {p : Place} {ss : List Stmt} {rest : List Lexeme} (hm : m.Exact)
    (h : DerivesStmt m (.list p) xs ss) (hrest : (headToken rest).continuesStmt = false) :
    (headToken (xs ++ rest)).continuesStmt = false := by
  cases h with
  | nil => exact hrest
  | cons h _ =>
    rw [List.append_assoc, headToken_append (h.ne_nil (by simp))]
    exact (Token.not_continuesStmt_of_startsItem (h.startsItem hm)).1
  | skip he => exact absurd he hm.errors

theorem DerivesStmt.lBrace_of_block {ss : List Stmt} (hm : m.Exact) (h : DerivesStmt m .block xs ss) :
    headToken xs = .lBrace := by
  simpa [StmtSymbol.starts] using h.starts hm

end Grammar

namespace Parser

variable {setup : Setup} {m : Mode} {all xs : List Lexeme}

/-- **Derivations of statements are accepted**, by the parser for their symbol. -/
theorem acceptedStmt {sym : StmtSymbol} {ss : List Stmt} (hw : setup.Suits all) (hm : m.Exact) (hb : setup.Bears m)
    (h : DerivesStmt m sym xs ss) : AcceptedStmt setup m all sym xs ss := by
  induction h with
  | braced h ih =>
    obtain ⟨b, hblock⟩ := h.eq_block
    cases hblock
    intro d hd
    exact accepts_braced hw (h.lBrace_of_block hm) (h.ne_nil (by simp)) (ih d hd)
  | varDecl h hsemi => exact fun d hd => accepts_varDeclStmt hw hb h hd hsemi
  | expr h hbrace hsemi => exact fun d hd => accepts_exprStmt hw hb h hd hbrace hsemi
  | empty hsemi => exact fun d _ => accepts_empty hsemi
  | ret hk hx hsemi => exact fun d hd => accepts_returnStmt hw hb hk hx hd hsemi
  | whileLoop hk hc _ ih =>
    intro d hd
    simp only [Stmt.nesting] at hd
    exact accepts_whileStmt hw hk (accepts_condition hw hm hb hc (by omega)) (ih d (by omega))
  | doWhile hk _ hwh hc hsemi ih =>
    intro d hd
    simp only [Stmt.nesting] at hd
    exact accepts_doWhileStmt hw hk (ih d (by omega)) hwh (accepts_condition hw hm hb hc (by omega)) hsemi
  | @forLoop _ _ _ _ _ _ _ _ _ init c u b hk hl hi hs₁ hc hs₂ hu hr _ ih =>
    intro d hd
    -- the first clause counts only if there is one
    have hni : ∀ t ∈ init, t.nesting ≤ d := by
      rintro t rfl
      simp only [Stmt.nesting] at hd
      omega
    have hrest : Expr.depthOpt c ≤ d ∧ Expr.depthOpt u ≤ d ∧ b.nesting ≤ d := by
      cases init <;> simp only [Stmt.nesting] at hd <;> omega
    exact accepts_forStmt hw hb hk hl hi hni hs₁ hc hrest.1 hs₂ hu hrest.2.1 hr (ih d hrest.2.2)
  | ifStmt h ih =>
    obtain ⟨c, b, as, hif⟩ := h.eq_ifElse
    cases hif
    exact fun d hd => accepts_ifStmt hw (ih d hd)
  | ifElse _ hels he ih ihe =>
    intro d hd
    simp only [Stmt.nesting] at hd
    have has := ih d (by simp only [Stmt.nesting]; omega)
    exact accepts_ifElse hw has hels (he.lBrace_of_block hm) (he.ne_nil (by simp)) (ihe d (by omega))
  | @tryStmt _ junk _ _ _ h hhandled hjunk ih =>
    intro d hd
    -- without errors nothing is given up behind the statement
    obtain rfl : junk = [] := hjunk.resolve_right hm.halts
    obtain ⟨b, cs, htry⟩ := h.eq_tryCatch
    cases htry
    rw [List.append_nil]
    exact accepts_tryStmt hw hb (ih d hd) hhandled
  | tryFinally _ hk hf ih ihf =>
    intro d hd
    simp only [Stmt.nesting] at hd
    have hcs := ih d (by simp only [Stmt.nesting]; omega)
    exact accepts_tryFinally hw hb hcs hk (ihf d (by omega))
  | @arm kw xs ys c b hk hc _ ih =>
    intro d hd
    simp only [Stmt.nesting] at hd
    exact ⟨kw, xs, ys, [], by simp, hk, accepts_condition hw hm hb hc (by omega), ih d (by omega),
      fun s rest hs => .refl hs.running⟩
  | elseIf _ hels hk hc hbl ih ihb =>
    intro d hd
    simp only [Stmt.nesting, ElseIf.nestings_append, ElseIf.nestings, ElseIf.nesting] at hd
    have has := ih d (by simp only [Stmt.nesting]; omega)
    have hnew := acceptsArms_elseIf has hels hk (accepts_condition hw hm hb hc (by omega)) (ihb d (by omega))
    rwa [hbl.block_location, location_through _ (_ :: _) (hbl.ne_nil (by simp))] at hnew
  | @guarded kw xs b hk _ ih =>
    intro d hd
    simp only [Stmt.nesting] at hd
    exact ⟨kw, xs, [], by simp, hk, ih d (by omega), fun s rest hs => .refl hs.running⟩
  | @catchClause _ ys _ kw l i r _ _ _ _ _ _ hk hl ht hi hr hbl ih ihb =>
    intro d hd
    simp only [Stmt.nesting, CatchClause.nestings_append, CatchClause.nestings, CatchClause.nesting] at hd
    have hcs := ih d (by simp only [Stmt.nesting]; omega)
    have hnew := acceptsClauses_catch hcs hk hl ht hi hr (ihb d (by omega))
    rw [hbl.block_location, location_through kw (l :: (ys ++ [i, r])) (hbl.ne_nil (by simp))] at hnew
    simpa using hnew
  | block hl _ hr ih =>
    intro d hd
    simp only [Block.nesting] at hd
    obtain ⟨d, rfl⟩ : ∃ d', d = d' + 1 := ⟨d - 1, by omega⟩
    exact acceptsBlock_braces hl hr (ih d (by omega))
  | field hmods h hsemi => exact fun d hd => accepts_field hw hb hmods h hd hsemi
  | method hp hmods ht hi hps _ ih => exact fun d hd => accepts_method hw hp hmods ht hi hps (ih d hd)
  | stmt h ih => exact fun d hd => accepts_topStmt hw hm h (ih d hd)
  | classDecl hmods hk hi hl _ hr ih =>
    intro d hd
    simp only [Stmt.nesting] at hd
    obtain ⟨d, rfl⟩ : ∃ d', d = d' + 1 := ⟨d - 1, by omega⟩
    exact accepts_classDecl hmods hk hi hl hr (ih d (by omega))
  | nil =>
    intro d _ s rest before hs hrest
    rw [List.append_nil]
    exact .done (accepts_listStep_done hw hs hrest before)
  | @cons p xs ys t ts h hrest ih ihs =>
    intro d hd s rest before hs hend
    simp only [Stmt.nestings] at hd
    rw [List.append_assoc] at hs
    have hne : xs ≠ [] := h.ne_nil (by simp)
    have hend' : (headToken rest).continuesStmt = false := by
      rw [hend]
      cases p <;> rfl
    -- what follows the statement does not go on with it: that is a statement, or the end of the list
    have hfollow : (headToken (ys ++ rest)).continuesStmt = false := hrest.follow hm hend'
    have hone := accepts_listStep hw hs hne (h.startsItem hm) (ih d (by omega) s _ hs hfollow) before
    have hall := (Repeats.one hone hne).finish hs fun s₁ hs₁ =>
      ihs d (by omega) s₁ rest (before ++ [t]) hs₁ hend
    simpa using hall
  | openBlock ho | openClass ho => exact absurd ho hm.opens
  | skip he => exact absurd he hm.errors

/-- **A whole text is accepted** by a parser with enough levels to spend. -/
theorem accepts_topStmts {d : Nat} {s : State} {ss : List Stmt} (hw : setup.Suits all) (hm : m.Exact)
    (hb : setup.Bears m) (h : DerivesProgram m xs ss) (hd : Stmt.nestings ss ≤ d) (hs : s.Ready all xs) :
    Accepts setup m (topStmts d) s xs ss := by
  have hs' : s.Ready all (xs ++ []) := by rwa [List.append_nil]
  exact (acceptedStmt hw hm hb h d hd s [] [] hs' rfl).loop

end Parser

end SmallJava
