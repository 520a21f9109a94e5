import SmallJava.Proofs.Accepting.Name
import SmallJava.Proofs.Reading.Expr
import SmallJava.Proofs.Relational

/-!
# Expressions are accepted

A parser with enough levels to spend accepts every expression that the grammar derives, if what follows does not
go on with the expression. The proof is by induction on the derivation; `Accepted` says for each symbol of the
grammar what its parser does.

Binary expressions and chains are derived from left to right, and the parsers read them in loops: for these symbols
`Accepted` speaks about a loop that goes on.
-/

namespace SmallJava

open Grammar

/-! ## First and following tokens -/

namespace Token

/-- Whether the token starts something that is applied to an operand from the right. -/
def startsSuffix : Token → Bool
  | .lSquare | .lParen | .dot | .inc | .dec => true
  | _ => false

/-- Whether the token ends an expression with operators of precedence at least `p`. -/
def ends (p : Nat) (t : Token) : Bool := !t.startsSuffix && t.precedence?.all (· < p)

/-- Whether the token ends any expression. -/
def endsExpr (t : Token) : Bool := t.ends 1 && !t.isAssign

/-- Whether the token starts an operand; a malformed one is an operand. -/
def startsOperand : Token → Bool
  | .ident | .lParen | .lBrace | .kwNew | .invalid => true
  | t => t.isLiteral

/-- Whether the token starts an expression. -/
def startsExpr (t : Token) : Bool := t.startsOperand || Parser.isPrefixOperator t

/-- A binary operator ends an expression with tighter operators. -/
theorem ends_of_precedence {t : Token} {p : Nat} (h : t.precedence? = some p) : t.ends (p + 1) = true := by
  have hsuffix : t.startsSuffix = false := by
    cases t <;> first | rfl | simp [precedence?] at h
  simp [ends, hsuffix, h]

/-- An assignment operator ends what is assigned to. -/
theorem ends_of_isAssign {t : Token} (h : t.isAssign = true) : t.ends 1 = true := by
  cases t <;> first | rfl | simp [isAssign] at h

theorem startsSuffix_of_ends {t : Token} {p : Nat} (h : t.ends p = true) : t.startsSuffix = false := by
  simp only [ends, Bool.and_eq_true, Bool.not_eq_true'] at h
  exact h.1

/-- What ends an expression is no operator that could go on with it. -/
theorem precedence_ne_of_ends {t : Token} {p : Nat} (h : t.ends p = true) : t.precedence? ≠ some p := by
  intro hp
  simp [ends, hp] at h

/-- What ends an expression ends one with tighter operators only. -/
theorem ends_mono {t : Token} {p q : Nat} (h : t.ends p = true) (hpq : p ≤ q) : t.ends q = true := by
  simp only [ends, Bool.and_eq_true] at h ⊢
  refine ⟨h.1, ?_⟩
  cases hp : t.precedence? with
  | none => rfl
  | some r =>
    have hlt : r < p := by simpa [hp] using h.2
    simpa using Nat.lt_of_lt_of_le hlt hpq

/-- Brackets are a suffix, so where none may follow there are no brackets. -/
theorem startsBrackets_of_suffix {xs : List Lexeme} (h : (headToken xs).startsSuffix = false) :
    Parser.startsBrackets xs = false := by
  apply Parser.startsBrackets_of_headToken
  intro hx
  simp [hx, startsSuffix] at h

theorem startsOperand_of_isLiteral {t : Token} (h : t.isLiteral = true) : t.startsOperand = true := by
  cases t <;> first | rfl | simp [isLiteral] at h

/-- A token that starts an expression closes nothing. -/
theorem ne_of_startsExpr {t u : Token} (h : t.startsExpr = true) (hu : u.startsExpr = false) : t ≠ u := by
  rintro rfl
  simp [h] at hu

end Token

namespace Grammar

/-- The tokens that a derivation from a symbol may start with. -/
def ExprSymbol.starts : ExprSymbol → Token → Bool
  | .expr | .binary _ | .unary | .items => Token.startsExpr
  | .chain | .operand => Token.startsOperand
  | .arguments => fun t => t = .lParen
  | .array => fun t => t = .lBrace

/-- **The first token of a derivation** is one that the symbol may start with. -/
theorem DerivesExpr.starts {m : Mode} {sym : ExprSymbol} {xs : List Lexeme} {ts : List Expr}
    (h : DerivesExpr m sym xs ts) : sym.starts (headToken xs) = true := by
  induction h with
  | assign hx _ _ _ ihx | joined hx _ _ ihx | stepped hx _ ihx | index hx _ _ _ ihx | call hx _ ihx
    | select hx _ _ ihx | more hx _ _ ihx =>
    rw [headToken_append hx.ne_nil]
    simp_all [ExprSymbol.starts, Token.startsExpr]
  | literal hx => exact Token.startsOperand_of_isLiteral hx
  | _ => simp_all [ExprSymbol.starts, Token.startsExpr, Token.startsOperand]

theorem DerivesExpr.lParen_of_arguments {m : Mode} {xs : List Lexeme} {args : List Expr}
    (h : DerivesExpr m .arguments xs args) : headToken xs = .lParen := by
  simpa [ExprSymbol.starts] using h.starts

theorem DerivesExpr.lBrace_of_array {m : Mode} {xs : List Lexeme} {ts : List Expr}
    (h : DerivesExpr m .array xs ts) : headToken xs = .lBrace := by
  simpa [ExprSymbol.starts] using h.starts

end Grammar

namespace Parser

variable {setup : Setup} {m : Mode} {all xs ys rest : List Lexeme} {s : State} {d : Nat}

/-! ## What each symbol is accepted as -/

/-- The parser for expressions with operators of precedence at least `p`. -/
def levelsFrom (d p : Nat) : Parser Expr := binaryLevels (unary d) (7 - p)

/-- The operators of precedence `p`, over the tighter ones. -/
theorem levelsFrom_eq_binaryLevel {p : Nat} (hp : p ≤ 6) :
    levelsFrom d p = binaryLevel p (levelsFrom d (p + 1)) := by
  have hlevels : 7 - p = (6 - p) + 1 := by omega
  have hthis : 6 - (6 - p) = p := by omega
  have hnext : 7 - (p + 1) = 6 - p := by omega
  rw [levelsFrom, levelsFrom, hlevels, hnext, binaryLevels, hthis]

/-- An expression is accepted before a token that ends it. -/
def AcceptsExpr (setup : Setup) (m : Mode) (all : List Lexeme) (d : Nat) (xs : List Lexeme) (x : Expr) : Prop :=
  AcceptsBefore setup m all (expr d) (fun rest => (headToken rest).endsExpr = true) xs x

/-- An element of a list of expressions is accepted, and can be told from the end of the list. -/
def AcceptsElement (setup : Setup) (m : Mode) (all : List Lexeme) (d : Nat) (xs : List Lexeme) (x : Expr) : Prop :=
  AcceptsExpr setup m all d xs x ∧ xs ≠ [] ∧ (headToken xs).startsExpr = true

/-- Operators of precedence `p` and operands between them: the loop over them goes on before an operator of this
precedence. -/
def RepeatsLevel (setup : Setup) (m : Mode) (all : List Lexeme) (d p : Nat) (xs : List Lexeme) (x : Expr) : Prop :=
  ∀ (s : State) (rest : List Lexeme), s.Ready all (xs ++ rest) → (headToken rest).ends (p + 1) = true →
    RepeatsAfter setup m (levelsFrom d (p + 1)) (binaryStep p (levelsFrom d (p + 1))) s xs x

/-- An operand and what is applied to it from the right: the loop over that goes on. -/
def RepeatsChain (setup : Setup) (m : Mode) (all : List Lexeme) (d : Nat) (xs : List Lexeme) (x : Expr) : Prop :=
  ∀ (s : State) (rest : List Lexeme), s.Ready all (xs ++ rest) → startsBrackets rest = false →
    RepeatsAfter setup m (primary (innerOf d) (expr d)) (suffixStep (expr d)) s xs x

/-- **What the parser does before a derivation**, for each symbol of the grammar and any number `d` of levels that
suffices. -/
def Accepted (setup : Setup) (m : Mode) (all : List Lexeme) : ExprSymbol → List Lexeme → List Expr → Prop
  | .expr, xs, [x] => ∀ d, x.nesting + 1 ≤ d → AcceptsExpr setup m all d xs x
  | .binary p, xs, [x] => ∀ d, x.nesting ≤ d →
      AcceptsBefore setup m all (levelsFrom d p) (fun rest => (headToken rest).ends p = true) xs x ∧
        (p ≤ 6 → RepeatsLevel setup m all d p xs x)
  | .unary, xs, [x] => ∀ d, x.nesting ≤ d →
      AcceptsBefore setup m all (unary d) (fun rest => (headToken rest).startsSuffix = false) xs x
  | .chain, xs, [x] => ∀ d, x.nesting ≤ d → RepeatsChain setup m all d xs x
  | .operand, xs, [x] => ∀ d, x.nesting ≤ d →
      AcceptsBefore setup m all (primary (innerOf d) (expr d)) (fun rest => startsBrackets rest = false) xs x
  | .items, xs, ts => ∀ d, Expr.depths ts ≤ d → Separated (AcceptsElement setup m all d) xs ts
  | .arguments, xs, ts => ∀ d, Expr.depths ts ≤ d → ∃ ys r, xs = ys ++ [r] ∧
      AcceptsBefore setup m all (arguments (expr d)) (fun _ => True) xs (ts, r)
  | .array, xs, [.array a] => ∀ d, a.nesting ≤ d →
      AcceptsBefore setup m all (arrayLit (innerOf d)) (fun _ => True) xs a
  | _, _, _ => True

/-! ## Operators -/

/-- The loop over the operators of one level ends before anything looser. -/
theorem RepeatsLevel.accepts {p : Nat} {x : Expr} (hw : setup.Suits all) (hp : p ≤ 6)
    (h : RepeatsLevel setup m all d p xs x) :
    AcceptsBefore setup m all (levelsFrom d p) (fun rest => (headToken rest).ends p = true) xs x := by
  intro s rest hs hrest
  rw [levelsFrom_eq_binaryLevel hp]
  refine (h s rest hs (Token.ends_mono hrest (Nat.le_succ p))).loop_last hs fun s₁ hs₁ => ?_
  unfold binaryStep
  rw [accepts_current_bind, hs₁.token hw, if_neg (Token.precedence_ne_of_ends hrest)]
  exact .pure hs₁.running

/-- The loop over a level takes another operator of it, and the operand behind that. -/
theorem repeatsLevel_joined {p : Nat} {op : Lexeme} {x y : Expr} (hx : RepeatsLevel setup m all d p xs x)
    (hop : op.token.precedence? = some p)
    (hy : AcceptsBefore setup m all (levelsFrom d (p + 1)) (fun rest => (headToken rest).ends (p + 1) = true) ys y) :
    RepeatsLevel setup m all d p (xs ++ op :: ys) (.binary (x.location.through y.location) op.token x y) := by
  intro s rest hs hrest
  rw [List.append_assoc] at hs
  refine (hx s _ hs (by simpa using Token.ends_of_precedence hop)).extend hs (by simp) fun s₁ hs₁ => ?_
  unfold binaryStep
  rw [accepts_current_bind, hs₁.current, if_pos hop]
  refine accepts_next_bind hs₁ fun s₂ _ hs₂ => ?_
  exact (hy s₂ rest hs₂ hrest).last hs₂ fun s₃ _ hs₃ => .pure hs₃.running

/-- An expression that is no assignment is accepted where no assignment follows. -/
theorem acceptsExpr_value {x : Expr} (hw : setup.Suits all)
    (hx : AcceptsBefore setup m all (levelsFrom d 1) (fun rest => (headToken rest).ends 1 = true) xs x) :
    AcceptsExpr setup m all (d + 1) xs x := by
  intro s rest hs hrest
  simp only [Token.endsExpr, Bool.and_eq_true, Bool.not_eq_true'] at hrest
  rw [expr_eq_exprWith]
  refine (hx s rest hs hrest.1).last hs fun s₁ _ hs₁ => ?_
  rw [accepts_token_bind, hs₁.token hw, hrest.2]
  exact .pure hs₁.running

/-- An assignment is accepted. Where the target is no proper one, that is reported, and the mode has to be lax. -/
theorem acceptsExpr_assign {op : Lexeme} {x v : Expr} (hb : setup.Bears m)
    (hx : AcceptsBefore setup m all (levelsFrom d 1) (fun rest => (headToken rest).ends 1 = true) xs x)
    (hop : op.token.isAssign = true) (htarget : m.lax ∨ x.isAssignable = true)
    (hv : AcceptsExpr setup m all d ys v) :
    AcceptsExpr setup m all (d + 1) (xs ++ op :: ys) (.assign (x.location.through v.location) op.token x v) := by
  intro s rest hs hrest
  rw [List.append_assoc] at hs
  rw [expr_eq_exprWith]
  refine (hx s _ hs (by simpa using Token.ends_of_isAssign hop)).bind hs fun s₁ _ hs₁ => ?_
  rw [accepts_token_bind, hs₁.current, if_pos hop]
  refine accepts_next_bind hs₁ fun s₂ _ hs₂ => ?_
  split
  · next hbad =>
    have hlax : m.lax := htarget.resolve_right (by simpa using hbad)
    have hreport := accepts_report hs₂.running hb hlax (.cannotAssign x.describe) x.location rfl
    refine hreport.bind hs₂ fun s₃ _ hs₃ => ?_
    exact (hv s₃ rest hs₃ hrest).last hs₃ fun s₄ _ hs₄ => .pure hs₄.running
  · exact (hv s₂ rest hs₂ hrest).last hs₂ fun s₃ _ hs₃ => .pure hs₃.running

/-- A prefix operator goes one level deeper, and nothing follows its operand that could go on with it. -/
theorem acceptsUnary_signed {op : Lexeme} {x : Expr} (hop : isPrefixOperator op.token = true)
    (hx : AcceptsBefore setup m all (unary d) (fun rest => (headToken rest).startsSuffix = false) xs x) :
    AcceptsBefore setup m all (unary (d + 1)) (fun rest => (headToken rest).startsSuffix = false) (op :: xs)
      (.unary (op.location.through x.location) op.token x .before) := by
  intro s rest hs hrest
  rw [unary_eq_unaryWith]
  unfold unaryWith
  rw [accepts_token_bind, hs.current, if_pos hop]
  refine accepts_next_bind hs fun s₁ _ hs₁ => ?_
  exact (hx s₁ rest hs₁ hrest).last hs₁ fun s₂ _ hs₂ => .pure hs₂.running

/-- Where no prefix operator stands, an operand is read, and what is applied to it. -/
theorem unary_eq_suffixes (hs : s.Ready all xs) (hw : setup.Suits all) (h : (headToken xs).startsOperand = true) :
    unary d setup s = (primary (innerOf d) (expr d) >>= fun x => loop x (suffixStep (expr d))) setup s := by
  have hop : isPrefixOperator (headToken xs) = false := by
    revert h
    cases headToken xs <;> decide
  rw [unary_eq_unaryWith]
  unfold unaryWith
  show (if isPrefixOperator (s.current setup).token = true then _ else _ : Parser Expr) setup s = _
  rw [hs.token hw, hop, if_neg (by decide), ← expr_eq_exprWith]
  rfl

/-- Where no suffix follows, the loop over suffixes is done. -/
theorem accepts_suffixStep_done {x : Expr} (hw : setup.Suits all) (hs : s.Ready all rest)
    (hrest : (headToken rest).startsSuffix = false) :
    Accepts setup m (suffixStep (expr d) x) s [] (.done x) := by
  unfold suffixStep
  rw [accepts_token_bind, hs.token hw]
  split
  case h_6 => exact .pure hs.running
  all_goals
    next h => simp [h, Token.startsSuffix] at hrest

theorem accepts_suffixStep_stepped {op : Lexeme} {x : Expr} (hs : s.Ready all (op :: rest))
    (hop : op.token = .inc ∨ op.token = .dec) :
    Accepts setup m (suffixStep (expr d) x) s [op]
      (.done (.unary (x.location.through op.location) op.token x .after)) := by
  unfold suffixStep
  rw [accepts_token_bind, hs.current]
  rcases hop with hop | hop <;> rw [hop] <;>
    exact accepts_next_bind hs fun s₁ _ hs₁ => hop ▸ .pure hs₁.running

/-- A chain is a unary expression where no other suffix follows. -/
theorem RepeatsChain.accepts {x : Expr} (hw : setup.Suits all) (hstart : (headToken xs).startsOperand = true)
    (hne : xs ≠ []) (h : RepeatsChain setup m all d xs x) :
    AcceptsBefore setup m all (unary d) (fun rest => (headToken rest).startsSuffix = false) xs x := by
  intro s rest hs hrest
  have hloop := (h s rest hs (Token.startsBrackets_of_suffix hrest)).loop_last hs
    fun s₁ hs₁ => accepts_suffixStep_done hw hs₁ hrest
  unfold Accepts
  rwa [unary_eq_suffixes hs hw (by rwa [headToken_append hne])]

/-- An operator behind the chain is the last suffix. -/
theorem RepeatsChain.accepts_stepped {op : Lexeme} {x : Expr} (hw : setup.Suits all)
    (hstart : (headToken xs).startsOperand = true) (hne : xs ≠ []) (h : RepeatsChain setup m all d xs x)
    (hop : op.token = .inc ∨ op.token = .dec) :
    AcceptsBefore setup m all (unary d) (fun rest => (headToken rest).startsSuffix = false) (xs ++ [op])
      (.unary (x.location.through op.location) op.token x .after) := by
  intro s rest hs _
  rw [List.append_assoc] at hs
  have hbrackets : startsBrackets ([op] ++ rest) = false :=
    startsBrackets_of_headToken (by rcases hop with hop | hop <;> simp [hop])
  have hloop := (h s _ hs hbrackets).loop hs fun s₁ hs₁ => accepts_suffixStep_stepped hs₁ hop
  unfold Accepts
  rwa [unary_eq_suffixes hs hw (by rwa [headToken_append hne])]

/-! ## Chains -/

/-- An index goes on with the chain. -/
theorem repeatsChain_index {l r : Lexeme} {x i : Expr} (hx : RepeatsChain setup m all d xs x)
    (hl : l.token = .lSquare) (hi : AcceptsElement setup m all d ys i) (hr : r.token = .rSquare) :
    RepeatsChain setup m all d (xs ++ l :: (ys ++ [r])) (.index (x.location.through r.location) x i) := by
  intro s rest hs _
  obtain ⟨hi, hne, hstart⟩ := hi
  rw [List.append_assoc] at hs
  have hbrackets : startsBrackets (l :: (ys ++ [r]) ++ rest) = false := by
    obtain ⟨y, ys, rfl⟩ := List.exists_cons_of_ne_nil hne
    have hy : y.token ≠ .rSquare := Token.ne_of_startsExpr hstart rfl
    simp [startsBrackets, hy]
  refine (hx s _ hs hbrackets).extend hs (by simp) fun s₁ hs₁ => ?_
  unfold suffixStep
  rw [accepts_token_bind, hs₁.current, hl]
  rw [List.cons_append, List.append_assoc] at hs₁
  refine accepts_next_bind hs₁ fun s₂ _ hs₂ => ?_
  refine (hi s₂ _ hs₂ (by simp [hr]; rfl)).bind hs₂ fun s₃ _ hs₃ => ?_
  exact accepts_want_bind hs₃ hr fun s₄ _ hs₄ => .pure hs₄.running

/-- Arguments go on with the chain. -/
theorem repeatsChain_call {r : Lexeme} {x : Expr} {args : List Expr} (hw : setup.Suits all)
    (hx : RepeatsChain setup m all d xs x) (hstart : headToken (ys ++ [r]) = .lParen)
    (ha : AcceptsBefore setup m all (arguments (expr d)) (fun _ => True) (ys ++ [r]) (args, r)) :
    RepeatsChain setup m all d (xs ++ (ys ++ [r])) (.call (x.location.through r.location) x args) := by
  intro s rest hs _
  rw [List.append_assoc] at hs
  have hhead : headToken (ys ++ [r] ++ rest) = .lParen := by rwa [headToken_append (by simp)]
  have hbrackets : startsBrackets (ys ++ [r] ++ rest) = false := startsBrackets_of_headToken (by rw [hhead]; decide)
  refine (hx s _ hs hbrackets).extend hs (by simp) fun s₁ hs₁ => ?_
  unfold suffixStep
  rw [accepts_token_bind, hs₁.token hw, hhead]
  exact (ha s₁ rest hs₁ trivial).last hs₁ fun s₂ _ hs₂ => .pure hs₂.running

/-- A selector goes on with the chain. -/
theorem repeatsChain_select {i dot : Lexeme} {x : Expr} (hx : RepeatsChain setup m all d xs x)
    (hdot : dot.token = .dot) (hi : i.token = .ident) :
    RepeatsChain setup m all d (xs ++ [dot, i]) (.select (x.location.through i.location) x i.ident) := by
  intro s rest hs _
  rw [List.append_assoc] at hs
  have hbrackets : startsBrackets ([dot, i] ++ rest) = false := startsBrackets_of_headToken (by simp [hdot])
  refine (hx s _ hs hbrackets).extend hs (by simp) fun s₁ hs₁ => ?_
  unfold suffixStep
  rw [accepts_token_bind, hs₁.current, hdot]
  refine accepts_next_bind hs₁ fun s₂ _ hs₂ => ?_
  exact (accepts_ident hs₂ hi).last hs₂ fun s₃ _ hs₃ => .pure hs₃.running

/-! ## Operands -/

theorem accepts_literal {x : Lexeme} (hx : x.token.isLiteral = true) :
    AcceptsBefore setup m all (primary (innerOf d) (expr d)) (fun rest => startsBrackets rest = false) [x]
      (.literal x.literal) := by
  intro s rest hs _
  unfold primary
  rw [accepts_current_bind, hs.current]
  have hnext : Accepts setup m (next >>= fun _ => pure (Expr.literal x.literal)) s [x] (Expr.literal x.literal) :=
    accepts_next_bind hs fun s₁ _ hs₁ => .pure hs₁.running
  split
  case h_1 | h_2 | h_3 | h_4 | h_5 | h_6 => exact hnext
  case h_12 h₁ h₂ h₃ h₄ h₅ h₆ _ _ _ _ _ =>
    cases htok : x.token <;> simp_all [Token.isLiteral]
  all_goals
    next h => simp [h, Token.isLiteral] at hx

/-- A malformed token is taken as it stands. -/
theorem accepts_malformed {x : Lexeme} (hx : x.token = .invalid) :
    AcceptsBefore setup m all (primary (innerOf d) (expr d)) (fun rest => startsBrackets rest = false) [x]
      (.bad x.location) := by
  intro s rest hs _
  unfold primary
  rw [accepts_current_bind, hs.current, hx]
  exact accepts_next_bind hs fun s₁ _ hs₁ => .pure hs₁.running

/-- A name is an operand. -/
theorem accepts_identOperand {x : Lexeme} (hx : x.token = .ident) :
    AcceptsBefore setup m all (primary (innerOf d) (expr d)) (fun rest => startsBrackets rest = false) [x]
      (.ident x.ident) := by
  intro s rest hs _
  unfold primary
  rw [accepts_current_bind, hs.current, hx]
  exact (accepts_ident hs hx).last hs fun s₁ _ hs₁ => .pure hs₁.running

/-- What stands in parentheses is accepted one level deeper. -/
theorem accepts_paren {l r : Lexeme} {x : Expr} (hl : l.token = .lParen) (hx : AcceptsExpr setup m all d xs x)
    (hr : r.token = .rParen) :
    AcceptsBefore setup m all (primary (innerOf (d + 1)) (expr (d + 1))) (fun rest => startsBrackets rest = false)
      (l :: (xs ++ [r])) (.paren (l.location.through r.location) x) := by
  intro s rest hs _
  rw [List.cons_append, List.append_assoc] at hs
  unfold primary
  rw [accepts_current_bind, hs.current, hl]
  refine accepts_next_bind hs fun s₁ _ hs₁ => ?_
  refine (hx s₁ _ hs₁ (by simp [hr]; rfl)).bind hs₁ fun s₂ _ hs₂ => ?_
  exact accepts_want_bind hs₂ hr fun s₃ _ hs₃ => .pure hs₃.running

theorem accepts_arrayOperand {a : ArrayLit} (hw : setup.Suits all) (hstart : headToken xs = .lBrace) (hne : xs ≠ [])
    (ha : AcceptsBefore setup m all (arrayLit (innerOf d)) (fun _ => True) xs a) :
    AcceptsBefore setup m all (primary (innerOf d) (expr d)) (fun rest => startsBrackets rest = false) xs
      (.array a) := by
  intro s rest hs _
  unfold primary
  rw [accepts_current_bind, hs.token hw, headToken_append hne, hstart]
  exact (ha s rest hs trivial).last hs fun s₁ _ hs₁ => .pure hs₁.running

/-- Where a parenthesis follows the name, arguments are read. -/
theorem accepts_newObject {kw r : Lexeme} {t : TypeName} {args : List Expr} (hw : setup.Suits all)
    (hk : kw.token = .kwNew) (hq : QualName xs t) (hstart : headToken (ys ++ [r]) = .lParen)
    (ha : AcceptsBefore setup m all (arguments (expr d)) (fun _ => True) (ys ++ [r]) (args, r)) :
    AcceptsBefore setup m all (primary (innerOf d) (expr d)) (fun rest => startsBrackets rest = false)
      (kw :: (xs ++ (ys ++ [r]))) (.new (extent (kw :: (xs ++ (ys ++ [r])))) t args none none) := by
  intro s rest hs _
  have hplace := hs.place
  rw [List.cons_append, List.append_assoc] at hs
  have hhead : headToken (ys ++ [r] ++ rest) = .lParen := by rwa [headToken_append (by simp)]
  unfold primary allocation
  rw [accepts_current_bind, hs.current, hk]
  refine accepts_want_bind hs hk fun s₁ h₁ hs₁ => ?_
  refine (accepts_qualifiedName hq hs₁ (by rw [hhead]; decide)).bind hs₁ fun s₂ h₂ hs₂ => ?_
  rw [accepts_token_bind, hs₂.token hw, hhead]
  refine (ha s₂ rest hs₂ trivial).last hs₂ fun s₃ h₃ hs₃ => ?_
  rw [accepts_spanFrom_bind, spanFrom_eq_of_passes hw hplace (h₁.trans (h₂.trans h₃))]
  exact .pure hs₃.running

/-- Where a bracket and no closing one follow the name, a length is read, and then more dimensions. -/
theorem accepts_newLength {kw l r : Lexeme} {zs : List Lexeme} {t : TypeName} {len : Expr} {n : Nat}
    (hw : setup.Suits all) (hk : kw.token = .kwNew) (hq : QualName xs t) (hl : l.token = .lSquare)
    (hlen : AcceptsElement setup m all d ys len) (hr : r.token = .rSquare) (hn : Brackets zs n) :
    AcceptsBefore setup m all (primary (innerOf d) (expr d)) (fun rest => startsBrackets rest = false)
      (kw :: (xs ++ l :: (ys ++ r :: zs)))
      (.new (extent (kw :: (xs ++ l :: (ys ++ r :: zs)))) { t with dims := n + 1 } [] (some len) none) := by
  intro s rest hs hrest
  obtain ⟨hlen, hne, hstart⟩ := hlen
  have hplace := hs.place
  simp only [List.cons_append, List.append_assoc] at hs
  have hdims : Dimensioned t false zs { t with dims := n } := ⟨n, hn, by simp [hq.dims]⟩
  unfold primary allocation
  rw [accepts_current_bind, hs.current, hk]
  refine accepts_want_bind hs hk fun s₁ h₁ hs₁ => ?_
  refine (accepts_qualifiedName hq hs₁ (by simp [hl])).bind hs₁ fun s₂ h₂ hs₂ => ?_
  rw [accepts_token_bind, hs₂.current, hl]
  simp only
  rw [accepts_get_bind, if_neg ?length]
  case length =>
    -- the length is an expression and no closing bracket
    obtain ⟨y, ys, rfl⟩ := List.exists_cons_of_ne_nil hne
    have hy : y.token ≠ .rSquare := Token.ne_of_startsExpr hstart rfl
    simp [hs₂.rest, hy]
  refine accepts_next_bind hs₂ fun s₃ h₃ hs₃ => ?_
  refine (hlen s₃ _ hs₃ (by simp [hr]; rfl)).bind hs₃ fun s₄ h₄ hs₄ => ?_
  refine accepts_want_bind hs₄ hr fun s₅ h₅ hs₅ => ?_
  refine (accepts_dimensions hdims hs₅ hrest).last hs₅ fun s₆ h₆ hs₆ => ?_
  have hall := h₁.trans (h₂.trans (h₃.trans (h₄.trans (h₅.trans h₆))))
  rw [accepts_spanFrom_bind, spanFrom_eq_of_passes hw hplace hall]
  exact .pure hs₆.running

/-- A type with dimensions is a name and at least one pair of brackets. -/
theorem dimensioned_of_pos {t' : TypeName} (h : TypeRef xs t') (hpos : 0 < t'.dims) :
    ∃ ys l r zs t, xs = ys ++ l :: r :: zs ∧ QualName ys t ∧ l.token = .lSquare ∧ r.token = .rSquare ∧
      Dimensioned t true (l :: r :: zs) t' := by
  obtain ⟨ys, zs, t, rfl, hq, hdims⟩ := dimensioned_of_typeRef h
  obtain ⟨n, hn, rfl⟩ := id hdims
  cases hn with
  | none => simp [hq.dims] at hpos
  | @pair l r zs n hl hr hn => exact ⟨ys, l, r, zs, t, rfl, hq, hl, hr, hdims⟩

/-- Where brackets follow the name, all of them are read, and then the elements. -/
theorem accepts_newElements {kw : Lexeme} {t : TypeName} {a : ArrayLit} (hw : setup.Suits all)
    (hk : kw.token = .kwNew) (ht : TypeRef xs t) (hpos : 0 < t.dims) (hstart : headToken ys = .lBrace) (hne : ys ≠ [])
    (ha : AcceptsBefore setup m all (arrayLit (innerOf d)) (fun _ => True) ys a) :
    AcceptsBefore setup m all (primary (innerOf d) (expr d)) (fun rest => startsBrackets rest = false)
      (kw :: (xs ++ ys)) (.new (extent (kw :: (xs ++ ys))) t [] none (some a)) := by
  intro s rest hs hrest
  obtain ⟨qs, l, r, zs, q, rfl, hq, hl, hr, hdims⟩ := dimensioned_of_pos ht hpos
  have hplace := hs.place
  simp only [List.cons_append, List.append_assoc] at hs
  have hbrace : startsBrackets (ys ++ rest) = false := by
    apply startsBrackets_of_headToken
    rw [headToken_append hne, hstart]
    decide
  unfold primary allocation
  rw [accepts_current_bind, hs.current, hk]
  simp only [List.append_assoc]
  refine accepts_want_bind hs hk fun s₁ h₁ hs₁ => ?_
  refine (accepts_qualifiedName hq hs₁ (by simp [hl])).bind hs₁ fun s₂ h₂ hs₂ => ?_
  rw [accepts_token_bind, hs₂.current, hl]
  simp only
  rw [accepts_get_bind, if_pos (by simp [hs₂.rest, hr])]
  refine (accepts_dimensions hdims hs₂ hbrace).bind hs₂ fun s₃ h₃ hs₃ => ?_
  refine (ha s₃ rest hs₃ trivial).last hs₃ fun s₄ h₄ hs₄ => ?_
  have hall := h₁.trans (h₂.trans (h₃.trans h₄))
  rw [accepts_spanFrom_bind, spanFrom_eq_of_passes hw hplace hall]
  exact .pure hs₄.running

/-! ## Lists of expressions -/

theorem acceptsItem_element (setup : Setup) (m : Mode) (all : List Lexeme) (d : Nat) :
    AcceptsItem setup m all (expr d) (AcceptsElement setup m all d) (fun t => t.endsExpr = true) :=
  fun _ _ h s rest hs hrest => h.1 s rest hs hrest

/-- An expression does not start with a brace that could end the literal. -/
theorem stepsByItem_elementStep (hw : setup.Suits all) :
    StepsByItem setup all (expr d) (elementStep (expr d)) (AcceptsElement setup m all d) := by
  intro xs x hx s rest as hs
  have hne : headToken (xs ++ rest) ≠ .rBrace := by
    rw [headToken_append hx.2.1]
    exact Token.ne_of_startsExpr hx.2.2 rfl
  unfold elementStep
  show (if (s.current setup).token = .rBrace then _ else _ : Parser _) setup s = _
  rw [hs.token hw, if_neg hne]

/-- An empty pair of parentheses is told by the second one. -/
theorem accepts_arguments_none {l r : Lexeme} (hl : l.token = .lParen) (hr : r.token = .rParen) :
    AcceptsBefore setup m all (arguments (expr d)) (fun _ => True) [l, r] ([], r) := by
  intro s rest hs _
  refine accepts_want_bind hs hl fun s₁ _ hs₁ => ?_
  have hnone : Accepts setup m (separatedUntil .rParen (expr d)) s₁ [] [] := by
    unfold separatedUntil
    rw [accepts_token_bind, hs₁.current, if_pos hr]
    exact .pure hs₁.running
  refine hnone.bind hs₁ fun s₂ _ hs₂ => ?_
  exact accepts_want_bind hs₂ hr fun s₃ _ hs₃ => .pure hs₃.running

/-- A list of expressions starts with one. -/
theorem Separated.head {ts : List Expr} (h : Separated (AcceptsElement setup m all d) xs ts) :
    xs ≠ [] ∧ (headToken xs).startsExpr = true := by
  cases h with
  | one hx => exact hx.2
  | more hx _ _ => exact ⟨by simp, by rw [headToken_append hx.2.1]; exact hx.2.2⟩

/-- Arguments are items with commas between them, up to the parenthesis. -/
theorem accepts_arguments_some {l r : Lexeme} {ts : List Expr} (hw : setup.Suits all) (hl : l.token = .lParen)
    (hts : Separated (AcceptsElement setup m all d) xs ts) (hr : r.token = .rParen) :
    AcceptsBefore setup m all (arguments (expr d)) (fun _ => True) (l :: (xs ++ [r])) (ts, r) := by
  intro s rest hs _
  rw [List.cons_append, List.append_assoc] at hs
  refine accepts_want_bind hs hl fun s₁ _ hs₁ => ?_
  have hne : headToken (xs ++ ([r] ++ rest)) ≠ .rParen := by
    rw [headToken_append hts.head.1]
    exact Token.ne_of_startsExpr hts.head.2 rfl
  have hsome : Accepts setup m (separatedUntil .rParen (expr d)) s₁ xs ts := by
    unfold separatedUntil
    rw [accepts_token_bind, hs₁.token hw, if_neg hne]
    exact accepts_separated hw (acceptsItem_element setup m all d) rfl hts hs₁ (by simp [hr]; rfl) (by simp [hr])
  refine hsome.bind hs₁ fun s₂ _ hs₂ => ?_
  exact accepts_want_bind hs₂ hr fun s₃ _ hs₃ => .pure hs₃.running

/-- An array literal, given what its loop does up to the closing brace. -/
theorem accepts_arrayLit {l r : Lexeme} {ts : List Expr} (hl : l.token = .lBrace) (hr : r.token = .rBrace)
    (hts : ∀ (s : State) (rest : List Lexeme), s.Ready all (xs ++ r :: rest) →
      Finishes setup m (elementStep (expr d)) [] s xs ts) :
    AcceptsBefore setup m all (arrayLit (innerOf (d + 1))) (fun _ => True) (l :: (xs ++ [r]))
      (.mk (extent (l :: (xs ++ [r]))) ts) := by
  intro s rest hs _
  rw [List.cons_append, List.append_assoc] at hs
  rw [extent_concat]
  refine accepts_want_bind hs hl fun s₁ _ hs₁ => ?_
  refine (hts s₁ rest hs₁).loop.bind hs₁ fun s₂ _ hs₂ => ?_
  exact accepts_want_bind hs₂ hr fun s₃ _ hs₃ => .pure hs₃.running

theorem accepts_elementStep_done {r : Lexeme} {ts : List Expr} (hs : s.Ready all (r :: rest))
    (hr : r.token = .rBrace) : Accepts setup m (elementStep (expr d) ts) s [] (.done ts) := by
  unfold elementStep
  rw [accepts_token_bind, hs.current, if_pos hr]
  exact .pure hs.running

/-! ## All symbols -/

theorem acceptsElement_of_derives {x : Expr} (h : DerivesExpr m .expr xs [x])
    (hx : AcceptsExpr setup m all d xs x) : AcceptsElement setup m all d xs x :=
  ⟨hx, h.ne_nil, h.starts⟩

/-- **Derivations of expressions are accepted**, by the parser for their symbol. -/
theorem accepted {sym : ExprSymbol} {ts : List Expr} (hw : setup.Suits all) (hb : setup.Bears m)
    (h : DerivesExpr m sym xs ts) : Accepted setup m all sym xs ts := by
  -- the number of levels is introduced in each case, since some of the cases spend one
  induction h with
  | value _ ih =>
    intro d hd
    obtain ⟨d, rfl⟩ : ∃ d', d = d' + 1 := ⟨d - 1, by omega⟩
    exact acceptsExpr_value hw (ih d (by omega)).1
  | assign hx hop htarget hv ihx ihv =>
    intro d hd
    simp only [Expr.nesting] at hd
    obtain ⟨d, rfl⟩ : ∃ d', d = d' + 1 := ⟨d - 1, by omega⟩
    -- the parser joins the locations of the operands, and that is the extent of the tokens
    have hassign := acceptsExpr_assign hb (ihx d (by omega)).1 hop htarget (ihv d (by omega))
    rwa [hx.through rfl [_] hv rfl] at hassign
  | @joined p _ _ _ _ _ hx hop hy ihx ihy =>
    intro d hd
    simp only [Expr.nesting] at hd
    have hp := (Token.precedence?_bounds hop).2
    have hlevel : RepeatsLevel setup m all d p _ _ :=
      repeatsLevel_joined ((ihx d (by omega)).2 hp) hop (ihy d (by omega)).1
    rw [hx.through rfl [_] hy rfl] at hlevel
    exact ⟨hlevel.accepts hw hp, fun _ => hlevel⟩
  | @tighter p _ _ hp _ ih =>
    intro d hd
    have hlevel : RepeatsLevel setup m all d p _ _ :=
      fun s rest hs hrest => .start ((ih d hd).1 s rest hs hrest)
    exact ⟨hlevel.accepts hw hp, fun _ => hlevel⟩
  | term _ ih =>
    intro d hd
    exact ⟨fun s rest hs hrest => ih d hd s rest hs (Token.startsSuffix_of_ends hrest), fun h => absurd h (by decide)⟩
  | @signed op xs x hop hx ih =>
    intro d hd
    simp only [Expr.nesting] at hd
    obtain ⟨d, rfl⟩ : ∃ d', d = d' + 1 := ⟨d - 1, by omega⟩
    rw [extent_cons op hx.ne_nil, ← hx.location rfl x (by simp)]
    exact acceptsUnary_signed hop (ih d (by omega))
  | unsigned hx ih =>
    intro d hd
    exact (ih d hd).accepts hw hx.starts hx.ne_nil
  | stepped hx hop ih =>
    intro d hd
    have hstepped := (ih d hd).accepts_stepped hw hx.starts hx.ne_nil hop
    rwa [hx.through_token rfl [] _] at hstepped
  | start _ ih =>
    intro d hd s rest hs hrest
    exact .start (ih d hd s rest hs hrest)
  | index hx hl hi hr ihx ihi =>
    intro d hd
    simp only [Expr.nesting] at hd
    have hindex := repeatsChain_index (ihx d (by omega)) hl (acceptsElement_of_derives hi (ihi d (by omega))) hr
    rwa [hx.through_token rfl (_ :: _) _] at hindex
  | call hx ha ihx iha =>
    intro d hd
    simp only [Expr.nesting] at hd
    obtain ⟨ys, r, rfl, hargs⟩ := iha d (by omega)
    have hcall := repeatsChain_call hw (ihx d (by omega)) ha.lParen_of_arguments hargs
    rwa [hx.through_token rfl ys _] at hcall
  | select hx hdot hi ih =>
    intro d hd
    have hselect := repeatsChain_select (ih d hd) hdot hi
    rwa [hx.through_token rfl [_] _] at hselect
  | literal hx => exact fun d _ => accepts_literal hx
  | ident hx => exact fun d _ => accepts_identOperand hx
  | paren hl _ hr ih =>
    intro d hd
    simp only [Expr.nesting] at hd
    obtain ⟨d, rfl⟩ : ∃ d', d = d' + 1 := ⟨d - 1, by omega⟩
    rw [extent_concat]
    exact accepts_paren hl (ih d (by omega)) hr
  | arrayOperand ha ih =>
    obtain ⟨a, ha'⟩ := ha.eq_array
    cases ha'
    intro d hd
    exact accepts_arrayOperand hw ha.lBrace_of_array ha.ne_nil (ih d hd)
  | newObject hk hq ha ih =>
    intro d hd
    simp only [Expr.nesting] at hd
    obtain ⟨ys, r, rfl, hargs⟩ := ih d (by omega)
    exact accepts_newObject hw hk hq ha.lParen_of_arguments hargs
  | newLength hk hq hl hlen hr hn ih =>
    intro d hd
    simp only [Expr.nesting] at hd
    exact accepts_newLength hw hk hq hl (acceptsElement_of_derives hlen (ih d (by omega))) hr hn
  | newElements hk ht hpos ha ih =>
    intro d hd
    simp only [Expr.nesting] at hd
    exact accepts_newElements hw hk ht hpos ha.lBrace_of_array ha.ne_nil (ih d (by omega))
  | malformed _ hx => exact fun d _ => accepts_malformed hx
  | one hx ih =>
    intro d hd
    simp only [Expr.depths] at hd
    exact .one (acceptsElement_of_derives hx (ih d (by omega)))
  | more hx hc _ ih ihs =>
    intro d hd
    simp only [Expr.depths] at hd
    exact .more (acceptsElement_of_derives hx (ih d (by omega))) hc (ihs d (by omega))
  | @noArguments l r hl hr => exact fun d _ => ⟨[l], r, rfl, accepts_arguments_none hl hr⟩
  | @someArguments l r xs ts hl _ hr ih =>
    intro d hd
    exact ⟨l :: xs, r, by simp, accepts_arguments_some hw hl (ih d hd) hr⟩
  | @noElements l r hl hr =>
    intro d hd
    simp only [ArrayLit.nesting] at hd
    obtain ⟨d, rfl⟩ : ∃ d', d = d' + 1 := ⟨d - 1, by omega⟩
    have harray : AcceptsBefore setup m all (arrayLit (innerOf (d + 1))) (fun _ => True) (l :: ([] ++ [r])) _ :=
      accepts_arrayLit hl hr fun s rest hs => .done (accepts_elementStep_done hs hr)
    exact harray
  | elements hl hts hr ih =>
    intro d hd
    simp only [ArrayLit.nesting] at hd
    obtain ⟨d, rfl⟩ : ∃ d', d = d' + 1 := ⟨d - 1, by omega⟩
    refine accepts_arrayLit hl hr fun s rest hs => ?_
    exact finishes_items hw (acceptsItem_element setup m all d) (stepsByItem_elementStep hw) rfl (ih d (by omega)) hs
      (by simp [hr]; rfl) (by simp [hr]) []
  | @elementsComma l c r xs ts hl hts hc hr ih =>
    intro d hd
    simp only [ArrayLit.nesting] at hd
    obtain ⟨d, rfl⟩ : ∃ d', d = d' + 1 := ⟨d - 1, by omega⟩
    -- the last comma is taken by the loop, which then finds the closing brace
    have htokens : l :: (xs ++ [c, r]) = l :: ((xs ++ [c]) ++ [r]) := by simp
    rw [htokens]
    refine accepts_arrayLit hl hr fun s rest hs => ?_
    have hs' : s.Ready all (xs ++ c :: (r :: rest)) := by simpa using hs
    have hitems := repeats_items (acceptsItem_element setup m all d) (stepsByItem_elementStep hw) rfl (ih d (by omega))
      hc hs' []
    exact hitems.finish_last hs fun s₁ hs₁ => accepts_elementStep_done hs₁ hr

/-- **An expression is accepted** by a parser with enough levels to spend. -/
theorem accepts_expr {x : Expr} (hw : setup.Suits all) (hb : setup.Bears m)
    (h : DerivesExpr m .expr xs [x]) (hd : x.nesting + 1 ≤ d) (hs : s.Ready all (xs ++ rest))
    (hrest : (headToken rest).endsExpr = true) : Accepts setup m (expr d) s xs x :=
  accepted hw hb h d hd s rest hs hrest

end Parser

end SmallJava
