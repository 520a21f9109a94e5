import SmallJava.Proofs.Grammar.Fitting
import SmallJava.Proofs.Making.Name
import SmallJava.Proofs.Printing.Expr
import SmallJava.Proofs.Shape

/-!
# Expressions made of tokens

An expression that has its shape, and whose names and constants are spelled as they should be, is derived from some
tokens, whoever built it. Its locations are those of the tokens, so it is that expression up to locations.

* `ExprSymbol.Makes` — what a symbol derives from some tokens, up to locations;
* `Expr.symbol` — the symbol that binds an expression most tightly, and `makes_chain`, `makes_unary`, `makes_binary`,
  `makes_expr` for the others;
* `Expr.makes_symbol` — an expression is made if those below it are.
-/

namespace SmallJava

open Grammar
open Token (token_mark token_lexeme)

namespace Grammar

variable {m : Mode} {sym sym' : ExprSymbol} {x y : Expr} {ts : List Expr}

/-- The symbol derives the expressions from some tokens, up to their locations. -/
def ExprSymbol.Makes (m : Mode) (sym : ExprSymbol) (ts : List Expr) : Prop :=
  ∃ xs us, DerivesExpr m sym xs us ∧ (∀ x ∈ xs, x.Faithful) ∧ Expr.unlocatedAll us = Expr.unlocatedAll ts

namespace ExprSymbol.Makes

/-- Tokens from which an expression of the same structure is derived. -/
theorem single (h : sym.Makes m [x]) :
    ∃ xs u, DerivesExpr m sym xs [u] ∧ (∀ x ∈ xs, x.Faithful) ∧ u.unlocated = x.unlocated := by
  obtain ⟨xs, us, hus, hf, heq⟩ := h
  obtain ⟨u, rfl, hu⟩ := unlocatedAll_eq_singleton heq
  exact ⟨xs, u, hus, hf, hu⟩

/-- One symbol stands for another. -/
theorem lift (h : sym.Makes m [x]) (hd : ∀ xs u, DerivesExpr m sym xs [u] → DerivesExpr m sym' xs [u]) :
    sym'.Makes m [x] := by
  obtain ⟨xs, u, hu, hf, heq⟩ := h.single
  exact ⟨xs, [u], hd xs u hu, hf, by simp [heq]⟩

/-! ## Productions -/

theorem assign {loc : Location} {op : Token} (hx : (ExprSymbol.binary 1).Makes m [x]) (hop : op.isAssign = true)
    (ht : m.lax ∨ x.isAssignable = true) (hy : ExprSymbol.expr.Makes m [y]) :
    ExprSymbol.expr.Makes m [.assign loc op x y] := by
  obtain ⟨xs, u, hu, hfx, hux⟩ := hx.single
  obtain ⟨ys, v, hv, hfy, hvy⟩ := hy.single
  have hf : op.mark.Faithful := Token.faithful_mark (.inr (Token.isOperator_of_isAssign hop))
  have htarget : m.lax ∨ u.isAssignable = true := by
    rwa [← Expr.isAssignable_unlocated, hux, Expr.isAssignable_unlocated]
  refine ⟨xs ++ op.mark :: ys, _, .assign hu hop htarget hv, ?_, by simp [hux, hvy]⟩
  simpa [or_imp, forall_and, hf] using ⟨hfx, hfy⟩

/-- An operator of precedence `p` has its own level to the left, and the next one to the right. -/
theorem joined {loc : Location} {op : Token} {p : Nat} (hx : (ExprSymbol.binary p).Makes m [x])
    (hop : op.precedence? = some p) (hy : (ExprSymbol.binary (p + 1)).Makes m [y]) :
    (ExprSymbol.binary p).Makes m [.binary loc op x y] := by
  obtain ⟨xs, u, hu, hfx, hux⟩ := hx.single
  obtain ⟨ys, v, hv, hfy, hvy⟩ := hy.single
  have hf : op.mark.Faithful := Token.faithful_mark (.inr (Token.isOperator_of_precedence? hop))
  refine ⟨xs ++ op.mark :: ys, _, .joined hu hop hv, ?_, by simp [hux, hvy]⟩
  simpa [or_imp, forall_and, hf] using ⟨hfx, hfy⟩

/-- A prefix operator makes a unary expression of another one. -/
theorem signed {loc : Location} {op : Token} (hop : Parser.isPrefixOperator op = true)
    (hx : ExprSymbol.unary.Makes m [x]) : ExprSymbol.unary.Makes m [.unary loc op x .before] := by
  obtain ⟨xs, u, hu, hfx, hux⟩ := hx.single
  have hf : op.mark.Faithful := Token.faithful_mark (.inr (Token.isOperator_of_isPrefixOperator hop))
  exact ⟨op.mark :: xs, _, .signed hop hu, by simpa [hf] using hfx, by simp [hux]⟩

/-- An operator behind a chain makes a unary expression of it. -/
theorem stepped {loc : Location} {op : Token} (hx : ExprSymbol.chain.Makes m [x]) (hop : op ∈ [Token.inc, .dec]) :
    ExprSymbol.unary.Makes m [.unary loc op x .after] := by
  obtain ⟨xs, u, hu, hfx, hux⟩ := hx.single
  have hop : op = .inc ∨ op = .dec := by simpa using hop
  have hf : op.mark.Faithful := Token.faithful_mark (by rcases hop with rfl | rfl <;> exact .inr rfl)
  refine ⟨xs ++ [op.mark], _, .stepped hu hop, ?_, by simp [hux]⟩
  exact List.forall_mem_append.2 ⟨hfx, List.forall_mem_singleton.2 hf⟩

theorem index {loc : Location} (hx : ExprSymbol.chain.Makes m [x]) (hy : ExprSymbol.expr.Makes m [y]) :
    ExprSymbol.chain.Makes m [.index loc x y] := by
  obtain ⟨xs, u, hu, hfx, hux⟩ := hx.single
  obtain ⟨ys, v, hv, hfy, hvy⟩ := hy.single
  refine ⟨_, _, .index hu (token_mark _) hv (token_mark _), ?_, by simp [hux, hvy]⟩
  simpa +decide [or_imp, forall_and, Token.faithful_mark] using ⟨hfx, hfy⟩

theorem call {loc : Location} (hx : ExprSymbol.chain.Makes m [x]) (hargs : ExprSymbol.arguments.Makes m ts) :
    ExprSymbol.chain.Makes m [.call loc x ts] := by
  obtain ⟨xs, u, hu, hfx, hux⟩ := hx.single
  obtain ⟨ys, vs, hvs, hfy, hvts⟩ := hargs
  exact ⟨_, _, .call hu hvs, List.forall_mem_append.2 ⟨hfx, hfy⟩, by simp [hux, hvts]⟩

/-- A selector is a name, so the chain goes on with a dot and a token. -/
theorem select {loc : Location} {i : Ident} (hx : ExprSymbol.chain.Makes m [x]) (hi : IsName i.name) :
    ExprSymbol.chain.Makes m [.select loc x i] := by
  obtain ⟨xs, u, hu, hfx, hux⟩ := hx.single
  refine ⟨_, _, .select hu (token_mark _) (token_lexeme _ i.name), ?_, ?_⟩
  · exact List.forall_mem_append.2 ⟨hfx, by simp +decide [Token.faithful_mark, hi.faithful]⟩
  · simp [hux, Lexeme.ident, Ident.unlocated]

/-- A literal that the scanner could have given is a token. -/
theorem literal {l : Literal} (hl : l.IsScanned) (hkind : l.kind.isLiteral = true) :
    ExprSymbol.operand.Makes m [.literal l] := by
  refine ⟨_, _, .literal (x := l.kind.lexeme l.text) hkind, List.forall_mem_singleton.2 (hl.faithful hkind), ?_⟩
  simp [Lexeme.literal, Literal.unlocated]

theorem ident {i : Ident} (hi : IsName i.name) : ExprSymbol.operand.Makes m [.ident i] := by
  refine ⟨_, _, .ident (token_lexeme _ i.name), List.forall_mem_singleton.2 hi.faithful, ?_⟩
  simp [Lexeme.ident, Ident.unlocated]

theorem paren {loc : Location} (hx : ExprSymbol.expr.Makes m [x]) : ExprSymbol.operand.Makes m [.paren loc x] := by
  obtain ⟨xs, u, hu, hfx, hux⟩ := hx.single
  refine ⟨_, _, .paren (token_mark _) hu (token_mark _), ?_, by simp [hux]⟩
  simpa +decide [or_imp, forall_and, Token.faithful_mark] using hfx

/-- Items are put together with commas. -/
theorem items (h : ∀ t ∈ ts, ExprSymbol.expr.Makes m [t]) (hne : ts ≠ []) : ExprSymbol.items.Makes m ts := by
  induction ts with
  | nil => exact absurd rfl hne
  | cons t ts ih =>
    obtain ⟨ht, hts⟩ := List.forall_mem_cons.1 h
    by_cases hlast : ts = []
    · subst hlast
      exact ht.lift fun _ _ => .one
    · obtain ⟨xs, u, hu, hfx, hut⟩ := ht.single
      obtain ⟨ys, us, hus, hfy, husts⟩ := ih hts hlast
      refine ⟨_, _, .more hu (token_mark _) hus, ?_, by simp [hut, husts]⟩
      simpa +decide [or_imp, forall_and, Token.faithful_mark] using ⟨hfx, hfy⟩

theorem arguments (h : ∀ t ∈ ts, ExprSymbol.expr.Makes m [t]) : ExprSymbol.arguments.Makes m ts := by
  by_cases hne : ts = []
  · subst hne
    refine ⟨_, _, .noArguments (token_mark _) (token_mark _), ?_, rfl⟩
    simp +decide [Token.faithful_mark]
  · obtain ⟨xs, us, hus, hf, hsame⟩ := items h hne
    refine ⟨_, _, .someArguments (token_mark _) hus (token_mark _), ?_, hsame⟩
    simpa +decide [or_imp, forall_and, Token.faithful_mark] using hf

/-- An array literal may be empty, and has no comma behind its last element. -/
theorem array {loc : Location} (h : ∀ t ∈ ts, ExprSymbol.expr.Makes m [t]) :
    ExprSymbol.array.Makes m [.array (.mk loc ts)] := by
  by_cases hne : ts = []
  · subst hne
    refine ⟨_, _, .noElements (token_mark _) (token_mark _), ?_, rfl⟩
    simp +decide [Token.faithful_mark]
  · obtain ⟨xs, us, hus, hf, hsame⟩ := items h hne
    refine ⟨_, _, .elements (token_mark _) hus (token_mark _), ?_, by simp [hsame]⟩
    simpa +decide [or_imp, forall_and, Token.faithful_mark] using hf

theorem newObject {loc : Location} {t : TypeName} (ht : t.IsSpelled) (hdims : t.dims = 0)
    (hargs : ExprSymbol.arguments.Makes m ts) : ExprSymbol.operand.Makes m [.new loc t ts none none] := by
  obtain ⟨xs, u, hu, hfx, hname⟩ := ht.qualName
  obtain ⟨ys, vs, hvs, hfy, hvts⟩ := hargs
  refine ⟨_, _, .newObject (token_mark _) hu hvs, ?_, ?_⟩
  · simpa +decide [or_imp, forall_and, Token.faithful_mark] using ⟨hfx, hfy⟩
  · simp [hvts, TypeName.unlocated, hname, hu.dims, hdims]

/-- The first dimension has the length in its brackets, and the others are empty. -/
theorem newLength {loc : Location} {t : TypeName} (ht : t.IsSpelled) (hdims : 1 ≤ t.dims)
    (hx : ExprSymbol.expr.Makes m [x]) : ExprSymbol.operand.Makes m [.new loc t [] (some x) none] := by
  obtain ⟨xs, u, hu, hfx, hname⟩ := ht.qualName
  obtain ⟨ys, v, hv, hfy, hvx⟩ := hx.single
  obtain ⟨zs, hzs, hfz⟩ := exists_brackets (t.dims.toNat - 1)
  refine ⟨_, _, .newLength (token_mark _) hu (token_mark _) hv (token_mark _) hzs, ?_, ?_⟩
  · simpa +decide [or_imp, forall_and, Token.faithful_mark] using ⟨hfx, hfy, hfz⟩
  · simp [hvx, TypeName.unlocated, hname]
    omega

theorem newElements {loc : Location} {t : TypeName} {a : ArrayLit} (ht : t.IsSpelled) (hdims : 1 ≤ t.dims)
    (ha : ExprSymbol.array.Makes m [.array a]) : ExprSymbol.operand.Makes m [.new loc t [] none (some a)] := by
  obtain ⟨xs, u, hu, hfx, hut⟩ := ht.typeRef
  obtain ⟨ys, v, hv, hfy, hva⟩ := ha.single
  obtain ⟨b, hb⟩ := hv.eq_array
  obtain rfl := (List.cons.inj hb).1
  have hpos : 0 < u.dims := by
    rw [TypeName.dims_eq hut]
    exact hdims
  refine ⟨_, _, .newElements (token_mark _) hu hpos hv, ?_, ?_⟩
  · simpa +decide [or_imp, forall_and, Token.faithful_mark] using ⟨hfx, hfy⟩
  · simpa [hut] using hva

end ExprSymbol.Makes

end Grammar

/-! ## Symbols -/

theorem Expr.precedence?_pos {x : Expr} {p : Nat} (h : x.precedence? = some p) : 1 ≤ p := by
  cases x with
  | binary => exact (Token.precedence?_bounds h).1
  | _ => cases h

/-- The symbol that binds the expression most tightly. -/
def Expr.symbol : Expr → ExprSymbol
  | .literal _ | .ident _ | .new .. | .paren .. | .bad _ => .operand
  | .array _ => .array
  | .index .. | .select .. | .call .. => .chain
  | .unary .. => .unary
  | .binary _ op _ _ => .binary (op.precedence?.getD 0)
  | .assign .. => .expr

namespace Grammar

variable {m : Mode} {x : Expr}

/-- What is neither an operation nor an assignment goes on as a chain. -/
theorem makes_chain (h : x.symbol.Makes m [x]) (hx : x.kind ∉ [.binaryExpr, .assignExpr, .unaryExpr]) :
    ExprSymbol.chain.Makes m [x] := by
  cases x with
  | binary | assign | unary => simp [Expr.kind] at hx
  | index | select | call => exact h
  | array => exact h.lift fun _ _ hu => .start (.arrayOperand hu)
  | _ => exact h.lift fun _ _ => .start

/-- What is no binary operation and no assignment is an operand of one. -/
theorem makes_unary (h : x.symbol.Makes m [x]) (hx : x.kind ∉ [.binaryExpr, .assignExpr]) :
    ExprSymbol.unary.Makes m [x] := by
  by_cases hunary : x.kind = .unaryExpr
  · cases x <;> first | exact h | cases hunary
  · exact (makes_chain h (by simp_all)).lift fun _ _ => .unsigned

/-- What binds tightly also binds less tightly. -/
theorem ExprSymbol.Makes.loosen {p q : Nat} (h : (ExprSymbol.binary q).Makes m [x]) (hpq : p ≤ q) (hq : q ≤ 7) :
    (ExprSymbol.binary p).Makes m [x] := by
  induction hpq with
  | refl => exact h
  | step _ ih => exact ih (h.lift fun _ _ => .tighter (by omega)) (by omega)

/-- Operators that bind at least as tightly as `p` make an expression of its level. -/
theorem makes_binary {p : Nat} (h : x.symbol.Makes m [x]) (hshaped : x.Shaped) (hx : x.kind ≠ .assignExpr)
    (hbinds : ∀ q ∈ x.precedence?, p ≤ q) (hp : p ≤ 7) : (ExprSymbol.binary p).Makes m [x] := by
  cases x with
  | assign => exact absurd rfl hx
  | binary loc op x y =>
    obtain ⟨-, -, q, hq, -⟩ := hshaped
    rw [Expr.symbol, hq, Option.getD_some] at h
    have hle := (Token.precedence?_bounds hq).2
    exact h.loosen (hbinds q hq) (by omega)
  | _ => exact ((makes_unary h (by simp [Expr.kind])).lift fun _ _ => .term).loosen hp (Nat.le_refl 7)

/-- **An expression with its shape is made of tokens** as any expression is. -/
theorem makes_expr (h : x.symbol.Makes m [x]) (hshaped : x.Shaped) : ExprSymbol.expr.Makes m [x] := by
  by_cases hassign : x.kind = .assignExpr
  · cases x <;> first | exact h | cases hassign
  · exact (makes_binary h hshaped hassign (fun _ => Expr.precedence?_pos) (by omega)).lift fun _ _ => .value

end Grammar

/-! ## Expressions -/

/-- The text of what starts with a brace starts with a brace. -/
theorem Grammar.DerivesExpr.text_of_brace {m : Mode} {sym : ExprSymbol} {xs : List Lexeme} {ts : List Expr}
    (h : DerivesExpr m sym xs ts) :
    ∀ y ∈ xs.head?, y.token = .lBrace → ∀ t ∈ ts.head?, ∃ r, t.text = byte '\x7b' :: r := by
  -- the head of the tokens of the first operand is the head of all tokens
  have hfirst : ∀ {xs ys : List Lexeme} {y : Lexeme}, xs ≠ [] → y ∈ (xs ++ ys).head? → y ∈ xs.head? := by
    intro xs ys y hne hy
    obtain ⟨x, xs, rfl⟩ := List.exists_cons_of_ne_nil hne
    exact hy
  induction h with
  | value _ ih | tighter _ _ ih | term _ ih | unsigned _ ih | start _ ih | arrayOperand _ ih | one _ ih => exact ih
  | assign hx _ _ _ ih | joined hx _ _ ih | stepped hx _ ih | index hx _ _ _ ih | call hx _ ih | select hx _ _ ih =>
    rintro y hy hbrace t ⟨⟩
    obtain ⟨r, hr⟩ := ih y (hfirst hx.ne_nil hy) hbrace _ rfl
    simp [Expr.text, hr]
  | more hx _ _ ih =>
    rintro y hy hbrace t ⟨⟩
    exact ih y (hfirst hx.ne_nil hy) hbrace _ rfl
  | noElements | elements | elementsComma =>
    rintro y - - t ⟨⟩
    simp only [Expr.text, ArrayLit.text, List.append_assoc]
    exact ⟨_, rfl⟩
  | _ =>
    rintro y ⟨⟩ hbrace
    simp_all [Token.isLiteral, Parser.isPrefixOperator]

/-- **An expression is made of tokens if those below it are.** -/
theorem Expr.makes_symbol {m : Mode} (hm : ¬ m.errors) {x : Expr} (hfits : (Node.expr x).Fits m) (hshaped : x.Shaped)
    (hspelled : (Node.expr x).IsSpelled) (hnames : ∀ c ∈ x.children.map (·.node), c.IsSpelled)
    (hbelow : ∀ y, Node.expr y ∈ x.children.map (·.node) → y.symbol.Makes m [y] ∧ y.Shaped) :
    x.symbol.Makes m [x] := by
  have hexpr : ∀ y, Node.expr y ∈ x.children.map (·.node) → ExprSymbol.expr.Makes m [y] :=
    fun y hy => makes_expr (hbelow y hy).1 (hbelow y hy).2
  cases x with
  | literal l => exact .literal hspelled hshaped
  | ident i => exact .ident hspelled
  | array a =>
    obtain ⟨loc, elems⟩ := a
    exact .array fun t ht => hexpr t (by simpa [children] using ht)
  | index loc x i =>
    have hx := makes_chain (hbelow x (by simp [children])).1 hshaped
    exact .index hx (hexpr i (by simp [children]))
  | select loc x sel =>
    have hx := makes_chain (hbelow x (by simp [children])).1 hshaped
    exact .select hx (hnames sel.node (by simp [children]))
  | call loc fn args =>
    have hfn := makes_chain (hbelow fn (by simp [children])).1 hshaped
    exact .call hfn (.arguments fun t ht => hexpr t (by simp [children, ht]))
  | new loc type args len elems =>
    have htype : type.IsSpelled := hnames (.typeName type) (by simp [children])
    rcases hshaped with ⟨rfl, rfl, hdims⟩ | ⟨hlen, rfl, rfl, hdims⟩ | ⟨rfl, helems, rfl, hdims⟩
    · exact .newObject htype hdims (.arguments fun t ht => hexpr t (by simp [children, ht]))
    · obtain ⟨x, rfl⟩ := Option.ne_none_iff_exists'.1 hlen
      exact .newLength htype hdims (hexpr x (by simp [children]))
    · obtain ⟨a, rfl⟩ := Option.ne_none_iff_exists'.1 helems
      exact .newElements htype hdims (hbelow (.array a) (by simp [children, ArrayLit.node])).1
  | paren loc x => exact .paren (hexpr x (by simp [children]))
  | unary loc op x fixity =>
    obtain ⟨hx, -⟩ := hbelow x (by simp [children])
    cases fixity with
    | before => exact .signed hshaped.1 (makes_unary hx hshaped.2)
    | after => exact .stepped (makes_chain hx hshaped.2) hshaped.1
  | binary loc op x y =>
    -- operators of the same level associate to the left, so the right operand binds tighter
    obtain ⟨hx, hxshaped⟩ := hbelow x (by simp [children])
    obtain ⟨hy, hyshaped⟩ := hbelow y (by simp [children])
    obtain ⟨hxkind, hykind, p, hp, hleft, hright⟩ := hshaped
    have hle := (Token.precedence?_bounds hp).2
    rw [symbol, hp, Option.getD_some]
    exact .joined (makes_binary hx hxshaped hxkind hleft (by omega)) hp
      (makes_binary hy hyshaped hykind hright (by omega))
  | assign loc op target value =>
    obtain ⟨ht, htshaped⟩ := hbelow target (by simp [children])
    have htarget := makes_binary ht htshaped hshaped.2 (fun _ => precedence?_pos) (by omega)
    exact .assign htarget hshaped.1 hfits (hexpr value (by simp [children]))
  | bad loc => exact absurd hfits hm

end SmallJava
