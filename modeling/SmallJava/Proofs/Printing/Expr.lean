import SmallJava.Proofs.Grammar.Extent
import SmallJava.Proofs.Printing.Name

/-!
# Printing expressions

The printed text of a derived expression is made of tokens that are derived to the same structure again. They are
the tokens that the expression was derived from, except that the comma behind the last element of an array literal
is not printed.

* `DerivesExpr.unhindered` — nothing stands in the way of printing;
* `ExprSymbol.Reprints` — what is printed, and what it is derived to;
* `DerivesExpr.reprints` — derived expressions are reprinted.
-/

namespace SmallJava

open Grammar

/-- What is printed of an operator is how it is spelled. -/
theorem Token.operatorText_eq {t : Token} (ht : t.isOperator = true) : t.operatorText = t.spelling := if_pos ht

theorem Token.isOperator_of_isAssign {t : Token} (ht : t.isAssign = true) : t.isOperator = true := by
  cases t <;> first | rfl | cases ht

theorem Token.isOperator_of_precedence? {t : Token} {p : Nat} (ht : t.precedence? = some p) :
    t.isOperator = true := by
  cases t <;> first | rfl | cases ht

theorem Token.isOperator_of_isPrefixOperator {t : Token} (ht : Parser.isPrefixOperator t = true) :
    t.isOperator = true := by
  cases t <;> first | rfl | cases ht

/-- Something is printed of each prefix operator. -/
theorem Token.operatorText_ne_of_isPrefixOperator {t : Token} (ht : Parser.isPrefixOperator t = true) :
    t.operatorText ≠ "" := by
  cases t <;> first | decide | cases ht

theorem Token.isAtom_of_isLiteral {t : Token} (ht : t.isLiteral = true) : t.isAtom = true := by
  simp [Token.isAtom, ht]

/-! ## What printing needs -/

/-- Nothing stands in the way of printing the expressions. -/
def Expr.Unhindered (ts : List Expr) : Prop := Expr.firstObstacle? ts = none ∧ Expr.firstBreakdown? ts = none

@[simp] theorem Expr.unhindered_nil : Expr.Unhindered [] := ⟨rfl, rfl⟩

@[simp] theorem Expr.unhindered_cons {x : Expr} {ts : List Expr} :
    Expr.Unhindered (x :: ts) ↔ (x.obstacle? = none ∧ x.breakdown? = none) ∧ Expr.Unhindered ts := by
  simp only [Expr.Unhindered, Expr.firstObstacle?, Expr.firstBreakdown?, Option.or_eq_none_iff]
  exact and_and_and_comm

namespace Grammar

variable {m : Mode} {sym : ExprSymbol} {xs : List Lexeme} {ts : List Expr}

/-- A derivation without bad nodes gives expressions that can be printed. -/
theorem DerivesExpr.unhindered (hm : ¬ m.errors) (h : DerivesExpr m sym xs ts) : Expr.Unhindered ts := by
  induction h with
  | value _ ih | tighter _ _ ih | term _ ih | unsigned _ ih | start _ ih | arrayOperand _ ih | one _ ih
    | someArguments _ _ _ ih => exact ih
  | malformed he => exact absurd he hm
  | @signed op _ _ hop _ ih =>
    have hspelling : op.token.operatorText ≠ "" := Token.operatorText_ne_of_isPrefixOperator hop
    simp_all [Expr.obstacle?, Expr.breakdown?]
  | newElements _ _ hpos _ ih =>
    have hdims := Int.not_lt.2 (Int.le_of_lt hpos)
    simp_all [Expr.obstacle?, Expr.breakdown?]
  | more _ _ _ ih ihs => simp_all
  | noArguments => simp
  | noElements =>
    simp [Expr.obstacle?, Expr.breakdown?, ArrayLit.obstacle?, ArrayLit.breakdown?, Expr.firstObstacle?,
      Expr.firstBreakdown?]
  | elements _ _ _ ih | elementsComma _ _ _ _ ih =>
    simp [Expr.obstacle?, Expr.breakdown?, ArrayLit.obstacle?, ArrayLit.breakdown?, ih.1, ih.2]
  | newObject _ _ _ ih => simp [Expr.obstacle?, Expr.breakdown?, ih.1, ih.2]
  | call _ _ ihx ih =>
    obtain ⟨⟨ho, hb⟩, -⟩ := Expr.unhindered_cons.1 ihx
    simp [Expr.obstacle?, Expr.breakdown?, ho, hb, ih.1, ih.2]
  | _ => simp_all [Expr.obstacle?, Expr.breakdown?]

end Grammar

/-- The text starts with a byte that makes no operator with a sign before it, unless it is the same sign. -/
def StartsApart (text : Bytes) : Prop := ∃ b r, text = b :: r ∧ b ≠ byte '='

/-- It is the first byte that keeps a text apart. -/
theorem StartsApart.append {a : Bytes} (h : StartsApart a) (b : Bytes) : StartsApart (a ++ b) := by
  obtain ⟨c, r, rfl, hc⟩ := h
  exact ⟨c, r ++ b, rfl, hc⟩

theorem ne_equals_of_isWordByte {b : UInt8} (h : isWordByte b = true) : b ≠ byte '=' := by
  rintro rfl
  exact absurd h (by decide)

/-- A token that is no operator does not go on with an operator before it. -/
theorem IsToken.startsApart {t : Token} {w : Bytes} (h : IsToken t w) (ht : t.isOperator = false) :
    StartsApart w := by
  cases h with
  | word hb _ => exact ⟨_, _, rfl, ne_equals_of_isWordByte (isWordByte_iff.2 (.inl hb))⟩
  | integer hne hw =>
    obtain ⟨b, r, rfl⟩ := List.exists_cons_of_ne_nil hne
    exact ⟨b, r, rfl, ne_equals_of_isWordByte (isWordByte_iff.2 (.inr (hw b (by simp))))⟩
  | float hne hv _ _ =>
    obtain ⟨b, r, rfl⟩ := List.exists_cons_of_ne_nil hne
    exact ⟨b, _, rfl, ne_equals_of_isWordByte (isWordByte_iff.2 (.inr (hv b (by simp))))⟩
  | string _ => exact ⟨_, _, rfl, by decide⟩
  | operator hop => simp [ht] at hop

theorem Lexeme.Faithful.startsApart {x : Lexeme} (hx : x.Faithful) (ht : x.token.isAtom = true) :
    StartsApart x.text :=
  (hx.isToken (Token.ne_invalid_of_isAtom ht)).startsApart (Token.isOperator_of_isAtom ht)

/-- A prefix operator has a blank behind it where it would run into what follows, and only there. -/
theorem joinPrefix_cases (op arg : Bytes) :
    joinPrefix op arg = op ++ utf8 " " ++ arg ∨
      joinPrefix op arg = op ++ arg ∧
        ∀ a ∈ op.getLast?, ∀ b ∈ arg.head?, a = b → b ≠ byte '-' ∧ b ≠ byte '+' := by
  unfold joinPrefix
  split
  · next a b ha hb =>
    split
    · exact .inl rfl
    · next hne =>
      refine .inr ⟨rfl, fun a' ha' b' hb' hab => ?_⟩
      simp_all
  · next hno =>
    refine .inr ⟨rfl, fun a ha b hb => ?_⟩
    exact absurd hb (hno a b ha)

namespace Grammar

variable {m : Mode} {sym : ExprSymbol} {xs : List Lexeme} {ts : List Expr}

/-- An operator before an operand does not go on with another one before it. -/
theorem startsApart_joinPrefix {op : Token} (hop : Parser.isPrefixOperator op = true) (arg : Bytes) :
    StartsApart (joinPrefix (utf8 op.operatorText) arg) := by
  have hsign : StartsApart (utf8 op.operatorText) := by
    cases op <;> first | cases hop; done | exact ⟨_, _, rfl, by decide⟩
  rcases joinPrefix_cases (utf8 op.operatorText) arg with h | ⟨h, -⟩
  · rw [h, List.append_assoc]
    exact hsign.append _
  · rw [h]
    exact hsign.append _

/-- **No printed expression goes on with an operator** that stands right before it. -/
theorem DerivesExpr.startsApart (hm : ¬ m.errors) (h : DerivesExpr m sym xs ts) (hf : ∀ x ∈ xs, x.Faithful) :
    ∀ t ∈ ts, StartsApart t.text := by
  induction h with
  | value _ ih | tighter _ _ ih | term _ ih | unsigned _ ih | start _ ih | arrayOperand _ ih | one _ ih => exact ih hf
  | malformed he => exact absurd he hm
  | noArguments => simp
  | someArguments _ _ _ ih => exact ih fun x hx => hf x (by simp [hx])
  | more _ _ _ ih ihs =>
    have hx := ih fun x hx => hf x (by simp [hx])
    have hts := ihs fun x hx => hf x (by simp [hx])
    exact List.forall_mem_cons.2 ⟨hx _ (List.mem_singleton.2 rfl), hts⟩
  | literal hx =>
    refine List.forall_mem_singleton.2 ?_
    exact (hf _ (by simp)).startsApart (Token.isAtom_of_isLiteral hx)
  | @ident x hx =>
    refine List.forall_mem_singleton.2 ?_
    exact (hf _ (by simp)).startsApart (by rw [hx]; rfl)
  | signed hop _ _ =>
    refine List.forall_mem_singleton.2 ?_
    rw [Expr.text]
    exact startsApart_joinPrefix hop _
  | paren | newObject | newLength | newElements | noElements | elements | elementsComma =>
    refine List.forall_mem_singleton.2 ?_
    simp only [Expr.text, ArrayLit.text, List.append_assoc]
    exact ⟨_, _, rfl, by decide⟩
  | assign _ _ _ _ ih | joined _ _ _ ih | stepped _ _ ih | index _ _ _ _ ih | call _ _ ih | select _ _ _ ih =>
    have hx := List.forall_mem_singleton.1 (ih fun x hx => hf x (by simp [hx]))
    refine List.forall_mem_singleton.2 ?_
    simp only [Expr.text, List.append_assoc]
    exact hx.append _

/-! ## Reprinting -/

/-- The mode without its error productions. -/
def Mode.exact (m : Mode) : Mode := { errors := False, opens := False, halts := False, lax := m.lax }

/-- The printed text of what is derived from a symbol. -/
def ExprSymbol.text : ExprSymbol → List Expr → Bytes
  | .arguments, ts => utf8 "(" ++ Bytes.join (utf8 ", ") (Expr.texts ts) ++ utf8 ")"
  | _, ts => Bytes.join (utf8 ", ") (Expr.texts ts)

@[simp] theorem ExprSymbol.text_singleton {sym : ExprSymbol} {x : Expr} (h : sym ≠ .arguments) :
    sym.text [x] = x.text := by
  cases sym <;> first | rfl | exact absurd rfl h

theorem ExprSymbol.text_arguments (ts : List Expr) :
    ExprSymbol.arguments.text ts = utf8 "(" ++ ExprSymbol.items.text ts ++ utf8 ")" := rfl

/-- Arguments start with a parenthesis, which is no part of a name or a number. -/
theorem clear_arguments (args : List Expr) (k : Bytes) : Clear (ExprSymbol.arguments.text args ++ k) := by
  rw [ExprSymbol.text_arguments, List.append_assoc, List.append_assoc]
  exact clear_mark (t := .lParen) rfl _

/-- An array literal starts with a brace, which is no part of a name or a number. -/
theorem clear_array (a : ArrayLit) (k : Bytes) : Clear (a.text ++ k) := by
  cases a
  rw [ArrayLit.text, List.append_assoc, List.append_assoc]
  exact clear_mark (t := .lBrace) rfl _

/-- **Reprinting.** The text of the expressions `ts`, derived from `xs`, is made of the tokens `L`, and tokens spelled
like `L` are derived to the same structure. -/
structure ExprSymbol.Reprints (m : Mode) (sym : ExprSymbol) (xs : List Lexeme) (ts : List Expr) (L : List Spelled) :
    Prop where
  prints : Prints Clear (sym.text ts) L
  head : L.head? = xs.head?.map Lexeme.spelled
  derives : ∀ ys : List Lexeme, ys.map Lexeme.spelled = L →
    ∃ us, DerivesExpr m.exact sym ys us ∧ Expr.unlocatedAll us = Expr.unlocatedAll ts

/-- What has the structure of a single expression is a single expression. -/
theorem unlocatedAll_eq_singleton {us : List Expr} {x : Expr} (h : Expr.unlocatedAll us = Expr.unlocatedAll [x]) :
    ∃ u, us = [u] ∧ u.unlocated = x.unlocated := by
  cases us with
  | nil => simp at h
  | cons u us =>
    cases us with
    | nil => exact ⟨u, rfl, by simpa using h⟩
    | cons v vs => simp at h

/-- A text that starts with the token that it was derived from does so whatever follows. -/
theorem head?_append_spelled {L M : List Spelled} {xs ys : List Lexeme} (h : L.head? = xs.head?.map Lexeme.spelled)
    (hne : xs ≠ []) : (L ++ M).head? = (xs ++ ys).head?.map Lexeme.spelled := by
  obtain ⟨x, xs, rfl⟩ := List.exists_cons_of_ne_nil hne
  simp [List.head?_append, h]

/-- Tokens spelled in parts. -/
theorem split_spelled {ys : List Lexeme} {L M : List Spelled} {s : Spelled}
    (h : ys.map Lexeme.spelled = L ++ s :: M) :
    ∃ xs y zs, ys = xs ++ y :: zs ∧ xs.map Lexeme.spelled = L ∧ y.spelled = s ∧ zs.map Lexeme.spelled = M := by
  obtain ⟨xs, rest, rfl, hxs, hrest⟩ := List.map_eq_append_iff.1 h
  obtain ⟨y, zs, rfl, hy, hzs⟩ := List.map_eq_cons_iff.1 hrest
  exact ⟨xs, y, zs, rfl, hxs, hy, hzs⟩

/-- An operator has blanks on both sides, so it runs into nothing. -/
theorem prints_between {op : Lexeme} {a b : Bytes} {L M : List Spelled} (ha : Prints Clear a L) (hf : op.Faithful)
    (hop : op.token.isOperator = true) (hb : Prints Clear b M) :
    Prints Clear (a ++ utf8 " " ++ utf8 op.token.operatorText ++ utf8 " " ++ b) (L ++ op.spelled :: M) := by
  rw [Token.operatorText_eq hop, hf.spelled_eq rfl (.inr hop)]
  simpa using hb.before (ha.blank.operator hop)

/-- A sign and its operand, with a space between them if they would go together. -/
theorem prints_joinPrefix {op : Token} {arg : Bytes} {L : List Spelled} (hop : Parser.isPrefixOperator op = true)
    (harg : Prints Clear arg L) (hs : StartsApart arg) :
    Prints Clear (joinPrefix (utf8 op.operatorText) arg) (op.spelled :: L) := by
  have hoperator := Token.isOperator_of_isPrefixOperator hop
  rw [Token.operatorText_eq hoperator]
  rcases joinPrefix_cases (utf8 op.spelling) arg with h | ⟨h, hsame⟩
  · rw [h]
    exact harg.before (Prints.nil.operator hoperator)
  rw [h]
  by_cases hmark : op.isMark = true
  · exact harg.before (Prints.nil.mark hmark)
  -- a single sign, in front of something that it does not go with
  obtain ⟨b, r, rfl, hb⟩ := hs
  have hsign : op ∈ [Token.plus, .minus, .not] := by
    cases op <;> first | cases hop; done | simp_all [Token.isMark]
  have hne : op = .not ∨ utf8 op.spelling ≠ [b] := by
    refine or_iff_not_imp_left.2 fun hnot hsame' => ?_
    obtain ⟨hminus, hplus⟩ := hsame b (by rw [hsame']; rfl) b rfl rfl
    simp only [List.mem_cons, List.not_mem_nil, or_false] at hsign
    rcases hsign with rfl | rfl | rfl
    · exact hplus (List.cons.inj hsame').1.symm
    · exact hminus (List.cons.inj hsame').1.symm
    · exact hnot rfl
  have htoken : Prints (fun k => ∃ k', k = b :: k') (utf8 op.spelling) [op.spelled] := by
    refine .token ?_ (Token.isComment_of_isOperator hoperator) (Utf8.isEncoding_utf8 _)
    rintro _ ⟨k, rfl⟩
    exact cutsOff_sign hsign hb hne k
  exact htoken.append harg fun k _ => ⟨r ++ k, rfl⟩

namespace ExprSymbol.Reprints

variable {ys : List Lexeme} {x y : Expr} {L M : List Spelled}

/-- Tokens that are spelled so are derived to an expression of the same structure. -/
theorem single (h : Reprints m sym xs [x] L) (hy : ys.map Lexeme.spelled = L) :
    ∃ u, DerivesExpr m.exact sym ys [u] ∧ u.unlocated = x.unlocated := by
  obtain ⟨us, hus, heq⟩ := h.derives ys hy
  obtain ⟨u, rfl, hu⟩ := unlocatedAll_eq_singleton heq
  exact ⟨u, hus, hu⟩

/-- One symbol stands for another. -/
theorem lift {sym' : ExprSymbol} (h : Reprints m sym xs [x] L) (htext : sym'.text [x] = sym.text [x])
    (hd : ∀ ys u, DerivesExpr m.exact sym ys [u] → DerivesExpr m.exact sym' ys [u]) : Reprints m sym' xs [x] L where
  prints := htext ▸ h.prints
  head := h.head
  derives ys hy := by
    obtain ⟨u, hu, heq⟩ := h.single hy
    exact ⟨[u], hd ys u hu, by simp [heq]⟩

/-- An assignment is derived again, with the operator between its two sides. -/
theorem assign {loc : Location} {op : Lexeme} (hx : Reprints m (.binary 1) xs [x] L) (hne : xs ≠ [])
    (hf : op.Faithful) (hop : op.token.isAssign = true) (ht : m.lax ∨ x.isAssignable = true)
    (hv : Reprints m .expr ys [y] M) :
    Reprints m .expr (xs ++ op :: ys) [.assign loc op.token x y] (L ++ op.spelled :: M) where
  prints := by
    simpa [Expr.text] using prints_between hx.prints hf (Token.isOperator_of_isAssign hop) hv.prints
  head := head?_append_spelled hx.head hne
  derives zs hz := by
    obtain ⟨xs', o, ys', rfl, hxs, ho, hys⟩ := split_spelled hz
    obtain ⟨u, hu, hux⟩ := hx.single hxs
    obtain ⟨v, hv, hvy⟩ := hv.single hys
    have htoken := Lexeme.token_eq ho
    have htarget : m.exact.lax ∨ u.isAssignable = true := by
      rwa [← Expr.isAssignable_unlocated, hux, Expr.isAssignable_unlocated]
    refine ⟨_, .assign hu (by rw [htoken]; exact hop) htarget hv, ?_⟩
    simp [hux, hvy, htoken]

theorem joined {loc : Location} {p : Nat} {op : Lexeme} (hx : Reprints m (.binary p) xs [x] L) (hne : xs ≠ [])
    (hf : op.Faithful) (hop : op.token.precedence? = some p) (hv : Reprints m (.binary (p + 1)) ys [y] M) :
    Reprints m (.binary p) (xs ++ op :: ys) [.binary loc op.token x y] (L ++ op.spelled :: M) where
  prints := by
    simpa [Expr.text] using prints_between hx.prints hf (Token.isOperator_of_precedence? hop) hv.prints
  head := head?_append_spelled hx.head hne
  derives zs hz := by
    obtain ⟨xs', o, ys', rfl, hxs, ho, hys⟩ := split_spelled hz
    obtain ⟨u, hu, hux⟩ := hx.single hxs
    obtain ⟨v, hv, hvy⟩ := hv.single hys
    have htoken := Lexeme.token_eq ho
    refine ⟨_, .joined hu (by rw [htoken]; exact hop) hv, ?_⟩
    simp [hux, hvy, htoken]

/-- A prefix operator is kept apart from what follows. -/
theorem signed {loc : Location} {op : Lexeme} (hf : op.Faithful) (hop : Parser.isPrefixOperator op.token = true)
    (hx : Reprints m .unary xs [x] L) (hs : StartsApart x.text) :
    Reprints m .unary (op :: xs) [.unary loc op.token x .before] (op.spelled :: L) where
  prints := by
    rw [hf.spelled_eq rfl (.inr (Token.isOperator_of_isPrefixOperator hop))]
    simpa [Expr.text] using prints_joinPrefix hop hx.prints hs
  head := rfl
  derives zs hz := by
    obtain ⟨o, ys, rfl, ho, hys⟩ := List.map_eq_cons_iff.1 hz
    obtain ⟨u, hu, hux⟩ := hx.single hys
    have htoken := Lexeme.token_eq ho
    refine ⟨_, .signed (by rw [htoken]; exact hop) hu, ?_⟩
    simp [hux, htoken]

/-- An operator behind its operand is a mark, and needs no blank. -/
theorem stepped {loc : Location} {op : Lexeme} (hx : Reprints m .chain xs [x] L) (hne : xs ≠ [])
    (hf : op.Faithful) (hop : op.token = .inc ∨ op.token = .dec) :
    Reprints m .unary (xs ++ [op]) [.unary loc op.token x .after] (L ++ [op.spelled]) where
  prints := by
    have hmark : op.token.isMark = true := by rcases hop with h | h <;> rw [h] <;> rfl
    have hoperator : op.token.isOperator = true := by rcases hop with h | h <;> rw [h] <;> rfl
    rw [hf.spelled_eq rfl (.inr hoperator)]
    simpa [Expr.text, Token.operatorText_eq hoperator] using (hx.prints.mark hmark).clear
  head := head?_append_spelled hx.head hne
  derives zs hz := by
    obtain ⟨xs', o, ys', rfl, hxs, ho, hys⟩ := split_spelled hz
    obtain rfl := List.map_eq_nil_iff.1 hys
    obtain ⟨u, hu, hux⟩ := hx.single hxs
    have htoken := Lexeme.token_eq ho
    refine ⟨_, .stepped hu (by rw [htoken]; exact hop), ?_⟩
    simp [hux, htoken]

/-- The brackets around an index are marks of their own. -/
theorem index {loc : Location} (hx : Reprints m .chain xs [x] L) (hne : xs ≠ []) {l r : Lexeme}
    (hi : Reprints m .expr ys [y] M) :
    Reprints m .chain (xs ++ l :: (ys ++ [r])) [.index loc x y]
      (L ++ Token.lSquare.spelled :: (M ++ [Token.rSquare.spelled])) where
  prints := by
    have hopen := hi.prints.before (hx.prints.mark (t := .lSquare) rfl)
    simpa [Expr.text, Token.spelling] using (hopen.mark (t := .rSquare) rfl).clear
  head := head?_append_spelled hx.head hne
  derives zs hz := by
    obtain ⟨xs', l, rest, rfl, hxs, hl, hrest⟩ := split_spelled hz
    obtain ⟨ys', r, ws, rfl, hys, hr, hws⟩ := split_spelled hrest
    obtain rfl := List.map_eq_nil_iff.1 hws
    obtain ⟨u, hu, hux⟩ := hx.single hxs
    obtain ⟨v, hv, hvy⟩ := hi.single hys
    refine ⟨_, .index hu (Lexeme.token_of_spelled hl) hv (Lexeme.token_of_spelled hr), ?_⟩
    simp [hux, hvy]

/-- Arguments follow their function without a blank. -/
theorem call {loc : Location} {args : List Expr} (hx : Reprints m .chain xs [x] L) (hne : xs ≠ [])
    (ha : Reprints m .arguments ys args M) :
    Reprints m .chain (xs ++ ys) [.call loc x args] (L ++ M) where
  prints := by
    have hcall : (Expr.call loc x args).text = x.text ++ ExprSymbol.arguments.text args := by
      simp [Expr.text, ExprSymbol.text]
    simpa [hcall] using hx.prints.append ha.prints fun k _ => clear_arguments args k
  head := head?_append_spelled hx.head hne
  derives zs hz := by
    obtain ⟨xs', ys', rfl, hxs, hys⟩ := List.map_eq_append_iff.1 hz
    obtain ⟨u, hu, hux⟩ := hx.single hxs
    obtain ⟨vs, hvs, hargs⟩ := ha.derives ys' hys
    exact ⟨_, .call hu hvs, by simp [hux, hargs]⟩

/-- A dot follows a word or a closing mark, and a letter follows the dot, so neither is part of a number. -/
theorem select {loc : Location} {d i : Lexeme} (hx : Reprints m .chain xs [x] L) (hne : xs ≠ [])
    (hf : i.Faithful) (hi : i.token = .ident) :
    Reprints m .chain (xs ++ [d, i]) [.select loc x i.ident] (L ++ [Token.dot.spelled, i.spelled]) where
  prints := by
    simpa [Expr.text, Lexeme.ident] using hx.prints.dotted hf hi
  head := head?_append_spelled hx.head hne
  derives zs hz := by
    obtain ⟨xs', d, rest, rfl, hxs, hd, hrest⟩ := split_spelled hz
    obtain ⟨i', rfl, hi'⟩ := List.map_eq_singleton_iff.1 hrest
    obtain ⟨u, hu, hux⟩ := hx.single hxs
    refine ⟨_, .select hu (Lexeme.token_of_spelled hd) ((Lexeme.token_eq hi').trans hi), ?_⟩
    simp [hux, Lexeme.ident_unlocated hi']

theorem literal {x : Lexeme} (hf : x.Faithful) (hx : x.token.isLiteral = true) :
    Reprints m .operand [x] [.literal x.literal] [x.spelled] where
  prints := by
    simpa [Expr.text, Lexeme.literal] using hf.prints (Token.isAtom_of_isLiteral hx)
  head := rfl
  derives zs hz := by
    obtain ⟨y, rfl, hy⟩ := List.map_eq_singleton_iff.1 hz
    refine ⟨_, .literal (by rw [Lexeme.token_eq hy]; exact hx), ?_⟩
    simp [Lexeme.literal_unlocated hy]

theorem ident {x : Lexeme} (hf : x.Faithful) (hx : x.token = .ident) :
    Reprints m .operand [x] [.ident x.ident] [x.spelled] where
  prints := by
    have hname : Prints Clear x.text [x.spelled] := hf.prints (by rw [hx]; rfl)
    simpa [Expr.text, Lexeme.ident] using hname
  head := rfl
  derives zs hz := by
    obtain ⟨y, rfl, hy⟩ := List.map_eq_singleton_iff.1 hz
    refine ⟨_, .ident ((Lexeme.token_eq hy).trans hx), ?_⟩
    simp [Lexeme.ident_unlocated hy]

theorem paren {loc : Location} {l r : Lexeme} (hf : l.Faithful) (hl : l.token = .lParen)
    (hx : Reprints m .expr xs [x] L) :
    Reprints m .operand (l :: (xs ++ [r])) [.paren loc x]
      (Token.lParen.spelled :: (L ++ [Token.rParen.spelled])) where
  prints := by
    have hopen := hx.prints.before (Prints.nil.mark (t := .lParen) rfl)
    simpa [Expr.text, Token.spelling] using (hopen.mark (t := .rParen) rfl).clear
  head := by simp [hf.spelled_eq hl (.inr rfl)]
  derives zs hz := by
    obtain ⟨l, rest, rfl, hl, hrest⟩ := List.map_eq_cons_iff.1 hz
    obtain ⟨xs', r, ws, rfl, hxs, hr, hws⟩ := split_spelled hrest
    obtain rfl := List.map_eq_nil_iff.1 hws
    obtain ⟨u, hu, hux⟩ := hx.single hxs
    exact ⟨_, .paren (Lexeme.token_of_spelled hl) hu (Lexeme.token_of_spelled hr), by simp [hux]⟩

/-- An object: the name of its class, and arguments. -/
theorem newObject {loc : Location} {kw : Lexeme} {t : TypeName} {args : List Expr} (hf : kw.Faithful)
    (hk : kw.token = .kwNew) (hq : QualName xs t) (hfs : ∀ x ∈ xs, x.Faithful)
    (ha : Reprints m .arguments ys args M) :
    Reprints m .operand (kw :: (xs ++ ys)) [.new loc t args none none]
      (Token.kwNew.spelled :: (xs.map Lexeme.spelled ++ M)) where
  prints := by
    have hnew : (Expr.new loc t args none none).text
        = utf8 "new" ++ utf8 " " ++ t.name ++ ExprSymbol.arguments.text args := by
      simp [Expr.text, ExprSymbol.text, ← utf8_append]
    have hname := (hq.prints hfs).before (Prints.nil.keyword (t := .kwNew) rfl).blank
    simpa [hnew, Token.spelling] using hname.append ha.prints fun k _ => clear_arguments args k
  head := by simp [hf.spelled_eq hk (.inl rfl)]
  derives zs hz := by
    obtain ⟨kw, rest, rfl, hk, hrest⟩ := List.map_eq_cons_iff.1 hz
    obtain ⟨xs', ys', rfl, hxs, hys⟩ := List.map_eq_append_iff.1 hrest
    obtain ⟨u, hu, hut⟩ := hq.respell hxs
    obtain ⟨vs, hvs, hargs⟩ := ha.derives ys' hys
    exact ⟨_, .newObject (Lexeme.token_of_spelled hk) hu hvs, by simp [hut, hargs]⟩

/-- An array with a length: the first pair of brackets is around it. -/
theorem newLength {loc : Location} {kw l r : Lexeme} {zs : List Lexeme} {t : TypeName} {n : Nat} (hf : kw.Faithful)
    (hk : kw.token = .kwNew) (hq : QualName xs t) (hfs : ∀ x ∈ xs, x.Faithful) (hx : Reprints m .expr ys [x] M)
    (hb : Brackets zs n) (hfz : ∀ z ∈ zs, z.Faithful) :
    Reprints m .operand (kw :: (xs ++ l :: (ys ++ r :: zs))) [.new loc { t with dims := n + 1 } [] (some x) none]
      (Token.kwNew.spelled :: (xs.map Lexeme.spelled ++
        Token.lSquare.spelled :: (M ++ Token.rSquare.spelled :: zs.map Lexeme.spelled))) where
  prints := by
    have hnew : (Expr.new loc { t with dims := n + 1 } [] (some x) none).text
        = utf8 "new" ++ utf8 " " ++ t.name ++ utf8 "[" ++ x.text ++ utf8 "]" ++ Bytes.copies n (utf8 "[]") := by
      simp [Expr.text, ← utf8_append]
    have hname := (hq.prints hfs).before (Prints.nil.keyword (t := .kwNew) rfl).blank
    have hlength := hx.prints.before (hname.mark (t := .lSquare) rfl)
    simpa [hnew, Token.spelling] using (hlength.mark (t := .rSquare) rfl).clear.brackets hb hfz
  head := by simp [hf.spelled_eq hk (.inl rfl)]
  derives ws hw := by
    obtain ⟨kw, rest, rfl, hk, hrest⟩ := List.map_eq_cons_iff.1 hw
    obtain ⟨xs', l, rest, rfl, hxs, hl, hrest⟩ := split_spelled hrest
    obtain ⟨ys', r, zs', rfl, hys, hr, hzs⟩ := split_spelled hrest
    obtain ⟨u, hu, hut⟩ := hq.respell hxs
    obtain ⟨v, hv, hvx⟩ := hx.single hys
    refine ⟨_, .newLength (Lexeme.token_of_spelled hk) hu (Lexeme.token_of_spelled hl) hv
      (Lexeme.token_of_spelled hr) (hb.respell hzs), ?_⟩
    simp [hvx, TypeName.unlocated, TypeName.name_eq hut]

/-- An array with its elements: all brackets are empty. -/
theorem newElements {loc : Location} {kw : Lexeme} {t : TypeName} {a : ArrayLit} (hf : kw.Faithful)
    (hk : kw.token = .kwNew) (ht : TypeRef xs t) (hfs : ∀ x ∈ xs, x.Faithful) (hpos : 0 < t.dims)
    (ha : Reprints m .array ys [.array a] M) :
    Reprints m .operand (kw :: (xs ++ ys)) [.new loc t [] none (some a)]
      (Token.kwNew.spelled :: (xs.map Lexeme.spelled ++ M)) where
  prints := by
    have hnew : (Expr.new loc t [] none (some a)).text = utf8 "new" ++ utf8 " " ++ t.text ++ (Expr.array a).text := by
      simp [Expr.text, TypeName.text, ← utf8_append]
    have htype := (ht.prints hfs).before (Prints.nil.keyword (t := .kwNew) rfl).blank
    have hall := htype.append ha.prints fun k _ => by simpa [Expr.text] using clear_array a k
    simpa [hnew, Token.spelling] using hall
  head := by simp [hf.spelled_eq hk (.inl rfl)]
  derives zs hz := by
    obtain ⟨kw, rest, rfl, hk, hrest⟩ := List.map_eq_cons_iff.1 hz
    obtain ⟨xs', ys', rfl, hxs, hys⟩ := List.map_eq_append_iff.1 hrest
    obtain ⟨u, hu, hut⟩ := ht.respell hxs
    obtain ⟨v, hv, hva⟩ := ha.single hys
    obtain ⟨b, hb⟩ := hv.eq_array
    cases hb
    have hb : b.unlocated = a.unlocated := by simpa using hva
    refine ⟨_, .newElements (Lexeme.token_of_spelled hk) hu (by rwa [TypeName.dims_eq hut]) hv, ?_⟩
    simp [hut, hb]

/-- Items have a comma and a blank between them. -/
theorem more {c : Lexeme} {ts : List Expr} (hx : Reprints m .expr xs [x] L) (hne : xs ≠ [])
    (hts : Reprints m .items ys ts M) (hnil : ts ≠ []) :
    Reprints m .items (xs ++ c :: ys) (x :: ts) (L ++ Token.comma.spelled :: M) where
  prints := by
    obtain ⟨t, ts, rfl⟩ := List.exists_cons_of_ne_nil hnil
    have hjoin : ExprSymbol.items.text (x :: t :: ts)
        = x.text ++ utf8 "," ++ utf8 " " ++ ExprSymbol.items.text (t :: ts) := by
      simp [ExprSymbol.text, Expr.texts, Bytes.join, ← utf8_append]
    rw [hjoin]
    simpa [Token.spelling] using hts.prints.before (hx.prints.mark (t := .comma) rfl).clear.blank
  head := head?_append_spelled hx.head hne
  derives zs hz := by
    obtain ⟨xs', c, ys', rfl, hxs, hc, hys⟩ := split_spelled hz
    obtain ⟨u, hu, hux⟩ := hx.single hxs
    obtain ⟨vs, hvs, hts⟩ := hts.derives ys' hys
    exact ⟨_, .more hu (Lexeme.token_of_spelled hc) hvs, by simp [hux, hts]⟩

theorem noArguments {l r : Lexeme} (hf : l.Faithful) (hl : l.token = .lParen) :
    Reprints m .arguments [l, r] [] [Token.lParen.spelled, Token.rParen.spelled] where
  prints := by
    have hboth := (Prints.nil.mark (t := .lParen) rfl).clear.mark (t := .rParen) rfl
    simpa [ExprSymbol.text, Expr.texts, Bytes.join, Token.spelling] using hboth.clear
  head := by simp [hf.spelled_eq hl (.inr rfl)]
  derives zs hz := by
    obtain ⟨l, rest, rfl, hl, hrest⟩ := List.map_eq_cons_iff.1 hz
    obtain ⟨r, rfl, hr⟩ := List.map_eq_singleton_iff.1 hrest
    exact ⟨_, .noArguments (Lexeme.token_of_spelled hl) (Lexeme.token_of_spelled hr), rfl⟩

theorem someArguments {l r : Lexeme} {ts : List Expr} (hf : l.Faithful) (hl : l.token = .lParen)
    (hts : Reprints m .items xs ts L) :
    Reprints m .arguments (l :: (xs ++ [r])) ts (Token.lParen.spelled :: (L ++ [Token.rParen.spelled])) where
  prints := by
    have hopen := hts.prints.before (Prints.nil.mark (t := .lParen) rfl)
    simpa [ExprSymbol.text_arguments, Token.spelling] using (hopen.mark (t := .rParen) rfl).clear
  head := by simp [hf.spelled_eq hl (.inr rfl)]
  derives zs hz := by
    obtain ⟨l, rest, rfl, hl, hrest⟩ := List.map_eq_cons_iff.1 hz
    obtain ⟨xs', r, ws, rfl, hxs, hr, hws⟩ := split_spelled hrest
    obtain rfl := List.map_eq_nil_iff.1 hws
    obtain ⟨us, hus, hts⟩ := hts.derives xs' hxs
    exact ⟨_, .someArguments (Lexeme.token_of_spelled hl) hus (Lexeme.token_of_spelled hr), hts⟩

theorem noElements {loc : Location} {l r : Lexeme} (hf : l.Faithful) (hl : l.token = .lBrace) :
    Reprints m .array [l, r] [.array (.mk loc [])] [Token.lBrace.spelled, Token.rBrace.spelled] where
  prints := by
    have hboth := (Prints.nil.mark (t := .lBrace) rfl).clear.mark (t := .rBrace) rfl
    simpa [Expr.text, ArrayLit.text, Expr.texts, Bytes.join, Token.spelling] using hboth.clear
  head := by simp [hf.spelled_eq hl (.inr rfl)]
  derives zs hz := by
    obtain ⟨l, rest, rfl, hl, hrest⟩ := List.map_eq_cons_iff.1 hz
    obtain ⟨r, rfl, hr⟩ := List.map_eq_singleton_iff.1 hrest
    exact ⟨_, .noElements (Lexeme.token_of_spelled hl) (Lexeme.token_of_spelled hr), by simp⟩

/-- An array literal; what is between the last element and the closing brace does not matter. -/
theorem elements {loc : Location} {l : Lexeme} {ys : List Lexeme} {ts : List Expr} (hf : l.Faithful)
    (hl : l.token = .lBrace) (hts : Reprints m .items xs ts L) :
    Reprints m .array (l :: (xs ++ ys)) [.array (.mk loc ts)]
      (Token.lBrace.spelled :: (L ++ [Token.rBrace.spelled])) where
  prints := by
    have harray : (Expr.array (.mk loc ts)).text = utf8 "\x7b" ++ ExprSymbol.items.text ts ++ utf8 "\x7d" := by
      simp [Expr.text, ArrayLit.text, ExprSymbol.text]
    have hopen := hts.prints.before (Prints.nil.mark (t := .lBrace) rfl)
    simpa [harray, Token.spelling] using (hopen.mark (t := .rBrace) rfl).clear
  head := by simp [hf.spelled_eq hl (.inr rfl)]
  derives zs hz := by
    obtain ⟨l, rest, rfl, hl, hrest⟩ := List.map_eq_cons_iff.1 hz
    obtain ⟨xs', r, ws, rfl, hxs, hr, hws⟩ := split_spelled hrest
    obtain rfl := List.map_eq_nil_iff.1 hws
    obtain ⟨us, hus, hts⟩ := hts.derives xs' hxs
    exact ⟨_, .elements (Lexeme.token_of_spelled hl) hus (Lexeme.token_of_spelled hr), by simp [hts]⟩

end ExprSymbol.Reprints

/-- **Derived expressions are reprinted.** -/
theorem DerivesExpr.reprints (hm : ¬ m.errors) (h : DerivesExpr m sym xs ts) (hf : ∀ x ∈ xs, x.Faithful) :
    ∃ L, sym.Reprints m xs ts L := by
  induction h with
  | value _ ih =>
    obtain ⟨L, hL⟩ := ih hf
    exact ⟨L, hL.lift (by simp) fun _ _ => .value⟩
  | assign hx hop ht _ ihx ihv =>
    obtain ⟨L, hL⟩ := ihx fun x hx => hf x (by simp [hx])
    obtain ⟨M, hM⟩ := ihv fun x hx => hf x (by simp [hx])
    exact ⟨_, hL.assign hx.ne_nil (hf _ (by simp)) hop ht hM⟩
  | joined hx hop _ ihx ihv =>
    obtain ⟨L, hL⟩ := ihx fun x hx => hf x (by simp [hx])
    obtain ⟨M, hM⟩ := ihv fun x hx => hf x (by simp [hx])
    exact ⟨_, hL.joined hx.ne_nil (hf _ (by simp)) hop hM⟩
  | tighter hp _ ih =>
    obtain ⟨L, hL⟩ := ih hf
    exact ⟨L, hL.lift (by simp) fun _ _ => .tighter hp⟩
  | term _ ih =>
    obtain ⟨L, hL⟩ := ih hf
    exact ⟨L, hL.lift (by simp) fun _ _ => .term⟩
  | signed hop hx ih =>
    obtain ⟨L, hL⟩ := ih fun x hx => hf x (by simp [hx])
    have hs := hx.startsApart hm fun x hx => hf x (by simp [hx])
    exact ⟨_, .signed (hf _ (by simp)) hop hL (hs _ (by simp))⟩
  | unsigned _ ih =>
    obtain ⟨L, hL⟩ := ih hf
    exact ⟨L, hL.lift (by simp) fun _ _ => .unsigned⟩
  | stepped hx hop ih =>
    obtain ⟨L, hL⟩ := ih fun x hx => hf x (by simp [hx])
    exact ⟨_, hL.stepped hx.ne_nil (hf _ (by simp)) hop⟩
  | start _ ih =>
    obtain ⟨L, hL⟩ := ih hf
    exact ⟨L, hL.lift (by simp) fun _ _ => .start⟩
  | index hx _ _ _ ihx ihi =>
    obtain ⟨L, hL⟩ := ihx fun x hx => hf x (by simp [hx])
    obtain ⟨M, hM⟩ := ihi fun x hx => hf x (by simp [hx])
    exact ⟨_, hL.index hx.ne_nil hM⟩
  | call hx _ ihx iha =>
    obtain ⟨L, hL⟩ := ihx fun x hx => hf x (by simp [hx])
    obtain ⟨M, hM⟩ := iha fun x hx => hf x (by simp [hx])
    exact ⟨_, hL.call hx.ne_nil hM⟩
  | select hx _ hi ih =>
    obtain ⟨L, hL⟩ := ih fun x hx => hf x (by simp [hx])
    exact ⟨_, hL.select hx.ne_nil (hf _ (by simp)) hi⟩
  | literal hx => exact ⟨_, .literal (hf _ (by simp)) hx⟩
  | ident hx => exact ⟨_, .ident (hf _ (by simp)) hx⟩
  | paren hl _ _ ih =>
    obtain ⟨L, hL⟩ := ih fun x hx => hf x (by simp [hx])
    exact ⟨_, .paren (hf _ (by simp)) hl hL⟩
  | arrayOperand _ ih =>
    obtain ⟨L, hL⟩ := ih hf
    exact ⟨L, hL.lift (by simp) fun _ _ => .arrayOperand⟩
  | newObject hk hq _ ih =>
    obtain ⟨L, hL⟩ := ih fun x hx => hf x (by simp [hx])
    exact ⟨_, .newObject (hf _ (by simp)) hk hq (fun x hx => hf x (by simp [hx])) hL⟩
  | newLength hk hq _ _ _ hb ih =>
    obtain ⟨L, hL⟩ := ih fun x hx => hf x (by simp [hx])
    exact ⟨_, .newLength (hf _ (by simp)) hk hq (fun x hx => hf x (by simp [hx])) hL hb fun x hx => hf x (by simp [hx])⟩
  | newElements hk ht hpos _ ih =>
    obtain ⟨L, hL⟩ := ih fun x hx => hf x (by simp [hx])
    exact ⟨_, .newElements (hf _ (by simp)) hk ht (fun x hx => hf x (by simp [hx])) hpos hL⟩
  | malformed he => exact absurd he hm
  | one _ ih =>
    obtain ⟨L, hL⟩ := ih hf
    exact ⟨L, hL.lift (by simp) fun _ _ => .one⟩
  | more hx _ hts ih ihs =>
    obtain ⟨L, hL⟩ := ih fun x hx => hf x (by simp [hx])
    obtain ⟨M, hM⟩ := ihs fun x hx => hf x (by simp [hx])
    exact ⟨_, hL.more hx.ne_nil hM hts.items_ne_nil⟩
  | noArguments hl _ => exact ⟨_, .noArguments (hf _ (by simp)) hl⟩
  | someArguments hl _ _ ih =>
    obtain ⟨L, hL⟩ := ih fun x hx => hf x (by simp [hx])
    exact ⟨_, .someArguments (hf _ (by simp)) hl hL⟩
  | noElements hl _ => exact ⟨_, .noElements (hf _ (by simp)) hl⟩
  | elements hl _ _ ih | elementsComma hl _ _ _ ih =>
    obtain ⟨L, hL⟩ := ih fun x hx => hf x (by simp [hx])
    exact ⟨_, .elements (hf _ (by simp)) hl hL⟩

end Grammar

end SmallJava
