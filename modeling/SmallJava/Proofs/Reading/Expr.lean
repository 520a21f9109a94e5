import SmallJava.Proofs.Grammar.Nesting
import SmallJava.Proofs.Reading.Name

/-!
# Expressions are read as derivations

Whatever an expression parser gives is derived from the tokens it took, and is no deeper than the levels the
parser had to spend. The proof goes once through the parsers, with one lemma for each of them, under the
assumption that the parsers of the level below do the same; `reads_expr` and `reads_unary` then follow by
induction on the number of levels.
-/

namespace SmallJava

open Grammar

/-- There are six levels of binary operators. -/
theorem Token.precedence?_bounds {t : Token} {p : Nat} (h : t.precedence? = some p) : 1 ≤ p ∧ p ≤ 6 := by
  unfold precedence? at h
  split at h <;> cases h <;> decide

namespace Grammar

variable {m : Mode}

/-- The grammar adds items in front of a list, and the parser behind it. -/
theorem DerivesExpr.items_concat {xs ys : List Lexeme} {ts : List Expr} {c : Lexeme} {x : Expr}
    (h : DerivesExpr m .items xs ts) (hc : c.token = .comma) (hx : DerivesExpr m .expr ys [x]) :
    DerivesExpr m .items (xs ++ c :: ys) (ts ++ [x]) := by
  generalize hsym : ExprSymbol.items = sym at h
  induction h with
  | one h' => exact .more h' hc (.one hx)
  | more h' hc' _ _ ih =>
    have := DerivesExpr.more h' hc' (ih hsym)
    simpa using this
  | _ => cases hsym

/-- An array literal starts with a brace. -/
theorem DerivesExpr.array_head {xs : List Lexeme} {ts : List Expr} (h : DerivesExpr m .array xs ts) :
    ∃ l zs, xs = l :: zs ∧ l.token = .lBrace := by
  cases h with
  | noElements hl _ => exact ⟨_, _, rfl, hl⟩
  | elements hl _ _ => exact ⟨_, _, rfl, hl⟩
  | elementsComma hl _ _ _ => exact ⟨_, _, rfl, hl⟩

/-! The parsers compute the location of a node from those of its parts. -/

/-- From the start of one expression to the end of another, which is the extent of the tokens of both. -/
theorem DerivesExpr.through {sym sym' : ExprSymbol} {xs ys : List Lexeme} {x y : Expr}
    (hx : DerivesExpr m sym xs [x]) (hsym : sym.isSingle = true) (zs : List Lexeme)
    (hy : DerivesExpr m sym' ys [y]) (hsym' : sym'.isSingle = true) :
    x.location.through y.location = extent (xs ++ (zs ++ ys)) := by
  rw [hx.location hsym x (by simp), hy.location hsym' y (by simp)]
  exact through_extent hx.ne_nil zs hy.ne_nil

/-- From the start of an expression to the end of a token behind it. -/
theorem DerivesExpr.through_token {sym : ExprSymbol} {xs : List Lexeme} {x : Expr} (hx : DerivesExpr m sym xs [x])
    (hsym : sym.isSingle = true) (zs : List Lexeme) (r : Lexeme) :
    x.location.through r.location = extent (xs ++ (zs ++ [r])) := by
  rw [hx.location hsym x (by simp)]
  exact through_location hx.ne_nil zs r

/-- The production for a binary operator, with the location that the parser gives the node. -/
theorem DerivesExpr.joined_through {p : Nat} {xs ys : List Lexeme} {op : Lexeme} {x y : Expr}
    (hx : DerivesExpr m (.binary p) xs [x]) (hop : op.token.precedence? = some p)
    (hy : DerivesExpr m (.binary (p + 1)) ys [y]) :
    DerivesExpr m (.binary p) (xs ++ op :: ys) [.binary (x.location.through y.location) op.token x y] := by
  rw [hx.through rfl [op] hy rfl]
  exact .joined hx hop hy

/-- The production for an assignment, with the location that the parser gives the node. -/
theorem DerivesExpr.assign_through {xs ys : List Lexeme} {op : Lexeme} {x v : Expr}
    (hx : DerivesExpr m (.binary 1) xs [x]) (hop : op.token.isAssign = true)
    (htarget : m.lax ∨ x.isAssignable = true) (hv : DerivesExpr m .expr ys [v]) :
    DerivesExpr m .expr (xs ++ op :: ys) [.assign (x.location.through v.location) op.token x v] := by
  rw [hx.through rfl [op] hv rfl]
  exact .assign hx hop htarget hv

theorem DerivesExpr.index_through {xs ys : List Lexeme} {l r : Lexeme} {x i : Expr}
    (hx : DerivesExpr m .chain xs [x]) (hl : l.token = .lSquare) (hi : DerivesExpr m .expr ys [i])
    (hr : r.token = .rSquare) :
    DerivesExpr m .chain (xs ++ l :: (ys ++ [r])) [.index (x.location.through r.location) x i] := by
  rw [hx.through_token rfl (l :: ys) r]
  exact .index hx hl hi hr

/-- The parser keeps the closing parenthesis of the arguments, and a call ends with it. -/
theorem DerivesExpr.call_through {xs ys : List Lexeme} {r : Lexeme} {x : Expr} {args : List Expr}
    (hx : DerivesExpr m .chain xs [x]) (ha : DerivesExpr m .arguments (ys ++ [r]) args) :
    DerivesExpr m .chain (xs ++ (ys ++ [r])) [.call (x.location.through r.location) x args] := by
  rw [hx.through_token rfl ys r]
  exact .call hx ha

theorem DerivesExpr.select_through {xs : List Lexeme} {d i : Lexeme} {x : Expr}
    (hx : DerivesExpr m .chain xs [x]) (hd : d.token = .dot) (hi : i.token = .ident) :
    DerivesExpr m .chain (xs ++ [d, i]) [.select (x.location.through i.ident.location) x i.ident] := by
  rw [Lexeme.ident, hx.through_token rfl [d] i]
  exact .select hx hd hi

/-- An operator behind an operand ends the chain, so that what it gives is not in a chain. -/
theorem DerivesExpr.stepped_through {xs : List Lexeme} {op : Lexeme} {x : Expr}
    (hx : DerivesExpr m .chain xs [x]) (hop : op.token = .inc ∨ op.token = .dec) :
    DerivesExpr m .unary (xs ++ [op]) [.unary (x.location.through op.location) op.token x .after] := by
  rw [hx.through_token rfl [] op]
  exact .stepped hx hop

theorem DerivesExpr.signed_through {op : Lexeme} {xs : List Lexeme} {x : Expr}
    (hop : Parser.isPrefixOperator op.token = true) (hx : DerivesExpr m .unary xs [x]) :
    DerivesExpr m .unary (op :: xs) [.unary (op.location.through x.location) op.token x .before] := by
  rw [hx.location rfl x (by simp), ← extent_cons op hx.ne_nil]
  exact .signed hop hx

end Grammar

namespace Parser

variable {setup : Setup} {all : List Lexeme} {s : State} {d : Nat}

/-- The parser gives expressions of depth at most `d`. -/
def ReadsExpr (setup : Setup) (all : List Lexeme) (p : Parser Expr) (d : Nat) : Prop :=
  ∀ s : State, s.At all → Reads setup all p s fun m xs x => DerivesExpr m .expr xs [x] ∧ x.nesting + 1 ≤ d

/-- The parser gives derivations from `sym`, and what they nest is at most `d` deep. -/
def ReadsTerm (setup : Setup) (all : List Lexeme) (sym : ExprSymbol) (p : Parser Expr) (d : Nat) : Prop :=
  ∀ s : State, s.At all → Reads setup all p s fun m xs x => DerivesExpr m sym xs [x] ∧ x.nesting ≤ d

/-- The parsers of the level below have one level less. -/
def InnerReads (setup : Setup) (all : List Lexeme) (inner : Option Inner) (d : Nat) : Prop :=
  ∀ i, inner = some i → ∃ d', d = d' + 1 ∧ ReadsExpr setup all i.expr d' ∧ ReadsTerm setup all .unary i.unary d'

/-- Going on from a derivation of `x` from `sym`, the tokens `zs` make it a derivation of `y` from `sym'`. -/
def Continues (d : Nat) (sym sym' : ExprSymbol) (xs : List Lexeme) (x : Expr) (m : Mode) (zs : List Lexeme)
    (y : Expr) : Prop :=
  DerivesExpr m sym xs [x] ∧ x.nesting ≤ d → DerivesExpr m sym' (xs ++ zs) [y] ∧ y.nesting ≤ d

/-! ## Operators -/

/-- One operator of precedence `p` and the operand behind it go on with what has been read. -/
theorem reads_binaryStep {p : Nat} {operand : Parser Expr} (hw : setup.Suits all)
    (ho : ReadsTerm setup all (.binary (p + 1)) operand d) (hs : s.At all) (sym : ExprSymbol) (xs zs : List Lexeme)
    (x y : Expr) :
    Reads setup all (binaryStep p operand y) s
      (StepPost (Continues d sym (.binary p) xs x) (Continues d sym (.binary p) xs x) zs y) := by
  unfold binaryStep
  rw [reads_current_bind]
  split
  · next hop =>
    have hne : (s.current setup).token ≠ .eof := by
      intro h
      simp [h, Token.precedence?] at hop
    refine reads_next_bind hw hs hne fun s₁ _ hs₁ => ?_
    refine .bind hs₁ (ho s₁ hs₁) fun ys z s₂ _ _ => .pure fun m _ => ?_
    rintro ⟨hz, hnz⟩
    refine ⟨by simp, fun hI hx => ?_⟩
    obtain ⟨hy, hny⟩ := hI hx
    exact ⟨by simpa using hy.joined_through hop hz, by simp only [Expr.nesting]; omega⟩
  · exact .pure fun m _ hI hx => by simpa using hI hx

/-- One level over operands with tighter operators only. -/
theorem reads_binaryLevel {p : Nat} {operand : Parser Expr} (hw : setup.Suits all) (hp : p ≤ 6)
    (ho : ReadsTerm setup all (.binary (p + 1)) operand d) :
    ReadsTerm setup all (.binary p) (binaryLevel p operand) d := by
  intro s hs
  refine .bind hs (ho s hs) fun xs x s' _ hs' => ?_
  refine reads_loop hs' ?_ fun zs s₁ y _ hs₁ => reads_binaryStep hw ho hs₁ (.binary (p + 1)) xs zs x y
  rintro m ⟨hx, hn⟩
  exact ⟨by simpa using .tighter hp hx, hn⟩

/-- The tightest `n` levels are those of precedence `7 - n` and more. -/
theorem reads_binaryLevels {operand : Parser Expr} (hw : setup.Suits all)
    (ho : ReadsTerm setup all .unary operand d) (n : Nat) (hn : n ≤ 6) :
    ReadsTerm setup all (.binary (7 - n)) (binaryLevels operand n) d := by
  induction n with
  | zero => exact fun s hs => (ho s hs).mono fun m xs x h => ⟨.term h.1, h.2⟩
  | succ n ih =>
    have hlevel := ih (by omega)
    have hsucc : 7 - n = 6 - n + 1 := by omega
    rw [hsucc] at hlevel
    rw [show 7 - (n + 1) = 6 - n by omega]
    exact reads_binaryLevel hw (by omega) hlevel

/-- All six levels, so that any operator may be the outermost. -/
theorem reads_binary {operand : Parser Expr} (hw : setup.Suits all) (ho : ReadsTerm setup all .unary operand d) :
    ReadsTerm setup all (.binary 1) (binary operand) d :=
  reads_binaryLevels hw ho 6 (Nat.le_refl 6)

/-- An assignment in its place: what is assigned to is reported if it is no proper target. -/
theorem reads_exprWith {inner : Option Inner} (hw : setup.Suits all) (hi : InnerReads setup all inner d) :
    ReadsExpr setup all (exprWith inner) d := by
  intro s hs
  refine reads_nested hs fun i hsome => ?_
  obtain ⟨d', rfl, he, hu⟩ := hi i hsome
  refine .bind hs (reads_binary hw hu s hs) fun xs x s₁ _ hs₁ => ?_
  rw [reads_token_bind]
  split
  · next hop =>
    have hne : (s₁.current setup).token ≠ .eof := by
      intro h
      simp [h, Token.isAssign] at hop
    refine reads_next_bind hw hs₁ hne fun s₂ _ hs₂ => ?_
    split
    · -- no proper target
      refine .bind hs₂ (reads_report hs₂ _ _) fun js _ s₃ ht₃ hs₃ => ?_
      refine .bind hs₃ (he s₃ hs₃) fun ys v s₄ ht₄ hs₄ => .pure fun m _ => ?_
      rintro ⟨hv, hnv⟩ ⟨-, hlax, rfl | ⟨-, rfl⟩⟩ ⟨hx, hnx⟩
      · exact ⟨by simpa using hx.assign_through hop (.inl hlax) hv, by simp only [Expr.nesting]; omega⟩
      · -- a halted parse has no token left for the value
        have hrest : s₃.rest = [] := by simpa using ht₃.rest
        have := ht₄.rest
        simp [hrest, hv.ne_nil] at this
    · next hassignable =>
      have htarget : x.isAssignable = true := by simpa using hassignable
      refine .bind hs₂ (he s₂ hs₂) fun ys v s₃ _ hs₃ => .pure fun m _ => ?_
      rintro ⟨hv, hnv⟩ ⟨hx, hnx⟩
      exact ⟨by simpa using hx.assign_through hop (.inr htarget) hv, by simp only [Expr.nesting]; omega⟩
  · refine .pure fun m _ => ?_
    rintro ⟨hx, hn⟩
    exact ⟨by simpa using .value hx, by omega⟩

/-! ## Operands -/

/-- Several expressions, each of depth at most `d`. -/
def ItemsWithin (d : Nat) (m : Mode) (xs : List Lexeme) (ts : List Expr) : Prop :=
  DerivesExpr m .items xs ts ∧ Expr.depths ts ≤ d

theorem itemsWithin_one (m : Mode) (xs : List Lexeme) (x : Expr)
    (h : DerivesExpr m .expr xs [x] ∧ x.nesting + 1 ≤ d) : ItemsWithin d m xs [x] :=
  ⟨.one h.1, by simpa [Expr.depths] using h.2⟩

/-- Another item behind a comma keeps the depth. -/
theorem itemsWithin_more (m : Mode) (xs : List Lexeme) (ts : List Expr) (c : Lexeme) (ys : List Lexeme) (x : Expr)
    (hl : ItemsWithin d m xs ts) (hc : c.token = .comma)
    (hx : DerivesExpr m .expr ys [x] ∧ x.nesting + 1 ≤ d) : ItemsWithin d m (xs ++ c :: ys) (ts ++ [x]) := by
  refine ⟨hl.1.items_concat hc hx.1, ?_⟩
  have := hl.2
  simp only [Expr.depths_append, Expr.depths]
  omega

/-- Arguments are given with their closing parenthesis, the last token taken. -/
theorem reads_arguments {expr : Parser Expr} (hw : setup.Suits all) (he : ReadsExpr setup all expr d)
    (hs : s.At all) :
    Reads setup all (arguments expr) s fun m xs r =>
      DerivesExpr m .arguments xs r.1 ∧ Expr.depths r.1 ≤ d ∧ ∃ ys, xs = ys ++ [r.2] := by
  refine .bind hs (reads_want hw hs (by decide)) fun ls l s₁ _ hs₁ => ?_
  refine .bind hs₁ (reads_separatedUntil hw itemsWithin_one itemsWithin_more he hs₁ _) fun xs ts s₂ _ hs₂ => ?_
  refine .bind hs₂ (reads_want hw hs₂ (by decide)) fun rs r s₃ _ hs₃ => .pure fun m _ => ?_
  rintro ⟨rfl, hr⟩ (⟨rfl, rfl⟩ | ⟨hts, hn⟩) ⟨rfl, hl⟩
  · exact ⟨.noArguments hl hr, by simp [Expr.depths], [l], rfl⟩
  · exact ⟨by simpa using .someArguments hl hts hr, hn, l :: xs, by simp⟩

/-- A closing brace may stand behind a comma or behind an element, and then the list is complete. -/
theorem reads_elementStep {expr : Parser Expr} (hw : setup.Suits all) (he : ReadsExpr setup all expr d)
    (hs : s.At all) (zs : List Lexeme) (ts : List Expr) :
    Reads setup all (elementStep expr ts) s
      (StepPost (BeforeItem (ItemsWithin d))
        (fun m xs ts => BeforeItem (ItemsWithin d) m xs ts ∨ ItemsWithin d m xs ts) zs ts) := by
  unfold elementStep
  rw [reads_token_bind]
  split
  · exact .pure fun m _ hI => .inl (by simpa using hI)
  · refine (reads_itemStep hw itemsWithin_one itemsWithin_more hs (he s hs) zs ts).mono ?_
    intro m ys r h
    cases r with
    | yield => exact h
    | done => exact fun hI => .inr (h hI)

/-- The elements of an array literal are one level deeper. -/
theorem reads_arrayLit {inner : Option Inner} (hw : setup.Suits all) (hi : InnerReads setup all inner d)
    (hs : s.At all) :
    Reads setup all (arrayLit inner) s fun m xs a => DerivesExpr m .array xs [.array a] ∧ a.nesting ≤ d := by
  refine reads_nested hs fun i hsome => ?_
  obtain ⟨d', rfl, he, -⟩ := hi i hsome
  refine .bind hs (reads_want hw hs (by decide)) fun ls l s₁ _ hs₁ => ?_
  refine .bind hs₁ (reads_loop hs₁ (fun _ => .inl ⟨rfl, rfl⟩) fun zs s' ts _ hs' => reads_elementStep hw he hs' zs ts)
    fun xs ts s₂ _ hs₂ => ?_
  refine .bind hs₂ (reads_want hw hs₂ (by decide)) fun rs r s₃ _ hs₃ => .pure fun m _ => ?_
  rintro ⟨rfl, hr⟩ hts ⟨rfl, hl⟩
  have hloc : l.location.through r.location = extent (l :: (xs ++ [r])) := (extent_concat l r xs).symm
  rw [hloc]
  rcases hts with (⟨rfl, rfl⟩ | ⟨ys, c, rfl, hc, hts, hn⟩) | ⟨hts, hn⟩
  · exact ⟨.noElements hl hr, by simp [ArrayLit.nesting, Expr.depths]⟩
  · refine ⟨by simpa using .elementsComma hl hts hc hr, ?_⟩
    simp only [ArrayLit.nesting]
    omega
  · refine ⟨by simpa using .elements hl hts hr, ?_⟩
    simp only [ArrayLit.nesting]
    omega

theorem ne_eof_of_token {t : Token} (h : (s.current setup).token = t) (ht : t ≠ .eof) :
    (s.current setup).token ≠ .eof := h ▸ ht

/-- The token behind the name tells an object from an array, and one more tells whether there is a length. -/
theorem reads_allocation {inner : Option Inner} {expr : Parser Expr} (hw : setup.Suits all)
    (hi : InnerReads setup all inner d) (he : ReadsExpr setup all expr d) (hs : s.At all) :
    Reads setup all (allocation inner expr) s fun m xs x => DerivesExpr m .operand xs [x] ∧ x.nesting ≤ d := by
  refine .bind hs (reads_want hw hs (by decide)) fun ks kw s₁ ht₁ hs₁ => ?_
  refine .bind hs₁ (reads_qualifiedName hw hs₁) fun qs t s₂ ht₂ hs₂ => ?_
  rw [reads_token_bind]
  split
  · -- an object
    refine .bind hs₂ (reads_arguments hw he hs₂) fun as r s₃ ht₃ hs₃ => ?_
    rw [reads_spanFrom_bind]
    refine .pure fun m _ => ?_
    rintro ⟨ha, hn, -⟩ hq ⟨rfl, hk⟩
    have hloc := spanFrom_eq_extent hw hs (ht₁.trans (ht₂.trans ht₃))
    refine ⟨?_, by simpa [Expr.nesting] using hn⟩
    rw [hloc]
    simpa using .newObject hk hq ha
  · next hsquare =>
    rw [reads_get_bind]
    split
    · -- an array with its elements
      refine .bind hs₂ (reads_dimensions hs₂ t true) fun ds t' s₃ ht₃ hs₃ => ?_
      refine .bind hs₃ (reads_arrayLit hw hi hs₃) fun es a s₄ ht₄ hs₄ => ?_
      rw [reads_spanFrom_bind]
      refine .pure fun m _ => ?_
      rintro ⟨ha, hn⟩ ⟨n, hdims, rfl⟩ hq ⟨rfl, hk⟩
      have hds : ds ≠ [] := by
        -- the literal starts with a brace, and what is next is a bracket
        rintro rfl
        obtain ⟨l, zs, rfl, hl⟩ := ha.array_head
        have hcur : s₂.current setup = l :=
          (current_eq_of_takes_nil setup ht₃).symm.trans (current_eq_of_takes ht₄)
        rw [hcur, hl] at hsquare
        simp at hsquare
      have hloc := spanFrom_eq_extent hw hs (ht₁.trans (ht₂.trans (ht₃.trans ht₄)))
      have htype := TypeRef.of_dims hq hdims
      have hpos : 0 < n := by
        cases hdims with
        | none => exact absurd rfl hds
        | pair => exact Nat.succ_pos _
      refine ⟨?_, by simpa [Expr.nesting, Expr.depths] using hn⟩
      rw [hloc]
      simpa [hds] using DerivesExpr.newElements hk htype (by simp [hq.dims, hpos]) ha
    · -- an array of a given length
      refine reads_next_bind hw hs₂ (ne_eof_of_token hsquare (by decide)) fun s₃ ht₃ hs₃ => ?_
      refine .bind hs₃ (he s₃ hs₃) fun ls len s₄ ht₄ hs₄ => ?_
      refine .bind hs₄ (reads_want hw hs₄ (by decide)) fun rs r s₅ ht₅ hs₅ => ?_
      refine .bind hs₅ (reads_dimensions hs₅ t false) fun ds t' s₆ ht₆ hs₆ => ?_
      rw [reads_spanFrom_bind]
      refine .pure fun m _ => ?_
      rintro ⟨n, hdims, rfl⟩ ⟨rfl, hr⟩ ⟨hlen, hn⟩ hq ⟨rfl, hk⟩
      have hloc := spanFrom_eq_extent hw hs (ht₁.trans (ht₂.trans (ht₃.trans (ht₄.trans (ht₅.trans ht₆)))))
      refine ⟨?_, by simpa [Expr.nesting, Expr.depths] using hn⟩
      rw [hloc]
      simpa [hq.dims] using DerivesExpr.newLength hk hq hsquare hlen hr hdims
  · rw [reads_current_bind]
    exact reads_fail hs₂ _

/-- A literal is a node of its own token. -/
theorem reads_literal (hw : setup.Suits all) (hs : s.At all) (h : (s.current setup).token.isLiteral = true) :
    Reads setup all (next >>= fun _ => pure (.literal (s.current setup).literal)) s fun m xs x =>
      DerivesExpr m .operand xs [x] ∧ x.nesting ≤ d := by
  have hne : (s.current setup).token ≠ .eof := by
    intro heof
    simp [heof, Token.isLiteral] at h
  exact reads_next_bind hw hs hne fun s' _ hs' => .pure fun m _ => ⟨.literal h, Nat.zero_le d⟩

/-- The current token settles which production the operand is made by. -/
theorem reads_primary {inner : Option Inner} {expr : Parser Expr} (hw : setup.Suits all)
    (hi : InnerReads setup all inner d) (he : ReadsExpr setup all expr d) (hs : s.At all) :
    Reads setup all (primary inner expr) s fun m xs x => DerivesExpr m .operand xs [x] ∧ x.nesting ≤ d := by
  unfold primary
  rw [reads_current_bind]
  split
  case h_7 =>
    refine .bind hs (reads_ident hw hs) fun xs i s₁ _ hs₁ => .pure fun m _ => ?_
    rintro ⟨x, rfl, hx, rfl⟩
    exact ⟨.ident hx, Nat.zero_le d⟩
  case h_8 hl =>
    refine reads_nested hs fun i hsome => ?_
    obtain ⟨d', rfl, he', -⟩ := hi i hsome
    refine reads_next_bind hw hs (ne_eof_of_token hl (by decide)) fun s₁ _ hs₁ => ?_
    refine .bind hs₁ (he' s₁ hs₁) fun xs x s₂ _ hs₂ => ?_
    refine .bind hs₂ (reads_want hw hs₂ (by decide)) fun rs r s₃ _ hs₃ => .pure fun m _ => ?_
    rintro ⟨rfl, hr⟩ ⟨hx, hn⟩
    refine ⟨?_, by simp only [Expr.nesting]; omega⟩
    rw [← extent_concat _ r xs]
    simpa using .paren hl hx hr
  case h_9 =>
    refine .bind hs (reads_arrayLit hw hi hs) fun xs a s₁ _ hs₁ => .pure fun m _ => ?_
    rintro ⟨ha, hn⟩
    exact ⟨by simpa using .arrayOperand ha, hn⟩
  case h_10 => exact reads_allocation hw hi he hs
  case h_11 hx =>
    have hne := ne_eof_of_token hx (by decide)
    refine reads_next_bind hw hs hne fun s₁ ht₁ hs₁ => .pure fun m hm => ?_
    have herrors := hm.errors (.inr ⟨_, hs.mem_of_rest (by rw [ht₁.rest]; simp), hx⟩)
    exact ⟨.malformed herrors hx, Nat.zero_le d⟩
  case h_12 => exact reads_fail hs _
  -- what is left is the literals
  all_goals
    next h => exact reads_literal hw hs (by rw [h]; rfl)

/-- An increment or a decrement ends the chain, and the loop is done. -/
theorem reads_steppedSuffix (hw : setup.Suits all) (hs : s.At all) (xs zs : List Lexeme) (x y : Expr)
    (hop : (s.current setup).token = .inc ∨ (s.current setup).token = .dec) :
    Reads setup all (next >>= fun op => pure (.done (.unary (y.location.through op.location) op.token y .after))) s
      (StepPost (Continues d .operand .chain xs x) (Continues d .operand .unary xs x) zs y) := by
  have hne : (s.current setup).token ≠ .eof := by
    rcases hop with h | h <;> simp [h]
  refine reads_next_bind hw hs hne fun s₁ _ _ => .pure fun m _ hI hx => ?_
  obtain ⟨hy, hny⟩ := hI hx
  exact ⟨by simpa using hy.stepped_through hop, by simpa only [Expr.nesting] using hny⟩

/-- Each other suffix goes on with the chain, and the loop goes on with it. -/
theorem reads_suffixStep {expr : Parser Expr} (hw : setup.Suits all) (he : ReadsExpr setup all expr d)
    (hs : s.At all) (xs zs : List Lexeme) (x y : Expr) :
    Reads setup all (suffixStep expr y) s
      (StepPost (Continues d .operand .chain xs x) (Continues d .operand .unary xs x) zs y) := by
  unfold suffixStep
  rw [reads_token_bind]
  split
  · next hl =>
    refine reads_next_bind hw hs (ne_eof_of_token hl (by decide)) fun s₁ _ hs₁ => ?_
    refine .bind hs₁ (he s₁ hs₁) fun is i s₂ _ hs₂ => ?_
    refine .bind hs₂ (reads_want hw hs₂ (by decide)) fun rs r s₃ _ _ => .pure fun m _ => ?_
    rintro ⟨rfl, hr⟩ ⟨hi, hni⟩
    refine ⟨by simp, fun hI hx => ?_⟩
    obtain ⟨hy, hny⟩ := hI hx
    exact ⟨by simpa using hy.index_through hl hi hr, by simp only [Expr.nesting]; omega⟩
  · refine .bind hs (reads_arguments hw he hs) fun as r s₁ _ _ => .pure fun m _ => ?_
    rintro ⟨ha, hna, as, rfl⟩
    refine ⟨by simp, fun hI hx => ?_⟩
    obtain ⟨hy, hny⟩ := hI hx
    exact ⟨by simpa using hy.call_through ha, by simp only [Expr.nesting]; omega⟩
  · next hd =>
    refine reads_next_bind hw hs (ne_eof_of_token hd (by decide)) fun s₁ _ hs₁ => ?_
    refine .bind hs₁ (reads_ident hw hs₁) fun is i s₂ _ _ => .pure fun m _ => ?_
    rintro ⟨i, rfl, hi, rfl⟩
    refine ⟨by simp, fun hI hx => ?_⟩
    obtain ⟨hy, hny⟩ := hI hx
    exact ⟨by simpa using hy.select_through hd hi, by simpa only [Expr.nesting] using hny⟩
  · next hop => exact reads_steppedSuffix hw hs xs zs x y (.inl hop)
  · next hop => exact reads_steppedSuffix hw hs xs zs x y (.inr hop)
  · refine .pure fun m _ hI hx => ?_
    obtain ⟨hy, hny⟩ := hI hx
    exact ⟨by simpa using .unsigned hy, hny⟩

/-- All that is applied to an operand makes a unary expression of it. -/
theorem reads_suffixes {expr : Parser Expr} {xs : List Lexeme} {x : Expr} (hw : setup.Suits all)
    (he : ReadsExpr setup all expr d) (hs : s.At all) :
    Reads setup all (suffixes expr x) s (Continues d .operand .unary xs x) := by
  refine reads_loop hs ?_ fun zs s₁ y _ hs₁ => reads_suffixStep hw he hs₁ xs zs x y
  rintro m ⟨hx, hn⟩
  exact ⟨by simpa using .start hx, hn⟩

/-- A prefix operator takes a level, and an operand with its suffixes does not. -/
theorem reads_unaryWith {inner : Option Inner} (hw : setup.Suits all) (hi : InnerReads setup all inner d) :
    ReadsTerm setup all .unary (unaryWith inner) d := by
  intro s hs
  unfold unaryWith
  rw [reads_token_bind]
  split
  · next hop =>
    have hne : (s.current setup).token ≠ .eof := by
      intro h
      simp [h, isPrefixOperator] at hop
    refine reads_nested hs fun i hsome => ?_
    obtain ⟨d', rfl, -, hu⟩ := hi i hsome
    refine reads_next_bind hw hs hne fun s₁ _ hs₁ => ?_
    refine .bind hs₁ (hu s₁ hs₁) fun xs x s₂ _ hs₂ => .pure fun m _ => ?_
    rintro ⟨hx, hn⟩
    exact ⟨by simpa using DerivesExpr.signed_through hop hx, by simp only [Expr.nesting]; omega⟩
  · have he := reads_exprWith hw hi
    exact .bind hs (reads_primary hw hi he hs) fun xs x s₁ _ hs₁ => reads_suffixes hw he hs₁

/-! ## All levels -/

/-- **Expressions and operands of every level**, by induction on the number of levels. -/
theorem reads_levels (hw : setup.Suits all) (d : Nat) :
    ReadsExpr setup all (expr d) d ∧ ReadsTerm setup all .unary (unary d) d := by
  induction d with
  | zero =>
    have hi : InnerReads setup all none 0 := fun i h => nomatch h
    rw [expr, unary]
    exact ⟨reads_exprWith hw hi, reads_unaryWith hw hi⟩
  | succ d ih =>
    have hi : InnerReads setup all (some { expr := expr d, unary := unary d }) (d + 1) := by
      rintro i ⟨⟩
      exact ⟨d, rfl, ih.1, ih.2⟩
    rw [expr, unary]
    exact ⟨reads_exprWith hw hi, reads_unaryWith hw hi⟩

/-- **An expression is read as a derivation**, and it is no deeper than the levels there were to spend. -/
theorem reads_expr (hw : setup.Suits all) (d : Nat) : ReadsExpr setup all (expr d) d := (reads_levels hw d).1

end Parser

end SmallJava
