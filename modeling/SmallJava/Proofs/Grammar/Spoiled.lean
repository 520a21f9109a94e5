import SmallJava.Proofs.Grammar.Extent
import SmallJava.Proofs.Grammar.Fitting
import SmallJava.Proofs.Grammar.Nesting

/-!
# A malformed token at the end of a statement

An expression that ends in a literal is still one if the literal is replaced by a malformed token, as long as such
tokens count as operands. What closes something is no literal, so the literal is the last operand of the expression, and
nothing else depends on it.

* `Mode.spoiled` — the grammar with malformed tokens as operands;
* `DerivesExpr.spoil` — an expression with its last literal replaced;
* `Unfinished`, `unfinished_of_stmt` — a statement with its last literal replaced and without its semicolon.
-/

namespace SmallJava.Grammar

/-- The grammar of a mode, in which bad nodes may stand for tokens. -/
def Mode.spoiled (m : Mode) : Mode := { m with errors := True }

variable {m : Mode} {xs ys : List Lexeme} {lit bad : Lexeme}

/-- Allowing bad nodes keeps every derivation. -/
theorem DerivesExpr.spoiled {sym : ExprSymbol} {ts : List Expr} (h : DerivesExpr m sym xs ts) :
    DerivesExpr m.spoiled sym xs ts :=
  h.refit fun t ht => (h.fits t ht).mono fun _ hn => hn.mono (fun _ => trivial) id

/-! ## The last token -/

/-- The last token of two parts is that of the second one, and it is replaced there. -/
theorem exists_concat_of_append {zs : List Lexeme} (hne : ys ≠ []) (h : xs ++ ys = zs ++ [lit]) :
    ∃ us, ys = us ++ [lit] ∧ ∀ bad, zs ++ [bad] = xs ++ (us ++ [bad]) := by
  obtain ⟨us, y, rfl⟩ : ∃ us y, ys = us ++ [y] := ⟨_, _, (List.dropLast_concat_getLast hne).symm⟩
  rw [← List.append_assoc] at h
  obtain ⟨hfront, hlast⟩ := List.append_inj' h rfl
  exact ⟨us, by rw [hlast], fun bad => by rw [← hfront, List.append_assoc]⟩

/-- The same with an operator between the parts. -/
theorem exists_concat_of_cons (xs : List Lexeme) {zs : List Lexeme} {op : Lexeme} (hne : ys ≠ [])
    (h : xs ++ op :: ys = zs ++ [lit]) :
    ∃ us, ys = us ++ [lit] ∧ ∀ bad, zs ++ [bad] = xs ++ op :: (us ++ [bad]) := by
  rw [List.append_cons] at h
  obtain ⟨us, hys, hzs⟩ := exists_concat_of_append hne h
  exact ⟨us, hys, fun bad => by rw [hzs, ← List.append_cons]⟩

theorem not_literal_of_concat {r : Lexeme} (h : xs ++ [r] = ys ++ [lit]) (hr : r.token.isLiteral = false) :
    lit.token.isLiteral = false := by
  rwa [← List.singleton_inj.1 (List.append_inj' h rfl).2]

/-- Arguments and array literals end in what closes them. -/
theorem DerivesExpr.closed {sym : ExprSymbol} {ts : List Expr} (h : DerivesExpr m sym xs ts)
    (hsym : sym = .arguments ∨ sym = .array) : ∃ ys r, xs = ys ++ [r] ∧ r.token.isLiteral = false := by
  cases h with
  | @noArguments l r _ hr => exact ⟨[l], r, rfl, by rw [hr]; rfl⟩
  | @someArguments l r xs _ _ _ hr => exact ⟨l :: xs, r, rfl, by rw [hr]; rfl⟩
  | @noElements l r _ hr => exact ⟨[l], r, rfl, by rw [hr]; rfl⟩
  | @elements l r xs _ _ _ hr => exact ⟨l :: xs, r, rfl, by rw [hr]; rfl⟩
  | @elementsComma l c r xs _ _ _ _ hr => exact ⟨l :: (xs ++ [c]), r, by simp, by rw [hr]; rfl⟩
  | _ => simp at hsym

/-- What ends with brackets does not end with a literal. -/
theorem Brackets.closed {n : Nat} (h : Brackets xs n) {r : Lexeme} (hr : r.token = .rSquare) :
    ∃ ys r', r :: xs = ys ++ [r'] ∧ r'.token.isLiteral = false := by
  induction h generalizing r with
  | none => exact ⟨[], r, rfl, by rw [hr]; rfl⟩
  | @pair l r' xs n _ hr' _ ih =>
    obtain ⟨ys, r'', hxs, hlit⟩ := ih hr'
    exact ⟨r :: l :: ys, r'', by rw [hxs]; rfl, hlit⟩

/-! ## Expressions -/

/-- The tokens are derived from the symbol, with trees that are as deep as the given ones. -/
def Spoils (m : Mode) (sym : ExprSymbol) (xs : List Lexeme) (ts : List Expr) : Prop :=
  ∃ ts', DerivesExpr m.spoiled sym xs ts' ∧ ts'.map Expr.nesting = ts.map Expr.nesting

/-- What stands for a single expression is a single expression, and just as deep. -/
theorem Spoils.single {sym : ExprSymbol} {x : Expr} (h : Spoils m sym xs [x]) :
    ∃ x', DerivesExpr m.spoiled sym xs [x'] ∧ x'.nesting = x.nesting := by
  obtain ⟨ts', hts', hmap⟩ := h
  obtain ⟨x', rfl, hx'⟩ := List.map_eq_singleton_iff.1 hmap
  exact ⟨x', hts', hx'⟩

/-- A symbol that is derived to another one. -/
theorem Spoils.lift {sym sym' : ExprSymbol} {x : Expr} (h : Spoils m sym xs [x])
    (hlift : ∀ {x'}, DerivesExpr m.spoiled sym xs [x'] → DerivesExpr m.spoiled sym' xs [x']) :
    Spoils m sym' xs [x] := by
  obtain ⟨x', hx', hn⟩ := h.single
  exact ⟨[x'], hlift hx', by simp [hn]⟩

/-- **A malformed token in place of the last literal.** -/
theorem DerivesExpr.spoil {sym : ExprSymbol} {ts : List Expr} (h : DerivesExpr m sym xs ts)
    (hlast : xs = ys ++ [lit]) (hlit : lit.token.isLiteral = true) (hbad : bad.token = .invalid) :
    Spoils m sym (ys ++ [bad]) ts := by
  -- where the last token closes something, it is no literal
  have hclosed : ∀ (vs : List Lexeme) {us ys : List Lexeme} {r : Lexeme} {P : Prop}, us = ys ++ [lit] →
      us = vs ++ [r] → r.token.isLiteral = false → P := by
    intro vs us ys r P hlast hus hr
    simp [not_literal_of_concat (hus.symm.trans hlast) hr] at hlit
  induction h generalizing ys with
  | value _ ih => exact (ih hlast).lift .value
  | assign hx hop htarget hv _ ihv =>
    obtain ⟨us, hzs, htokens⟩ := exists_concat_of_cons _ hv.ne_nil hlast
    obtain ⟨v', hv', hn⟩ := (ihv hzs).single
    rw [htokens]
    exact ⟨_, .assign hx.spoiled hop htarget hv', by simp [hn]⟩
  | joined hx hop hy _ ihy =>
    obtain ⟨us, hzs, htokens⟩ := exists_concat_of_cons _ hy.ne_nil hlast
    obtain ⟨y', hy', hn⟩ := (ihy hzs).single
    rw [htokens]
    exact ⟨_, .joined hx.spoiled hop hy', by simp [hn]⟩
  | tighter hp _ ih => exact (ih hlast).lift (.tighter hp)
  | term _ ih => exact (ih hlast).lift .term
  | @signed op zs x hop hx ih =>
    obtain ⟨us, hzs, htokens⟩ := exists_concat_of_cons [] hx.ne_nil hlast
    obtain ⟨x', hx', hn⟩ := (ih hzs).single
    rw [htokens]
    exact ⟨_, .signed hop hx', by simp [hn]⟩
  | unsigned _ ih => exact (ih hlast).lift .unsigned
  | stepped _ hop => exact hclosed _ hlast rfl (by rcases hop with h | h <;> rw [h] <;> rfl)
  | start _ ih => exact (ih hlast).lift .start
  | @index ws zs l r _ _ _ _ _ hr =>
    exact hclosed (ws ++ l :: zs) hlast (List.append_assoc ws (l :: zs) [r]).symm (by rw [hr]; rfl)
  | @call ws _ _ _ _ ha =>
    obtain ⟨us, r, rfl, hr⟩ := ha.closed (.inl rfl)
    exact hclosed _ hlast (List.append_assoc ws us [r]).symm hr
  | @select ws d i _ _ _ hi => exact hclosed _ hlast (List.append_assoc ws [d] [i]).symm (by rw [hi]; rfl)
  | literal _ =>
    obtain rfl : ys = [] := by simpa using congrArg List.length hlast
    exact ⟨[.bad bad.location], .malformed trivial hbad, rfl⟩
  | ident hx => exact hclosed [] hlast rfl (by rw [hx]; rfl)
  | paren _ _ hr => exact hclosed (_ :: _) hlast rfl (by rw [hr]; rfl)
  | arrayOperand ha =>
    obtain ⟨us, r, hus, hr⟩ := ha.closed (.inr rfl)
    exact hclosed _ hlast hus hr
  | @newObject kw ws _ _ _ _ _ ha =>
    obtain ⟨us, r, rfl, hr⟩ := ha.closed (.inl rfl)
    exact hclosed _ hlast (List.append_assoc (kw :: ws) us [r]).symm hr
  | @newLength kw l r ws zs vs _ _ _ _ _ _ _ hr hn =>
    obtain ⟨us, r', hus, hr'⟩ := hn.closed hr
    refine hclosed (kw :: (ws ++ l :: (zs ++ us))) hlast ?_ hr'
    simp [hus]
  | @newElements kw ws _ _ _ _ _ _ ha =>
    obtain ⟨us, r, rfl, hr⟩ := ha.closed (.inr rfl)
    exact hclosed _ hlast (List.append_assoc (kw :: ws) us [r]).symm hr
  | malformed _ hx => exact hclosed [] hlast rfl (by rw [hx]; rfl)
  | one _ ih => exact (ih hlast).lift .one
  | more hx hc hts _ ihs =>
    obtain ⟨us, hzs, htokens⟩ := exists_concat_of_cons _ hts.ne_nil hlast
    obtain ⟨ts', hts', hn⟩ := ihs hzs
    rw [htokens]
    exact ⟨_, .more hx.spoiled hc hts', by simp [hn]⟩
  | @noArguments l r _ hr | @noElements l r _ hr => exact hclosed [l] hlast rfl (by rw [hr]; rfl)
  | someArguments _ _ hr | elements _ _ hr => exact hclosed (_ :: _) hlast rfl (by rw [hr]; rfl)
  | @elementsComma l c r zs _ _ _ _ hr =>
    exact hclosed (l :: (zs ++ [c])) hlast (List.append_assoc (l :: zs) [c] [r]).symm (by rw [hr]; rfl)

/-! ## Statements -/

/-- A declaration, an expression or a `return` with a value, each without the semicolon behind it, and at most `d`
levels deep. -/
inductive Unfinished (m : Mode) (d : Nat) : List Lexeme → Prop where
  | decl {xs ys : List Lexeme} {t : TypeName} {i a : Lexeme} {x : Expr} :
      TypeRef xs t → i.token = .ident → a.token = .assign → DerivesExpr m .expr ys [x] → x.nesting + 1 ≤ d →
      Unfinished m d (xs ++ i :: a :: ys)
  | expr {x : Lexeme} {xs : List Lexeme} {e : Expr} :
      DerivesExpr m .expr (x :: xs) [e] → x.token ≠ .lBrace → e.nesting + 1 ≤ d → Unfinished m d (x :: xs)
  | ret {kw : Lexeme} {xs : List Lexeme} {e : Expr} :
      kw.token = .kwReturn → DerivesExpr m .expr xs [e] → e.nesting + 1 ≤ d → Unfinished m d (kw :: xs)

/-- **A statement with its last literal replaced**, up to the semicolon. -/
theorem unfinished_of_stmt {semi : Lexeme} {t : Stmt} {d : Nat}
    (h : DerivesStmt m (.item .top) (xs ++ [lit, semi]) [t]) (hkind : t.kind ∈ [.varDecl, .exprStmt, .returnStmt])
    (hlit : lit.token.isLiteral = true) (hbad : bad.token = .invalid) (hd : t.nesting ≤ d) :
    Unfinished m.spoiled d (xs ++ [bad]) := by
  have hfront : ∀ {ys : List Lexeme} {semi' : Lexeme}, ys ++ [semi'] = xs ++ [lit, semi] → ys = xs ++ [lit] := by
    intro ys semi' heq
    have heq' : ys ++ [semi'] = (xs ++ [lit]) ++ [semi] := by simpa using heq
    exact (List.append_inj' heq' rfl).1
  -- of the kinds of statements that are left, each ends with an expression and a semicolon
  generalize htokens : xs ++ [lit, semi] = all at h
  cases h with
  | method => simp [Stmt.kind] at hkind
  | classDecl => simp [Stmt.kind] at hkind
  | openClass => simp [Stmt.kind] at hkind
  | stmt h =>
    cases h with
    | varDecl hdecl _ =>
      have hys := hfront htokens.symm
      cases hdecl with
      | bare _ hi => simp [not_literal_of_concat hys (by rw [hi]; rfl)] at hlit
      | init ht hi ha hx =>
        rw [List.append_cons] at hys
        obtain ⟨us, hzs, hbads⟩ := exists_concat_of_cons _ hx.ne_nil hys
        obtain ⟨x', hx', hn⟩ := (hx.spoil hzs hlit hbad).single
        rw [hbads, ← List.append_cons]
        exact .decl ht hi ha hx' (by rw [hn]; exact hd)
    | @expr x _ zs e he hbrace _ =>
      have hys : x :: zs = xs ++ [lit] := hfront htokens.symm
      obtain ⟨e', he', hn⟩ := (he.spoil hys hlit hbad).single
      have hdepth : e'.nesting + 1 ≤ d := by
        rw [hn]
        exact hd
      -- the malformed token may be the first one, and it is no brace either
      cases xs with
      | nil => exact .expr he' (by simp [hbad]) hdepth
      | cons y ys =>
        obtain rfl : x = y := (List.cons.inj hys).1
        exact .expr he' hbrace hdepth
    | @ret kw _ zs x hk hx _ =>
      have hys : kw :: zs = xs ++ [lit] := hfront htokens.symm
      cases hx with
      | none =>
        have hkw : [] ++ [kw] = xs ++ [lit] := hys
        simp [not_literal_of_concat hkw (by rw [hk]; rfl)] at hlit
      | some hx =>
        obtain ⟨us, hzs, hbads⟩ := exists_concat_of_cons [] hx.ne_nil hys
        obtain ⟨x', hx', hn⟩ := (hx.spoil hzs hlit hbad).single
        rw [hbads]
        exact .ret hk hx' (by rw [hn]; exact hd)
    | braced h =>
      obtain ⟨b, hb⟩ := h.eq_block
      cases hb
      simp [Stmt.kind] at hkind
    | ifStmt h =>
      obtain ⟨c, b, as, hif⟩ := h.eq_ifElse
      cases hif
      simp [Stmt.kind] at hkind
    | method hp => exact absurd rfl hp
    | _ => simp [Stmt.kind] at hkind

end SmallJava.Grammar
