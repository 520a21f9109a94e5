import SmallJava.Proofs.Grammar.Stmt

/-!
# Extents

A derivation takes at least one token, and the location of its tree is the extent of its tokens. Extents of
neighbouring token lists join up: `extent_append`.
-/

namespace SmallJava

/-! ## Token lists -/

@[simp] theorem extent_singleton (x : Lexeme) : extent [x] = x.location := rfl

/-- From the start of the first tokens to the end of the others. -/
theorem extent_append {xs ys : List Lexeme} (hx : xs ≠ []) (hy : ys ≠ []) :
    extent (xs ++ ys) = (extent xs).through (extent ys) := by
  obtain ⟨x, xs, rfl⟩ := List.exists_cons_of_ne_nil hx
  obtain ⟨y, ys, rfl⟩ := List.exists_cons_of_ne_nil hy
  simp only [extent, List.cons_append, List.getLastD_eq_getLast?, List.getLast?_append, List.getLast?_cons]
  rfl

theorem extent_cons (x : Lexeme) {xs : List Lexeme} (h : xs ≠ []) :
    extent (x :: xs) = x.location.through (extent xs) :=
  extent_append (List.cons_ne_nil x []) h

/-- The extent of a token list ends where its last token does. -/
theorem extent_concat (x y : Lexeme) (xs : List Lexeme) :
    extent (x :: (xs ++ [y])) = x.location.through y.location := by
  simp [extent]

/-- From one token list to another, with tokens between them. -/
theorem through_extent {xs ys : List Lexeme} (hx : xs ≠ []) (zs : List Lexeme) (hy : ys ≠ []) :
    (extent xs).through (extent ys) = extent (xs ++ (zs ++ ys)) := by
  rw [extent_append hx (by simp [hy])]
  cases zs with
  | nil => rfl
  | cons z zs =>
    rw [extent_append (List.cons_ne_nil z zs) hy]
    rfl

/-- Whatever stands in between, the extent ends with the last token. -/
theorem through_location {xs : List Lexeme} (hx : xs ≠ []) (zs : List Lexeme) (y : Lexeme) :
    (extent xs).through y.location = extent (xs ++ (zs ++ [y])) :=
  through_extent hx zs (List.cons_ne_nil y [])

/-- Whatever stands in between, the extent starts with the first token. -/
theorem location_through (x : Lexeme) (zs : List Lexeme) {ys : List Lexeme} (hy : ys ≠ []) :
    x.location.through (extent ys) = extent (x :: (zs ++ ys)) :=
  through_extent (List.cons_ne_nil x []) zs hy

theorem extent_start (x : Lexeme) (xs : List Lexeme) :
    (extent (x :: xs)).span.start = x.location.span.start := rfl

theorem extent_stop (xs : List Lexeme) (y : Lexeme) :
    (extent (xs ++ [y])).span.stop = y.location.span.stop := by
  cases xs with
  | nil => rfl
  | cons x xs => rw [List.cons_append, extent_concat, Location.through_stop]

namespace Grammar

variable {m : Mode}

/-! ## Derivations -/

theorem QualName.ne_nil {xs : List Lexeme} {t : TypeName} (h : QualName xs t) : xs ≠ [] := by
  cases h <;> simp

/-- A dotted name is located at its tokens. -/
theorem QualName.location {xs : List Lexeme} {t : TypeName} (h : QualName xs t) : t.location = extent xs := by
  cases h <;> rfl

theorem QualName.dims {xs : List Lexeme} {t : TypeName} (h : QualName xs t) : t.dims = 0 := by
  cases h <;> rfl

theorem TypeRef.ne_nil {xs : List Lexeme} {t : TypeName} (h : TypeRef xs t) : xs ≠ [] := by
  cases h with
  | mk hq _ => simp [hq.ne_nil]

/-- A type is located at its tokens, brackets included. -/
theorem TypeRef.location {xs : List Lexeme} {t : TypeName} (h : TypeRef xs t) : t.location = extent xs := by
  cases h
  rfl

/-- No expression is derived from nothing. -/
theorem DerivesExpr.ne_nil {sym : ExprSymbol} {xs : List Lexeme} {ts : List Expr}
    (h : DerivesExpr m sym xs ts) : xs ≠ [] := by
  induction h <;> simp_all

/-- The symbols that derive one tree. -/
def ExprSymbol.isSingle : ExprSymbol → Bool
  | .items | .arguments => false
  | _ => true

/-- **The tree of a derivation is located at its tokens.** -/
theorem DerivesExpr.location {sym : ExprSymbol} {xs : List Lexeme} {ts : List Expr}
    (h : DerivesExpr m sym xs ts) (hs : sym.isSingle = true) : ∀ t ∈ ts, t.location = extent xs := by
  induction h <;> simp_all [ExprSymbol.isSingle, Expr.location, ArrayLit.location, Lexeme.ident, Lexeme.literal]

theorem Declares.ne_nil {xs : List Lexeme} {t : TypeName} {i : Ident} {x : Option Expr}
    (h : Declares m xs t i x) : xs ≠ [] := by
  cases h <;> simp

theorem Params.ne_nil {xs : List Lexeme} {ps : List Param} (h : Params xs ps) : xs ≠ [] := by
  cases h <;> simp

/-- Only a list may be empty. -/
theorem DerivesStmt.ne_nil {sym : StmtSymbol} {xs : List Lexeme} {ss : List Stmt}
    (h : DerivesStmt m sym xs ss) (hs : ∀ p, sym ≠ .list p) : xs ≠ [] := by
  induction h <;> simp_all

/-- A block is located at its tokens. -/
theorem DerivesStmt.block_location {xs : List Lexeme} {b : Block}
    (h : DerivesStmt m .block xs [.block b]) : b.location = extent xs := by
  cases h <;> rfl

/-! ## What a symbol is derived to -/

/-- A list of items has one. -/
theorem DerivesExpr.items_ne_nil {xs : List Lexeme} {ts : List Expr} (h : DerivesExpr m .items xs ts) : ts ≠ [] := by
  cases h <;> simp

/-- The symbol for array literals derives one array literal. -/
theorem DerivesExpr.eq_array {xs : List Lexeme} {ts : List Expr} (h : DerivesExpr m .array xs ts) :
    ∃ a, ts = [.array a] := by
  cases h <;> exact ⟨_, rfl⟩

/-- The symbol for blocks derives one block. -/
theorem DerivesStmt.eq_block {xs : List Lexeme} {ss : List Stmt} (h : DerivesStmt m .block xs ss) :
    ∃ b, ss = [.block b] := by
  cases h <;> exact ⟨_, rfl⟩

/-- The symbol for arms derives one conditional without a last block, at its tokens. -/
theorem DerivesStmt.eq_ifElse {xs : List Lexeme} {ss : List Stmt} (h : DerivesStmt m .arms xs ss) :
    ∃ c b as, ss = [.ifElse (extent xs) c b as none] := by
  cases h <;> exact ⟨_, _, _, rfl⟩

/-- The symbol for clauses derives one `try` without a last block, at its tokens. -/
theorem DerivesStmt.eq_tryCatch {xs : List Lexeme} {ss : List Stmt} (h : DerivesStmt m .clauses xs ss) :
    ∃ b cs, ss = [.tryCatch (extent xs) b cs none] := by
  cases h <;> exact ⟨_, _, rfl⟩

end Grammar

end SmallJava
