import SmallJava.Proofs.Accounting.Logic
import SmallJava.Proofs.Reading.Expr

/-!
# Accounting for problems with expressions

Every parser of expressions accounts for the marks of the expression that it gives (`counts_levels`). The one problem of
a node among them is an assignment to something that cannot be assigned to, which is reported where that stands.
-/

namespace SmallJava.Row

open SmallJava.Parser

variable {R : Row} {s₀ s : State} {K : Set Mark}

/-! ## Names and types -/

theorem tells_ident (h : R.Account K s₀ s) : R.Tells s₀ ident s fun _ => K :=
  (tells_want h (by decide)).bind fun _ _ ht => .pure ht rfl

/-- The name of a type has no nodes to account for. -/
theorem tells_dottedStep (t : TypeName) (h : R.Account K s₀ s) : R.Tells s₀ (dottedStep t) s fun _ => K := by
  unfold dottedStep
  rw [tells_get_bind]
  split
  · next hrest => exact tells_pair h hrest
  · exact .pure h rfl

theorem tells_qualifiedName (h : R.Account K s₀ s) : R.Tells s₀ qualifiedName s fun _ => K :=
  (tells_want h (by decide)).bind fun _ _ ht => tells_loop ht fun t _ => tells_dottedStep t

theorem tells_bracketsStep (extend : Bool) (t : TypeName) (h : R.Account K s₀ s) :
    R.Tells s₀ (bracketsStep extend t) s fun _ => K := by
  unfold bracketsStep
  rw [tells_get_bind]
  split
  · next hrest => exact tells_pair h hrest
  · exact .pure h rfl

theorem tells_dimensions (t : TypeName) (extend : Bool) (h : R.Account K s₀ s) :
    R.Tells s₀ (dimensions t extend) s fun _ => K :=
  tells_loop h fun t _ => tells_bracketsStep extend t

theorem tells_typeName (h : R.Account K s₀ s) : R.Tells s₀ typeName s fun _ => K :=
  (tells_qualifiedName h).bind fun t _ ht => tells_dimensions t true ht

/-! ## Operators -/

/-- The marks of the right operand go to those of the left one. -/
theorem tells_binaryStep {operand : Parser Expr} (ho : R.CountsExpr operand) (p : Nat) (x : Expr)
    (h : R.Account (K ∪ Node.marksOf [.expr x]) s₀ s) :
    R.Tells s₀ (binaryStep p operand x) s fun r => K ∪ Node.marksOf [.expr r.value] := by
  unfold binaryStep
  rw [tells_current_bind]
  split
  · next hop =>
    have hne : (s.current R.setup).token ≠ .eof := by
      intro heof
      simp [heof, Token.precedence?] at hop
    refine tells_next_bind h hne fun s₁ h₁ => (ho _ _ _ h₁).bind fun y s₂ h₂ => .pure h₂ ?_
    simp [Node.marks_eq (.expr (.binary ..)), Node.children, Expr.children, Set.union_assoc]
  · exact .pure h rfl

/-- All levels account for the operands below them. -/
theorem counts_binary {operand : Parser Expr} (ho : R.CountsExpr operand) : R.CountsExpr (binary operand) := by
  suffices h : ∀ levels, R.CountsExpr (binaryLevels operand levels) from h 6
  intro levels
  induction levels with
  | zero => exact ho
  | succ n ih =>
    intro K s₀ s h
    refine (ih _ _ _ h).bind fun x s₁ h₁ => ?_
    exact tells_loop (I := fun x => K ∪ Node.marksOf [.expr x]) h₁ fun y _ => tells_binaryStep ih _ y

/-- The parsers of the level below account for what they give. -/
def InnerCounts (R : Row) (inner : Option Inner) : Prop :=
  ∀ i, inner = some i → R.CountsExpr i.expr ∧ R.CountsExpr i.unary

section Operands

variable {inner : Option Inner} {expr : Parser Expr}

/-- **An improper target is reported where it stands**, and the assignment is marked there. -/
theorem counts_exprWith {d : Nat} (hreads : InnerReads R.setup R.all inner d) (hi : R.InnerCounts inner) :
    R.CountsExpr (exprWith inner) := by
  intro K s₀ s h
  refine tells_nested h fun i hsome => ?_
  obtain ⟨hexpr, hunary⟩ := hi i hsome
  obtain ⟨d', -, -, hreadsUnary⟩ := hreads i hsome
  refine (counts_binary hunary _ _ _ h).bind_run fun x s₁ hbinary h₁ => ?_
  rw [tells_token_bind]
  split
  · next hop =>
    have hne : (s₁.current R.setup).token ≠ .eof := by
      intro heof
      simp [heof, Token.isAssign] at hop
    refine tells_next_cons h₁ (rest_eq_of_token R.suits hne) fun s₂ hrest₂ h₂ => ?_
    split
    · next himproper =>
      -- the target is what was taken first
      obtain ⟨vs, _, hsince, -⟩ := h.since
      obtain ⟨xs, htakes, hderived⟩ := (reads_binary R.suits hreadsUnary s h.place).ok hbinary
      obtain ⟨hx, -⟩ := hderived .lenient Grammar.Mode.admits_lenient
      have htaken : s₀.rest = vs ++ xs ++ [s₁.current R.setup] ++ s₂.rest := by
        rw [hsince.rest, htakes.rest, rest_eq_of_token R.suits hne, hrest₂]
        simp
      have hrun : RunOf (vs ++ xs ++ [s₁.current R.setup]) x.location :=
        ⟨xs, ⟨vs, _, rfl⟩, hx.ne_nil, hx.location rfl x (by simp)⟩
      refine tells_report_bind (h₂.report_fault rfl rfl htaken hrun) fun s₃ h₃ => ?_
      refine (hexpr _ _ _ h₃).bind fun v s₄ h₄ => .pure h₄ ?_
      have hassign : (Node.expr (.assign (x.location.through v.location) (s₁.current R.setup).token x v)).ownMarks
          = {.fault .invalidAssignmentTarget x.location} := if_pos himproper
      rw [Node.marksOf_cons, Node.marks_eq, hassign]
      simp [Node.children, Expr.children, Problem.code, Set.insert_union, Set.union_assoc]
    · next hproper =>
      refine (hexpr _ _ _ h₂).bind fun v s₃ h₃ => .pure h₃ ?_
      have hassign : (Node.expr (.assign (x.location.through v.location) (s₁.current R.setup).token x v)).ownMarks = ∅ :=
        if_neg hproper
      rw [Node.marksOf_cons, Node.marks_eq, hassign]
      simp [Node.children, Expr.children, Set.union_assoc]
  · exact .pure h₁ rfl

/-- Arguments account for each of them. -/
theorem counts_arguments (he : R.CountsExpr expr) : R.Counts (arguments expr) fun r => r.1.map .expr := by
  intro K s₀ s h
  refine (tells_want h (by decide)).bind fun _ s₁ h₁ => ?_
  refine (counts_separatedUntil he _ _ _ _ h₁).bind fun args s₂ h₂ => ?_
  refine (tells_want h₂ (by decide)).bind fun closed s₃ h₃ => .pure h₃ ?_
  simp only [List.map_eq_flatMap]

/-- An array literal accounts for its elements. -/
theorem counts_arrayLit (hi : R.InnerCounts inner) : R.Counts (arrayLit inner) fun elems => [elems.node] := by
  intro K s₀ s h
  refine tells_nested h fun i hsome => (tells_want h (by decide)).bind fun _ s₁ h₁ => ?_
  have helems : R.Tells s₀ (loop [] (elementStep i.expr)) s₁ fun elems =>
      K ∪ Node.marksOf (elems.flatMap fun x => [.expr x]) := by
    refine tells_loop h₁.none fun elems t ht => ?_
    unfold elementStep
    rw [tells_token_bind]
    split
    · exact .pure ht rfl
    · exact tells_itemStep (hi i hsome).1 elems ht
  refine helems.bind fun elems s₂ h₂ => (tells_want h₂ (by decide)).bind fun closed s₃ h₃ => .pure h₃ ?_
  rw [← List.map_eq_flatMap]
  simp [ArrayLit.node, Node.marks_eq (.expr (.array (.mk ..))), Node.children, Expr.children]

/-- An allocation accounts for its arguments, its length or its elements. -/
theorem counts_allocation (hi : R.InnerCounts inner) (he : R.CountsExpr expr) :
    R.CountsExpr (allocation inner expr) := by
  intro K s₀ s h
  refine (tells_want h (by decide)).bind fun kw s₁ h₁ => (tells_qualifiedName h₁).bind fun type s₂ h₂ => ?_
  rw [tells_token_bind]
  split
  · refine (counts_arguments he _ _ _ h₂).bind fun args s₃ h₃ => ?_
    rw [tells_spanFrom_bind]
    refine .pure h₃ ?_
    simp [Node.marks_eq (.expr (.new ..)), Node.children, Expr.children]
  · next hopen =>
    rw [tells_get_bind]
    split
    · refine (tells_dimensions type true h₂).bind fun type s₃ h₃ => ?_
      refine (counts_arrayLit hi _ _ _ h₃).bind fun elems s₄ h₄ => ?_
      rw [tells_spanFrom_bind]
      refine .pure h₄ ?_
      simp [Node.marks_eq (.expr (.new ..)), Node.children, Expr.children]
    · refine tells_next_bind h₂ (by rw [hopen]; decide) fun s₃ h₃ => (he _ _ _ h₃).bind fun len s₄ h₄ => ?_
      refine (tells_want h₄ (by decide)).bind fun _ s₅ h₅ => (tells_dimensions type false h₅).bind fun type s₆ h₆ => ?_
      rw [tells_spanFrom_bind]
      refine .pure h₆ ?_
      simp [Node.marks_eq (.expr (.new ..)), Node.children, Expr.children]
  · rw [tells_current_bind]
    exact tells_fail h₂ rfl

/-- A malformed operand is marked as bad, and the scanner has reported it. -/
theorem counts_primary (hi : R.InnerCounts inner) (he : R.CountsExpr expr) : R.CountsExpr (primary inner expr) := by
  intro K s₀ s h
  unfold primary
  rw [tells_current_bind]
  split
  case h_7 => exact (tells_ident h).bind fun name s₁ h₁ => .pure h₁ (by simp)
  case h_8 hopen =>
    refine tells_nested h fun i hsome => tells_next_bind h (by rw [hopen]; decide) fun s₁ h₁ => ?_
    refine ((hi i hsome).1 _ _ _ h₁).bind fun x s₂ h₂ => (tells_want h₂ (by decide)).bind fun closed s₃ h₃ => ?_
    refine .pure h₃ ?_
    simp [Node.marks_eq (.expr (.paren ..)), Node.children, Expr.children]
  case h_9 => exact (counts_arrayLit hi _ _ _ h).bind fun elems s₁ h₁ => .pure h₁ (by simp [ArrayLit.node])
  case h_10 => exact counts_allocation hi he _ _ _ h
  case h_11 hinvalid =>
    -- the scanner has reported the token, and the bad node stands for it
    refine tells_next_bind h (by rw [hinvalid]; decide) fun s₁ h₁ => ?_
    exact .pure (h₁.bad (s.current R.setup).location) (by simp)
  case h_12 => exact tells_fail h rfl
  all_goals
    next hliteral =>
    refine tells_next_bind h (by rw [hliteral]; decide) fun s₁ h₁ => .pure h₁ ?_
    simp [Node.marks_eq (.expr (.literal _)), Node.children, Expr.children]

/-- The marks of what is applied go to those of the operand. -/
theorem tells_suffixStep (he : R.CountsExpr expr) (x : Expr) (h : R.Account (K ∪ Node.marksOf [.expr x]) s₀ s) :
    R.Tells s₀ (suffixStep expr x) s fun r => K ∪ Node.marksOf [.expr r.value] := by
  unfold suffixStep
  rw [tells_token_bind]
  split
  · next hopen =>
    refine tells_next_bind h (by rw [hopen]; decide) fun s₁ h₁ => (he _ _ _ h₁).bind fun i s₂ h₂ => ?_
    refine (tells_want h₂ (by decide)).bind fun closed s₃ h₃ => .pure h₃ ?_
    simp [Node.marks_eq (.expr (.index ..)), Node.children, Expr.children, Set.union_assoc]
  · refine (counts_arguments he _ _ _ h).bind fun args s₁ h₁ => .pure h₁ ?_
    simp [Node.marks_eq (.expr (.call ..)), Node.children, Expr.children, Set.union_assoc]
  · next hdot =>
    refine tells_next_bind h (by rw [hdot]; decide) fun s₁ h₁ => (tells_ident h₁).bind fun sel s₂ h₂ => .pure h₂ ?_
    simp [Node.marks_eq (.expr (.select ..)), Node.children, Expr.children, Ident.node]
  case h_6 => exact .pure h rfl
  all_goals
    next hop =>
    refine tells_next_bind h (by rw [hop]; decide) fun s₁ h₁ => .pure h₁ ?_
    simp [Node.marks_eq (.expr (.unary ..)), Node.children, Expr.children]

/-- A prefix operator accounts for its operand. -/
theorem counts_unaryWith {d : Nat} (hreads : InnerReads R.setup R.all inner d) (hi : R.InnerCounts inner) :
    R.CountsExpr (unaryWith inner) := by
  intro K s₀ s h
  unfold unaryWith
  rw [tells_token_bind]
  split
  · next hop =>
    have hne : (s.current R.setup).token ≠ .eof := by
      intro heof
      simp [heof, isPrefixOperator] at hop
    refine tells_nested h fun i hsome => tells_next_bind h hne fun s₁ h₁ => ?_
    refine ((hi i hsome).2 _ _ _ h₁).bind fun x s₂ h₂ => .pure h₂ ?_
    simp [Node.marks_eq (.expr (.unary ..)), Node.children, Expr.children]
  · have he := counts_exprWith hreads hi
    refine (counts_primary hi he _ _ _ h).bind fun x s₁ h₁ => ?_
    exact tells_loop (I := fun x => K ∪ Node.marksOf [.expr x]) h₁ fun y _ => tells_suffixStep he y

end Operands

/-- **All expressions are accounted for.** -/
theorem counts_levels (R : Row) (d : Nat) : R.CountsExpr (expr d) ∧ R.CountsExpr (unary d) := by
  induction d with
  | zero =>
    have hreads : InnerReads R.setup R.all none 0 := fun i h => nomatch h
    have hi : R.InnerCounts none := fun i h => nomatch h
    rw [expr, unary]
    exact ⟨counts_exprWith hreads hi, counts_unaryWith hreads hi⟩
  | succ d ih =>
    have hreads : InnerReads R.setup R.all (some { expr := expr d, unary := unary d }) (d + 1) := by
      rintro i ⟨⟩
      obtain ⟨hexpr, hunary⟩ := reads_levels R.suits d
      exact ⟨d, rfl, hexpr, hunary⟩
    have hi : R.InnerCounts (some { expr := expr d, unary := unary d }) := by
      rintro i ⟨⟩
      exact ih
    rw [expr, unary]
    exact ⟨counts_exprWith hreads hi, counts_unaryWith hreads hi⟩

end SmallJava.Row
