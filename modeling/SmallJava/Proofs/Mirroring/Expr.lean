import SmallJava.Proofs.Mirroring.Logic

/-!
# Names and expressions side by side

The parsers for names, types and expressions go the same way in both of two parses (`Mirror`), and what they give is
the same tree at other places.
-/

namespace SmallJava.Mirror

open SmallJava.Parser

variable {M : Mirror}

/-! ## Names and types -/

theorem follows_ident : M.Follows ident ident (M.Moved Ident.relocate) := by
  refine .bind (follows_want _) ?_
  rintro x _ ⟨-, rfl⟩
  exact .pure rfl

/-- A step that looks two tokens ahead. -/
theorem follows_pair {α : Type} {R : α → α → Prop} {c : Lexeme → Lexeme → Prop} [∀ x y, Decidable (c x y)]
    (hc : ∀ x y, c (x.relocate M.move) (y.relocate M.move) ↔ c x y) {p p' q q' : Parser α} (hp : M.Follows p p' R)
    (hq : M.Follows q q' R) :
    M.Follows
      (get >>= fun s => match s.rest with | x :: y :: _ => if c x y then p else q | _ => q)
      (get >>= fun s => match s.rest with | x :: y :: _ => if c x y then p' else q' | _ => q') R := by
  refine .get_bind fun s s' hs => ?_
  rw [hs.rest]
  rcases s.rest with - | ⟨x, - | ⟨y, r⟩⟩
  · exact hq
  · exact hq
  · simp only [List.map_cons, hc]
    exact .ite (fun _ => hp) fun _ => hq

/-- A dot and a name are taken in both parses, or in neither. -/
theorem follows_dottedStep {t t' : TypeName} (ht : M.Moved TypeName.relocate t t') :
    M.Follows (dottedStep t) (dottedStep t') (SameStep (M.Moved TypeName.relocate)) := by
  subst ht
  refine follows_pair (fun _ _ => Iff.rfl) ?_ (.pure (.done rfl))
  refine .bind follows_next fun _ _ _ => .bind follows_next ?_
  rintro x _ ⟨-, rfl⟩
  exact .pure (.yield rfl)

/-- Both parses read a name with as many dots. -/
theorem follows_qualifiedName : M.Follows qualifiedName qualifiedName (M.Moved TypeName.relocate) := by
  refine .bind (follows_want _) ?_
  rintro x _ ⟨-, rfl⟩
  exact .loop rfl fun _ _ => follows_dottedStep

/-- Both parses take a pair of brackets, and both extend the type by it or leave its location. -/
theorem follows_bracketsStep (extend : Bool) {t t' : TypeName} (ht : M.Moved TypeName.relocate t t') :
    M.Follows (bracketsStep extend t) (bracketsStep extend t') (SameStep (M.Moved TypeName.relocate)) := by
  subst ht
  refine follows_pair (fun _ _ => Iff.rfl) ?_ (.pure (.done rfl))
  refine .bind follows_next fun _ _ _ => .bind follows_next ?_
  rintro x _ ⟨-, rfl⟩
  refine .pure (.yield ?_)
  cases extend with
  | true => rfl
  | false => rfl

theorem follows_dimensions {t t' : TypeName} (ht : M.Moved TypeName.relocate t t') (extend : Bool) :
    M.Follows (dimensions t extend) (dimensions t' extend) (M.Moved TypeName.relocate) :=
  .loop ht fun _ _ => follows_bracketsStep extend

/-- A type has the same dimensions in both parses. -/
theorem follows_typeName : M.Follows typeName typeName (M.Moved TypeName.relocate) :=
  .bind follows_qualifiedName fun _ _ ht => follows_dimensions ht true

/-- Looking ahead sees the kinds of tokens, and these are the same. -/
theorem follows_atVarDecl : M.Follows atVarDecl atVarDecl Eq := by
  refine .get_bind fun s s' hs => .pure ?_
  rw [hs.rest, startsVarDecl_relocate]

theorem follows_atMethodDecl : M.Follows atMethodDecl atMethodDecl Eq := by
  refine .get_bind fun s s' hs => .pure ?_
  rw [hs.rest, startsMethodDecl_relocate]

/-! ## Operators -/

/-- A parser for expressions that goes the same way in both parses. -/
def FollowsExpr (M : Mirror) (p : Parser Expr) : Prop := M.Follows p p (M.Moved Expr.relocate)

/-- Both parses take an operator of the precedence, or both are done with the level. -/
theorem follows_binaryStep {operand : Parser Expr} (ho : M.FollowsExpr operand) (precedence : Nat) {x x' : Expr}
    (hx : M.Moved Expr.relocate x x') :
    M.Follows (binaryStep precedence operand x) (binaryStep precedence operand x')
      (SameStep (M.Moved Expr.relocate)) := by
  subst hx
  refine .bind follows_current ?_
  rintro op _ ⟨-, rfl⟩
  refine .ite (fun _ => .bind follows_next fun _ _ _ => .bind ho ?_) fun _ => .pure (.done rfl)
  rintro y _ rfl
  refine .pure (.yield ?_)
  simp [Moved, Expr.relocate, Location.relocate_through]

/-- The levels of operators go the same way, one over the other. -/
theorem follows_binary {operand : Parser Expr} (ho : M.FollowsExpr operand) : M.FollowsExpr (binary operand) := by
  suffices h : ∀ levels, M.FollowsExpr (binaryLevels operand levels) from h 6
  intro levels
  induction levels with
  | zero => exact ho
  | succ n ih => exact .bind ih fun _ _ hx => .loop hx fun _ _ => follows_binaryStep ih _

/-- The parsers of the level below go the same way in both parses. -/
def InnerFollows (M : Mirror) (inner : Option Inner) : Prop :=
  ∀ i, inner = some i → M.FollowsExpr i.expr ∧ M.FollowsExpr i.unary

variable {inner : Option Inner} {expr : Parser Expr}

/-- What is assigned to is reported in both parses, with the same description. -/
theorem follows_exprWith (hi : M.InnerFollows inner) : M.FollowsExpr (exprWith inner) := by
  refine follows_nested fun i hsome => .bind (follows_binary (hi i hsome).2) ?_
  rintro x _ rfl
  refine .bind follows_token ?_
  rintro t _ rfl
  refine .ite (fun _ => .bind follows_next ?_) fun _ => .pure rfl
  rintro op _ ⟨-, rfl⟩
  have hvalue : M.Follows
      (i.expr >>= fun v => pure (Expr.assign (x.location.through v.location) op.token x v))
      (i.expr >>= fun v => pure (Expr.assign ((x.relocate M.move).location.through v.location)
        (op.relocate M.move).token (x.relocate M.move) v)) (M.Moved Expr.relocate) := by
    refine .bind (hi i hsome).1 ?_
    rintro v _ rfl
    refine .pure ?_
    simp [Moved, Expr.relocate, Location.relocate_through]
  simp only [Expr.isAssignable_relocate, Expr.describe_relocate]
  exact .ite (fun _ => .bind (follows_report rfl (Expr.location_relocate x)) fun _ _ _ => hvalue) fun _ => hvalue

/-! ## Operands -/

/-- The arguments are moved one by one, and the closing parentheses are the same token. -/
theorem follows_arguments (he : M.FollowsExpr expr) :
    M.Follows (arguments expr) (arguments expr) fun r r' =>
      M.MovedAll Expr.relocate r.1 r'.1 ∧ M.Same r.2 r'.2 :=
  .bind (follows_want _) fun _ _ _ => .bind (follows_separatedUntil he _) fun _ _ hargs =>
    .bind (follows_want _) fun _ _ hclosed => .pure ⟨hargs, hclosed⟩

/-- The elements of an array literal, with or without a comma behind the last one. -/
theorem follows_arrayLit (hi : M.InnerFollows inner) :
    M.Follows (arrayLit inner) (arrayLit inner) (M.Moved ArrayLit.relocate) := by
  refine follows_nested fun i hsome => .bind (follows_want _) ?_
  rintro opened _ ⟨-, rfl⟩
  have hstep : ∀ elems elems', M.MovedAll Expr.relocate elems elems' →
      M.Follows (elementStep i.expr elems) (elementStep i.expr elems') (SameStep (M.MovedAll Expr.relocate)) := by
    intro elems elems' helems
    refine .bind follows_token ?_
    rintro t _ rfl
    exact .ite (fun _ => .pure (.done helems)) fun _ => follows_itemStep (hi i hsome).1 helems
  refine .bind (.loop .nil hstep) fun elems elems' helems => .bind (follows_want _) ?_
  rintro closed _ ⟨-, rfl⟩
  refine .pure ?_
  rw [Moved, ArrayLit.relocate_mk, helems]
  rfl

/-- The token behind the name settles in both parses what is allocated. -/
theorem follows_allocation (hi : M.InnerFollows inner) (he : M.FollowsExpr expr) :
    M.FollowsExpr (allocation inner expr) := by
  refine .bind (follows_want _) fun kw kw' hkw => .bind follows_qualifiedName fun type type' htype =>
    .bind follows_token ?_
  rintro t _ rfl
  split
  · -- an object
    refine .bind (follows_arguments he) ?_
    rintro ⟨args, _⟩ ⟨_, _⟩ ⟨rfl, -⟩
    refine .bind (follows_spanFrom hkw.start) fun loc loc' hloc => .pure ?_
    rw [Moved, Expr.relocate_new, hloc, htype]
    rfl
  · refine .get_bind fun s s' hs => ?_
    have hahead : s'.rest.tail.head?.any (·.token = .rSquare) = s.rest.tail.head?.any (·.token = .rSquare) := by
      rw [hs.rest]
      rcases s.rest with - | ⟨x, - | ⟨y, r⟩⟩ <;> rfl
    rw [hahead]
    refine .ite (fun _ => ?_) fun _ => ?_
    · -- an array with its elements
      refine .bind (follows_dimensions htype true) fun type type' htype => .bind (follows_arrayLit hi)
        fun elems elems' helems => .bind (follows_spanFrom hkw.start) fun loc loc' hloc => .pure ?_
      rw [Moved, Expr.relocate_new, hloc, htype, helems]
      rfl
    · -- an array of a given length
      refine .bind follows_next fun _ _ _ => .bind he fun len len' hlen => .bind (follows_want _) fun _ _ _ =>
        .bind (follows_dimensions htype false) fun type type' htype =>
        .bind (follows_spanFrom hkw.start) fun loc loc' hloc => .pure ?_
      rw [Moved, Expr.relocate_new, hloc, htype, hlen]
      rfl
  · refine .bind follows_current ?_
    rintro x _ ⟨-, rfl⟩
    exact follows_fail rfl

/-- The current token settles in both parses which operand follows. -/
theorem follows_primary (hi : M.InnerFollows inner) (he : M.FollowsExpr expr) :
    M.FollowsExpr (primary inner expr) := by
  refine .bind follows_current ?_
  rintro x _ ⟨-, rfl⟩
  rw [Lexeme.token_relocate]
  split
  case h_7 =>
    refine .bind follows_ident ?_
    rintro i _ rfl
    exact .pure rfl
  case h_8 =>
    refine follows_nested fun i hsome => .bind follows_next ?_
    rintro opened _ ⟨-, rfl⟩
    refine .bind (hi i hsome).1 ?_
    rintro y _ rfl
    refine .bind (follows_want _) ?_
    rintro closed _ ⟨-, rfl⟩
    exact .pure rfl
  case h_9 =>
    refine .bind (follows_arrayLit hi) ?_
    rintro a _ rfl
    exact .pure rfl
  case h_10 => exact follows_allocation hi he
  case h_12 => exact follows_fail rfl
  -- what is left is the literals and malformed tokens
  all_goals exact .bind follows_next fun _ _ _ => .pure rfl

/-- The same suffix is applied to the same operand. -/
theorem follows_suffixStep (he : M.FollowsExpr expr) {x x' : Expr} (hx : M.Moved Expr.relocate x x') :
    M.Follows (suffixStep expr x) (suffixStep expr x') (SameStep (M.Moved Expr.relocate)) := by
  subst hx
  refine .bind follows_token ?_
  rintro t _ rfl
  have hstepped : M.Follows
      (next >>= fun op => pure (.done (Expr.unary (x.location.through op.location) op.token x .after)))
      (next >>= fun op => pure (.done (Expr.unary ((x.relocate M.move).location.through op.location) op.token
        (x.relocate M.move) .after))) (SameStep (M.Moved Expr.relocate)) := by
    refine .bind follows_next ?_
    rintro op _ ⟨-, rfl⟩
    refine .pure (.done ?_)
    simp [Moved, Expr.relocate, Location.relocate_through]
  split
  · refine .bind follows_next fun _ _ _ => .bind he ?_
    rintro i _ rfl
    refine .bind (follows_want _) ?_
    rintro closed _ ⟨-, rfl⟩
    refine .pure (.yield ?_)
    simp [Moved, Expr.relocate, Location.relocate_through]
  · refine .bind (follows_arguments he) ?_
    rintro ⟨args, closed⟩ ⟨_, _⟩ ⟨rfl, -, rfl⟩
    refine .pure (.yield ?_)
    simp [Moved, Expr.relocate_call, Location.relocate_through]
  · refine .bind follows_next fun _ _ _ => .bind follows_ident ?_
    rintro sel _ rfl
    refine .pure (.yield ?_)
    simp [Moved, Expr.relocate, Location.relocate_through, Ident.relocate]
  · exact hstepped
  · exact hstepped
  · exact .pure (.done rfl)

/-- A prefix operator is one in both parses. -/
theorem follows_unaryWith (hi : M.InnerFollows inner) : M.FollowsExpr (unaryWith inner) := by
  refine .bind follows_token ?_
  rintro t _ rfl
  refine .ite (fun _ => follows_nested fun i hsome => .bind follows_next ?_) fun _ => ?_
  · rintro op _ ⟨-, rfl⟩
    refine .bind (hi i hsome).2 ?_
    rintro x _ rfl
    refine .pure ?_
    simp [Moved, Expr.relocate, Location.relocate_through]
  · have he := follows_exprWith hi
    exact .bind (follows_primary hi he) fun _ _ hx => .loop hx fun _ _ => follows_suffixStep he

/-! ## All levels -/

/-- **Expressions and operands of every level** are read in the same way. -/
theorem follows_levels (M : Mirror) (d : Nat) : M.FollowsExpr (Parser.expr d) ∧ M.FollowsExpr (unary d) := by
  induction d with
  | zero =>
    have hi : M.InnerFollows none := fun i h => nomatch h
    rw [Parser.expr, unary]
    exact ⟨follows_exprWith hi, follows_unaryWith hi⟩
  | succ d ih =>
    have hi : M.InnerFollows (some { expr := Parser.expr d, unary := unary d }) := by
      rintro i ⟨⟩
      exact ih
    rw [Parser.expr, unary]
    exact ⟨follows_exprWith hi, follows_unaryWith hi⟩

/-- **Expressions go the same way** in both parses. -/
theorem follows_expr (M : Mirror) (d : Nat) : M.FollowsExpr (Parser.expr d) := (follows_levels M d).1

end SmallJava.Mirror
