import Mathlib.Data.List.Chain
import SmallJava.Proofs.Accepting.Expr

/-!
# Telling declarations from expressions

A declaration starts with a type and a name, and no expression does: in an expression a name never stands right
behind another name or a closing bracket. So looking ahead over what may be a type is enough to tell a variable
declaration from an expression, and the token behind its name tells a method from a variable.

* `startsVarDecl_of_typeRef`, `startsMethodDecl_of_typeRef` — declarations are recognized;
* `DerivesExpr.apart`, `DerivesExpr.startsVarDecl_eq` — expressions are not.
-/

namespace SmallJava

open Grammar

/-- Whether the token may stand in the name of a type. -/
def Token.inTypeName : Token → Bool
  | .ident | .dot | .lSquare | .rSquare => true
  | _ => false

theorem Token.ne_of_inTypeName {t u : Token} (h : t.inTypeName = false) (hu : u.inTypeName = true) : t ≠ u := by
  rintro rfl
  simp [hu] at h

/-- If the second token is a name, the first is neither a name nor a closing bracket. -/
def Apart (x y : Lexeme) : Prop := y.token = .ident → x.token ≠ .ident ∧ x.token ≠ .rSquare

namespace Parser

variable {xs zs rest : List Lexeme}

/-! ## Declarations -/

/-- Where no dot follows there is nothing to skip. -/
theorem afterDots_eq_self (h : headToken xs ≠ .dot) : afterDots xs = xs := by
  match xs with
  | [] => rfl
  | [x] => rfl
  | x :: y :: r =>
    have hx : x.token ≠ .dot := h
    rw [afterDots, if_neg fun h => hx h.1]

theorem afterBrackets_eq_self (h : headToken xs ≠ .lSquare) : afterBrackets xs = xs := by
  match xs with
  | [] => rfl
  | [x] => rfl
  | x :: y :: r =>
    have hx : x.token ≠ .lSquare := h
    rw [afterBrackets, if_neg fun h => hx h.1]

/-- Looking ahead skips a dotted name. -/
theorem afterDots_qualName {t : TypeName} (h : QualName xs t) :
    ∃ x zs, xs = x :: zs ∧ x.token = .ident ∧ ∀ rest, afterDots (zs ++ rest) = afterDots rest := by
  induction h with
  | @single x hx => exact ⟨x, [], rfl, hx, fun _ => rfl⟩
  | @dotted _ _ d y _ hd hy ih =>
    obtain ⟨x, zs, rfl, hx, hdots⟩ := ih
    refine ⟨x, zs ++ [d, y], rfl, hx, fun rest => ?_⟩
    rw [List.append_assoc, hdots, List.cons_append, List.cons_append, afterDots, if_pos ⟨hd, hy⟩, List.nil_append]

/-- Looking ahead skips pairs of brackets. -/
theorem afterBrackets_brackets {n : Nat} (h : Brackets xs n) (rest : List Lexeme) :
    afterBrackets (xs ++ rest) = afterBrackets rest := by
  induction h with
  | none => rfl
  | pair hl hr _ ih => rw [List.cons_append, List.cons_append, afterBrackets, if_pos ⟨hl, hr⟩, ih]

/-- What follows a type is found, if it is a name. -/
theorem afterTypeName_typeRef {t : TypeName} (h : TypeRef xs t) (hrest : headToken rest = .ident) :
    afterTypeName? (xs ++ rest) = some rest := by
  cases h with
  | @mk qs bs q n hq hb =>
    obtain ⟨x, zs, rfl, hx, hdots⟩ := afterDots_qualName hq
    have hbs : headToken (bs ++ rest) ≠ .dot := by
      cases hb with
      | none => simp [hrest]
      | pair hl _ _ => simp [hl]
    rw [List.append_assoc, List.cons_append, afterTypeName?, if_pos hx, hdots, afterDots_eq_self hbs,
      afterBrackets_brackets hb, afterBrackets_eq_self (by simp [hrest])]

/-- A type and a name behind it start a declaration. -/
theorem startsVarDecl_of_typeRef {t : TypeName} {i : Lexeme} (h : TypeRef xs t) (hi : i.token = .ident) :
    startsVarDecl (xs ++ i :: rest) = true := by
  rw [startsVarDecl, afterTypeName_typeRef h (by simpa using hi)]
  simpa using hi

/-- It starts a method if a parenthesis follows the name. -/
theorem startsMethodDecl_of_typeRef {t : TypeName} {i : Lexeme} (h : TypeRef xs t) (hi : i.token = .ident) :
    startsMethodDecl (xs ++ i :: rest) = decide (headToken rest = .lParen) := by
  rw [startsMethodDecl, afterTypeName_typeRef h (by simpa using hi)]
  cases rest with
  | nil => rfl
  | cons y rest =>
    show (decide (i.token = .ident) && decide (y.token = .lParen)) = decide (y.token = .lParen)
    rw [hi]
    rfl

/-- A method declaration starts like a variable declaration. -/
theorem startsVarDecl_of_startsMethodDecl (h : startsMethodDecl xs = true) : startsVarDecl xs = true := by
  unfold startsMethodDecl at h
  split at h
  · next x y _ htype =>
    simp only [Bool.and_eq_true, decide_eq_true_eq] at h
    simp [startsVarDecl, htype, h.1]
  · simp at h

theorem startsVarDecl_of_ne_ident (h : headToken xs ≠ .ident) : startsVarDecl xs = false := by
  cases xs with
  | nil => rfl
  | cons x xs =>
    have hx : x.token ≠ .ident := h
    simp [startsVarDecl, afterTypeName?, hx]

/-! ## Expressions -/

/-- Looking over dots from a name ends behind a name, before the token `stop`. -/
theorem afterDots_apart (x : Lexeme) (zs rest : List Lexeme) {stop : Lexeme} (hx : x.token = .ident)
    (hz : (x :: zs).IsChain Apart) (hstop : stop.token.inTypeName = false) :
    ∃ y ys, afterDots (zs ++ stop :: rest) = ys ++ stop :: rest ∧ y.token = .ident ∧ (y :: ys).IsChain Apart := by
  match zs with
  | [] => exact ⟨x, [], afterDots_eq_self (Token.ne_of_inTypeName hstop rfl), hx, .singleton x⟩
  | [y] =>
    refine ⟨x, [y], ?_, hx, hz⟩
    rw [List.cons_append, List.nil_append, afterDots, if_neg fun h => Token.ne_of_inTypeName hstop rfl h.2]
  | y :: y' :: zs =>
    rw [List.cons_append, List.cons_append, afterDots]
    split
    · next h => exact afterDots_apart y' zs rest h.2 hz.tail.tail hstop
    · exact ⟨x, y :: y' :: zs, rfl, hx, hz⟩

/-- Looking over brackets from a name ends behind a name or a bracket, before the token `stop`. -/
theorem afterBrackets_apart (x : Lexeme) (zs rest : List Lexeme) {stop : Lexeme}
    (hx : x.token = .ident ∨ x.token = .rSquare) (hz : (x :: zs).IsChain Apart) (hstop : stop.token.inTypeName = false) :
    ∃ y ys, afterBrackets (zs ++ stop :: rest) = ys ++ stop :: rest ∧
      (y.token = .ident ∨ y.token = .rSquare) ∧ (y :: ys).IsChain Apart := by
  match zs with
  | [] => exact ⟨x, [], afterBrackets_eq_self (Token.ne_of_inTypeName hstop rfl), hx, .singleton x⟩
  | [y] =>
    refine ⟨x, [y], ?_, hx, hz⟩
    rw [List.cons_append, List.nil_append, afterBrackets, if_neg fun h => Token.ne_of_inTypeName hstop rfl h.2]
  | y :: y' :: zs =>
    rw [List.cons_append, List.cons_append, afterBrackets]
    split
    · next h => exact afterBrackets_apart y' zs rest (.inr h.2) hz.tail.tail hstop
    · exact ⟨x, y :: y' :: zs, rfl, hx, hz⟩

/-- Tokens in which names stand apart do not start with a type and a name. -/
theorem startsVarDecl_of_apart {stop : Lexeme} (hx : xs.IsChain Apart) (hstop : stop.token.inTypeName = false) :
    startsVarDecl (xs ++ stop :: rest) = false := by
  cases xs with
  | nil => exact startsVarDecl_of_ne_ident (Token.ne_of_inTypeName hstop rfl)
  | cons x xs =>
    by_cases hident : x.token = .ident
    · obtain ⟨y, ys, hdots, hy, hys⟩ := afterDots_apart x xs rest hident hx hstop
      obtain ⟨z, zs, hbrackets, hz, hzs⟩ := afterBrackets_apart y ys rest (.inl hy) hys hstop
      rw [startsVarDecl, List.cons_append, afterTypeName?, if_pos hident, hdots, hbrackets]
      cases zs with
      | nil => simpa using Token.ne_of_inTypeName hstop rfl
      | cons w ws =>
        have happart : Apart z w := hzs.rel
        have hw : w.token ≠ .ident := by
          intro hw
          obtain ⟨h₁, h₂⟩ := happart hw
          exact hz.elim h₁ h₂
        simp [hw]
    · exact startsVarDecl_of_ne_ident hident

end Parser

namespace Grammar

variable {m : Mode} {xs ys : List Lexeme}

theorem apart_cons {x : Lexeme} (hx : x.token ≠ .ident) (hx' : x.token ≠ .rSquare) (h : ys.IsChain Apart) :
    (x :: ys).IsChain Apart :=
  List.isChain_cons.2 ⟨fun _ _ _ => ⟨hx, hx'⟩, h⟩

/-- Names stay apart where the second part does not start with one. -/
theorem apart_append (hx : xs.IsChain Apart) (hy : ys.IsChain Apart) (h : headToken ys ≠ .ident) :
    (xs ++ ys).IsChain Apart := by
  refine List.isChain_append.2 ⟨hx, hy, fun x _ y hmem htok => ?_⟩
  cases ys with
  | nil => simp at hmem
  | cons z ys =>
    obtain rfl : z = y := by simpa using hmem
    exact absurd htok h

/-- In a dotted name there is a dot between two names. -/
theorem QualName.apart {t : TypeName} (h : QualName xs t) : xs.IsChain Apart := by
  induction h with
  | single => exact .singleton _
  | dotted _ hd _ ih =>
    exact apart_append ih (apart_cons (by simp [hd]) (by simp [hd]) (.singleton _)) (by simp [hd])

theorem Brackets.apart {n : Nat} (h : Brackets xs n) : xs.IsChain Apart ∧ headToken xs ≠ .ident := by
  induction h with
  | none => exact ⟨.nil, by decide⟩
  | @pair l r xs n hl hr _ ih =>
    have hrest : (r :: xs).IsChain Apart := apart_append (.singleton r) ih.1 ih.2
    exact ⟨apart_cons (by simp [hl]) (by simp [hl]) hrest, by simp [hl]⟩

/-- Nothing in a type looks like the end of a type and a name. -/
theorem TypeRef.apart {t : TypeName} (h : TypeRef xs t) : xs.IsChain Apart := by
  cases h with
  | mk hq hb => exact apart_append hq.apart hb.apart.1 hb.apart.2

/-- **Names stand apart in expressions.** -/
theorem DerivesExpr.apart {sym : ExprSymbol} {ts : List Expr} (h : DerivesExpr m sym xs ts) :
    xs.IsChain Apart := by
  -- between two operands there is always a token that is neither a name nor a closing bracket
  induction h with
  | value _ ih | tighter _ _ ih | term _ ih | unsigned _ ih | start _ ih | arrayOperand _ ih | one _ ih => exact ih
  | @assign _ _ op _ _ _ hop _ _ ihx ihv =>
    have htok : op.token ≠ .ident ∧ op.token ≠ .rSquare := by
      constructor <;> intro h <;> simp [h, Token.isAssign] at hop
    exact apart_append ihx (apart_cons htok.1 htok.2 ihv) htok.1
  | @joined _ _ _ op _ _ _ hop _ ihx ihy =>
    have htok : op.token ≠ .ident ∧ op.token ≠ .rSquare := by
      constructor <;> intro h <;> simp [h, Token.precedence?] at hop
    exact apart_append ihx (apart_cons htok.1 htok.2 ihy) htok.1
  | @signed op _ _ hop _ ih =>
    have htok : op.token ≠ .ident ∧ op.token ≠ .rSquare := by
      constructor <;> intro h <;> simp [h, Parser.isPrefixOperator] at hop
    exact apart_cons htok.1 htok.2 ih
  | stepped _ hop ih =>
    exact apart_append ih (.singleton _) (by rcases hop with h | h <;> simp [h])
  | @index _ _ _ r _ _ _ hl _ hr ihx ihi =>
    have hi := apart_append ihi (.singleton r) (by simp [hr])
    exact apart_append ihx (apart_cons (by simp [hl]) (by simp [hl]) hi) (by simp [hl])
  | call _ ha ihx iha => exact apart_append ihx iha (by simp [ha.lParen_of_arguments])
  | select _ hd _ ih =>
    exact apart_append ih (apart_cons (by simp [hd]) (by simp [hd]) (.singleton _)) (by simp [hd])
  | literal _ | ident _ | malformed _ _ => exact .singleton _
  | paren hl _ hr ih =>
    exact apart_cons (by simp [hl]) (by simp [hl]) (apart_append ih (.singleton _) (by simp [hr]))
  | newObject hk hq ha ih =>
    exact apart_cons (by simp [hk]) (by simp [hk])
      (apart_append hq.apart ih (by simp [ha.lParen_of_arguments]))
  | @newLength _ _ r _ _ _ _ _ _ hk hq hl _ hr hn ih =>
    have hrest := apart_append (.singleton r) hn.apart.1 hn.apart.2
    have hlen := apart_append ih hrest (by simp [hr])
    exact apart_cons (by simp [hk]) (by simp [hk])
      (apart_append hq.apart (apart_cons (by simp [hl]) (by simp [hl]) hlen) (by simp [hl]))
  | newElements hk ht _ ha ih =>
    exact apart_cons (by simp [hk]) (by simp [hk]) (apart_append ht.apart ih (by simp [ha.lBrace_of_array]))
  | more _ hc _ ihx ihs => exact apart_append ihx (apart_cons (by simp [hc]) (by simp [hc]) ihs) (by simp [hc])
  | noArguments hl hr => exact apart_cons (by simp [hl]) (by simp [hl]) (.singleton _)
  | someArguments hl _ hr ih =>
    exact apart_cons (by simp [hl]) (by simp [hl]) (apart_append ih (.singleton _) (by simp [hr]))
  | noElements hl hr => exact apart_cons (by simp [hl]) (by simp [hl]) (.singleton _)
  | elements hl _ hr ih =>
    exact apart_cons (by simp [hl]) (by simp [hl]) (apart_append ih (.singleton _) (by simp [hr]))
  | @elementsComma l c r xs ts hl _ hc hr ih =>
    have htail : [c, r].IsChain Apart := apart_cons (by simp [hc]) (by simp [hc]) (.singleton r)
    exact apart_cons (by simp [hl]) (by simp [hl]) (apart_append ih htail (by simp [hc]))

/-- An expression statement is not taken for a declaration. -/
theorem DerivesExpr.startsVarDecl_eq {sym : ExprSymbol} {ts : List Expr} {semi : Lexeme}
    (h : DerivesExpr m sym xs ts) (hsemi : semi.token = .semi) (rest : List Lexeme) :
    Parser.startsVarDecl (xs ++ semi :: rest) = false :=
  Parser.startsVarDecl_of_apart h.apart (by rw [hsemi]; rfl)

end Grammar

end SmallJava
