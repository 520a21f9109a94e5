import SmallJava.Proofs.Grammar.Extent
import SmallJava.Proofs.Tree.Relocated

/-!
# Derivations elsewhere

The grammar looks at tokens, not at where they stand: moved tokens have the moved trees.
-/

namespace SmallJava

open Grammar

variable {r : Relocation} {m : Mode} {xs : List Lexeme}

/-- The extent of moved tokens. -/
theorem relocate_extent (h : xs ≠ []) : (extent xs).relocate r = extent (xs.map (Lexeme.relocate r)) := by
  cases xs with
  | nil => exact absurd rfl h
  | cons x xs =>
    have hlast : ((xs.map (Lexeme.relocate r)).getLastD (x.relocate r)) = (xs.getLastD x).relocate r := by
      rw [List.getLastD_eq_getLast?, List.getLastD_eq_getLast?, List.getLast?_map]
      cases xs.getLast? <;> rfl
    rw [List.map_cons, extent, extent, hlast, Location.relocate_through]
    rfl

theorem Lexeme.ident_relocate (x : Lexeme) : (x.relocate r).ident = x.ident.relocate r := rfl

namespace Grammar

/-- A dotted name at another place. -/
theorem QualName.relocate {t : TypeName} (h : QualName xs t) :
    QualName (xs.map (Lexeme.relocate r)) (t.relocate r) := by
  induction h with
  | @single x hx => exact .single (x := x.relocate r) hx
  | @dotted _ _ d x _ hd hx ih =>
    have hd' : (d.relocate r).token = .dot := hd
    have hx' : (x.relocate r).token = .ident := hx
    simpa [TypeName.relocate, relocate_extent] using ih.dotted hd' hx'

theorem Brackets.relocate {n : Nat} (h : Brackets xs n) : Brackets (xs.map (Lexeme.relocate r)) n := by
  induction h with
  | none => exact .none
  | pair hl hr _ ih => exact .pair hl hr ih

/-- A type at another place. -/
theorem TypeRef.relocate {t : TypeName} (h : TypeRef xs t) : TypeRef (xs.map (Lexeme.relocate r)) (t.relocate r) := by
  cases h with
  | mk hq hb =>
    simpa [TypeName.relocate, relocate_extent, hq.ne_nil] using TypeRef.mk (hq.relocate (r := r)) (hb.relocate (r := r))

/-- **The grammar is the same everywhere.** -/
theorem DerivesExpr.relocate {sym : ExprSymbol} {ts : List Expr} (h : DerivesExpr m sym xs ts) :
    DerivesExpr m sym (xs.map (Lexeme.relocate r)) (ts.map (Expr.relocate r)) := by
  induction h with
  | value _ ih => exact .value ih
  | tighter hp _ ih => exact .tighter hp ih
  | term _ ih => exact .term ih
  | unsigned _ ih => exact .unsigned ih
  | start _ ih => exact .start ih
  | arrayOperand _ ih => exact .arrayOperand ih
  | one _ ih => exact .one ih
  | @assign _ _ op _ _ _ hop ha _ ihx ihv =>
    have hop' : (op.relocate r).token.isAssign = true := hop
    simpa [Expr.relocate, relocate_extent] using ihx.assign hop' (by simpa using ha) ihv
  | @joined _ _ _ op _ _ _ hop _ ihx ihy =>
    have hop' : (op.relocate r).token.precedence? = _ := hop
    simpa [Expr.relocate, relocate_extent] using ihx.joined hop' ihy
  | @signed op _ _ hop _ ih =>
    have hop' : Parser.isPrefixOperator (op.relocate r).token = true := hop
    simpa [Expr.relocate, relocate_extent] using ih.signed hop'
  | @stepped _ op _ _ hop ih =>
    have hop' : (op.relocate r).token = .inc ∨ (op.relocate r).token = .dec := hop
    simpa [Expr.relocate, relocate_extent] using ih.stepped hop'
  | @index _ _ l c _ _ _ hl _ hr ihx ihi =>
    have hl' : (l.relocate r).token = .lSquare := hl
    have hr' : (c.relocate r).token = .rSquare := hr
    simpa [Expr.relocate, relocate_extent] using ihx.index hl' ihi hr'
  | call hx _ ihx iha => simpa [Expr.relocate, relocate_extent, hx.ne_nil] using ihx.call iha
  | @select _ d i _ _ hd hi ih =>
    have hd' : (d.relocate r).token = .dot := hd
    have hi' : (i.relocate r).token = .ident := hi
    simpa [Expr.relocate, relocate_extent, Lexeme.ident_relocate] using ih.select hd' hi'
  | @literal x hx => exact .literal (x := x.relocate r) hx
  | @ident x hx => exact .ident (x := x.relocate r) hx
  | @paren l c _ _ hl _ hr ih =>
    have hl' : (l.relocate r).token = .lParen := hl
    have hr' : (c.relocate r).token = .rParen := hr
    simpa [Expr.relocate, relocate_extent] using ih.paren hl' hr'
  | @newObject kw _ _ _ _ hk hq _ ih =>
    have hk' : (kw.relocate r).token = .kwNew := hk
    simpa [Expr.relocate, relocate_extent] using ih.newObject hk' hq.relocate
  | @newLength kw l c _ _ _ _ _ _ hk hq hl _ hr hn ih =>
    have hk' : (kw.relocate r).token = .kwNew := hk
    have hl' : (l.relocate r).token = .lSquare := hl
    have hr' : (c.relocate r).token = .rSquare := hr
    simpa [Expr.relocate, relocate_extent, TypeName.relocate] using ih.newLength hk' hq.relocate hl' hr' hn.relocate
  | @newElements kw _ _ _ _ hk ht hpos _ ih =>
    have hk' : (kw.relocate r).token = .kwNew := hk
    simpa [Expr.relocate, relocate_extent] using ih.newElements hk' ht.relocate hpos
  | @malformed x he hx => exact .malformed (x := x.relocate r) he hx
  | @more _ _ c _ _ _ hc _ ih ihs =>
    have hc' : (c.relocate r).token = .comma := hc
    simpa using ih.more hc' ihs
  | noArguments hl hr => exact .noArguments hl hr
  | @someArguments l c _ _ hl _ hr ih =>
    have hl' : (l.relocate r).token = .lParen := hl
    have hr' : (c.relocate r).token = .rParen := hr
    simpa using ih.someArguments hl' hr'
  | @noElements l c hl hr =>
    have hl' : (l.relocate r).token = .lBrace := hl
    have hr' : (c.relocate r).token = .rBrace := hr
    simpa [Expr.relocate, ArrayLit.relocate, relocate_extent] using DerivesExpr.noElements (m := m) hl' hr'
  | @elements l c _ _ hl _ hr ih =>
    have hl' : (l.relocate r).token = .lBrace := hl
    have hr' : (c.relocate r).token = .rBrace := hr
    simpa [Expr.relocate, ArrayLit.relocate, relocate_extent] using ih.elements hl' hr'
  | @elementsComma l k c _ _ hl _ hc hr ih =>
    have hl' : (l.relocate r).token = .lBrace := hl
    have hc' : (k.relocate r).token = .comma := hc
    have hr' : (c.relocate r).token = .rBrace := hr
    simpa [Expr.relocate, ArrayLit.relocate, relocate_extent] using ih.elementsComma hl' hc' hr'

end Grammar

end SmallJava
