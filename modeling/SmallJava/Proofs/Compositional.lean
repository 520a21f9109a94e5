import SmallJava.Proofs.Relational

/-!
# What parsers inherit from their parts

All parsers are put together from a few small ones in a few ways. A property that the small parsers have and that is
kept where parsers are put together is one of all parsers (`Compositional.topStmts`). It is a relation of parsers to any
others (`Compositional.relational`), so nothing has to be said about single parsers again.
-/

namespace SmallJava

namespace Parser

/-- **A property that parsers inherit from their parts.** The small parsers have it: those that look at the state, take
the current token, discard tokens, write to the log, report a problem, give up what is nested too deeply, or give up a
statement. -/
structure Compositional (P : ∀ {α : Type}, Parser α → Prop) : Prop where
  pure : ∀ {α : Type} {a : α}, P (Pure.pure a : Parser α)
  throw : ∀ {α : Type} {b : Bailout}, P (MonadExcept.throw b : Parser α)
  bind : ∀ {α β : Type} {p : Parser α} {f : α → Parser β}, P p → (∀ a, P (f a)) → P (p >>= f)
  tryCatch : ∀ {α : Type} {p : Parser α} {handler : Bailout → Parser α}, P p → (∀ b, P (handler b)) →
    P (MonadExcept.tryCatch p handler)
  get : P (MonadState.get : Parser State)
  current : P Parser.current
  next : P Parser.next
  note : ∀ e, P (modify (·.note e) : Parser PUnit)
  skip : ∀ n : State → Nat, P (modify (fun s => s.skip (n s)) : Parser PUnit)
  report : ∀ {p : Problem}, p.InText → ∀ loc, P (Parser.report p loc)
  tooDeep : ∀ {ι α : Type} {p : ι → Parser α}, P (Parser.nested none p)
  abandon : ∀ start sync, P (do modify (·.abandon (← read) start sync) : Parser PUnit)

/-- The parsers of the level below have the property. -/
def OfInner (P : ∀ {α : Type}, Parser α → Prop) (inner : Option Inner) : Prop :=
  ∀ i, inner = some i → P i.expr ∧ P i.unary

/-- The parsers of a level have the property. -/
structure OfLevel (P : ∀ {α : Type}, Parser α → Prop) (l : Level) : Prop where
  expr : P l.expr
  inside : ∀ p, l.inside = some p → P p

/-- The parsers of the level below, related to themselves. -/
theorem OfInner.relates {P : ∀ {α : Type}, Parser α → Prop} {inner : Option Inner} (hi : OfInner P inner) :
    RelatesInner (fun _ p _ => P p) inner inner where
  some i hsome := ⟨i, hsome, hi i hsome⟩
  none hnone i' hsome := by
    rw [hnone] at hsome
    cases hsome

/-- The parsers of a level, related to themselves. -/
theorem OfLevel.relates {P : ∀ {α : Type}, Parser α → Prop} {l : Level} (hl : OfLevel P l) :
    RelatesLevel (fun _ p _ => P p) l l where
  expr := hl.expr
  inside p hp := ⟨p, hp, hl.inside p hp⟩

namespace Compositional

variable {α : Type} {P : ∀ {α : Type}, Parser α → Prop} (hP : Compositional P)

include hP

/-! ## Recovery -/

theorem spanFrom (start : Location) : P (Parser.spanFrom start) := hP.bind hP.get fun _ => hP.pure

/-- Giving up a statement is one change of the state, unless the loop has stalled. -/
theorem abandonStmt (start : Lexeme) (b : Bailout) : P (Parser.abandonStmt start b) := by
  unfold Parser.abandonStmt
  split
  · exact hP.throw
  · have h := hP.bind (hP.abandon start (b = .resync)) fun _ => hP.bind (hP.spanFrom start.location) fun loc =>
      hP.pure (a := Stmt.bad loc)
    exact h

/-- Giving up an expression skips tokens, or passes on what it was given up for. -/
theorem abandonExpr (start : Lexeme) (b : Bailout) : P (Parser.abandonExpr start b) := by
  refine hP.bind hP.get fun s => ?_
  split
  · exact hP.throw
  · exact hP.bind (hP.skip fun s => closerDistance 0 s.rest) fun _ => hP.bind (hP.spanFrom _) fun _ => hP.pure

/-- **A property as a relation**, of parsers to any others. -/
theorem relational : Relational (fun _ p _ => P p) where
  pure := hP.pure
  throw := hP.throw
  bind := hP.bind
  always := id
  look hf := hP.bind hP.current hf
  get hf := hP.bind hP.get fun s => hf s s ⟨rfl, rfl, rfl, rfl⟩
  next := hP.next
  note := hP.note
  skip n := hP.skip fun _ => n
  report := hP.report
  catchStmt start hp := hP.tryCatch hp (hP.abandonStmt start)
  catchExpr start hp := hP.tryCatch hp (hP.abandonExpr start)
  tooDeep _ := hP.tooDeep

/-! ## Single parsers -/

/-- A loop with a bound, if its steps have the property. -/
theorem loopWithin {step : α → Parser (ForInStep α)} (hstep : ∀ a, P (step a)) (bound : List Lexeme) (a : α) :
    P (Parser.loopWithin step bound a) := @Relational.loopWithin α _ hP.relational False step step hstep bound a

/-- A loop, if its steps have the property. -/
theorem loop {step : α → Parser (ForInStep α)} {a : α} (hstep : ∀ a, P (step a)) : P (Parser.loop a step) :=
  @Relational.loop α _ hP.relational False step step a hstep

theorem want (t : Token) : P (Parser.want t) := hP.relational.want (A := False) t

/-- A list, if its items have the property. -/
theorem separatedUntil {item : Parser α} (hitem : P item) (ending : Token) : P (Parser.separatedUntil ending item) :=
  @Relational.separatedUntil α _ hP.relational False item item hitem ending

theorem optionalAfter {p : Parser α} (hp : P p) (t : Token) : P (Parser.optionalAfter t p) :=
  @Relational.optionalAfter α _ hP.relational False p p hp t

theorem ident : P Parser.ident := hP.relational.ident (A := False)

theorem dottedStep (t : TypeName) : P (Parser.dottedStep t) := hP.relational.dottedStep (A := False) t

theorem dimensions (t : TypeName) (extend : Bool) : P (Parser.dimensions t extend) :=
  hP.relational.dimensions (A := False) t extend

theorem param : P Parser.param := hP.relational.param (A := False)

/-! ## Expressions -/

theorem binaryStep {operand : Parser Expr} (ho : P operand) (p : Nat) (x : Expr) :
    P (Parser.binaryStep p operand x) := @Relational.binaryStep _ hP.relational False operand operand ho p x

theorem binaryLevel {operand : Parser Expr} (ho : P operand) (p : Nat) : P (Parser.binaryLevel p operand) :=
  @Relational.binaryLevel _ hP.relational False operand operand ho p

/-- What may follow a binary expression. -/
theorem assignment {i : Inner} (he : P i.expr) (x : Expr) :
    P (do
      if (← Parser.token).isAssign then
        let op ← Parser.next
        if !x.isAssignable then Parser.report (.cannotAssign x.describe) x.location
        let v ← i.expr
        return Expr.assign (x.location.through v.location) op.token x v
      else return x) := @Relational.assignment _ hP.relational False i i he x

/-- An expression, if those of the level below have the property. -/
theorem exprWith {inner : Option Inner} (hi : OfInner P inner) : P (Parser.exprWith inner) :=
  hP.relational.exprWith (A := False) hi.relates

theorem suffixStep {expr : Parser Expr} (he : P expr) (x : Expr) : P (Parser.suffixStep expr x) :=
  @Relational.suffixStep _ hP.relational False expr expr he x

/-- **Expressions and operands of every level.** -/
theorem operands (d : Nat) : P (Parser.expr d) ∧ P (Parser.unary d) := hP.relational.operands (Nat.le_refl d)

/-! ## Statements -/

/-- **The parsers for statements of every level.** -/
theorem level (d : Nat) : OfLevel P (Parser.level d) := by
  have h := hP.relational.level (Nat.le_refl d)
  refine ⟨h.expr, fun p hp => ?_⟩
  obtain ⟨-, -, hp⟩ := h.inside p hp
  exact hp

/-- A block, if the parsers of its level have the property. -/
theorem block {l : Level} (hl : OfLevel P l) : P (Parser.block l) := hP.relational.block (A := False) hl.relates

/-- A statement, if the parsers of its level have the property. -/
theorem stmtAt {l : Level} (hl : OfLevel P l) : P (Parser.stmtAt l) := hP.relational.stmtAt (A := False) hl.relates

theorem member {l : Level} (hl : OfLevel P l) : P (Parser.member l) := hP.relational.member (A := False) hl.relates

/-- A statement of the outermost level. -/
theorem topStmt (d : Nat) : P (Parser.topStmt d) := hP.relational.topStmt (A := False) (Nat.le_refl d)

/-- A step of the loop over all statements. -/
theorem topStep (d : Nat) (ss : List Stmt) : P (Parser.topStep d ss) :=
  hP.relational.topStep (A := False) (Nat.le_refl d) ss

/-- **A whole text** is read by a parser that has the property. -/
theorem topStmts (d : Nat) : P (Parser.topStmts d) := hP.relational.topStmts (A := False) (Nat.le_refl d)

end Compositional

end Parser

end SmallJava
