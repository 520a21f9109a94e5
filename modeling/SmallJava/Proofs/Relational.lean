import SmallJava.Parser.Stmt
import SmallJava.Proofs.Reading.Logic

/-!
# What two parsers inherit from their parts

Parsers with different numbers of levels to spend are put together in the same way, from parts that differ only where
one of them has no level left. So a relation between parsers that holds of the parts and is kept where parsers are put
together holds of all parsers with some number of levels and with no fewer (`Relational.topStmts`), and nothing has to
be said about single parsers again.

Where the first parser has no level left, the second one may go on. `GivesUp` says that it gets nowhere at the end of a
halted parse, where the first one bails out silently.
-/

namespace SmallJava

/-- The problem is one of the text, and not that a limit has been reached. -/
def Problem.InText (p : Problem) : Prop := p.code ≠ .maxNestingDepthExceeded ∧ p.code ≠ .tooManyErrors

/-- The states differ in their logs at most. -/
structure State.Alike (s s' : State) : Prop where
  rest : s.rest = s'.rest
  last : s.last = s'.last
  problems : s.problems = s'.problems
  halted : s.halted = s'.halted

namespace Parser

variable {α β : Type}

/-! ## Parsers that give up -/

/-- Behind all tokens of a halted parse, the parser bails out and changes nothing but the log. -/
def GivesUp (p : Parser α) : Prop :=
  ∀ (setup : Setup) (s : State), setup.endMarker.token = .eof → s.rest = [] → s.halted = true →
    ∃ b s', p setup s = .error b s' ∧ b ≠ .stalled ∧ s.Alike s'

/-- A parser that gives up gives up before anything that follows it. -/
theorem GivesUp.bind {p : Parser α} (hp : GivesUp p) (f : α → Parser β) : GivesUp (p >>= f) := by
  intro setup s hend hrest hhalted
  obtain ⟨b, s', hrun, hb, halike⟩ := hp setup s hend hrest hhalted
  exact ⟨b, s', bind_error f hrun, hb, halike⟩

/-- What a parser does that looks at the current token first. -/
theorem GivesUp.look {f : Lexeme → Parser α} (hf : ∀ x, x.token = .eof → GivesUp (f x)) : GivesUp (current >>= f) := by
  intro setup s hend hrest hhalted
  have hcurrent : s.current setup = setup.endMarker := by simp [State.current, hrest]
  exact hf (s.current setup) (by rw [hcurrent, hend]) setup s hend hrest hhalted

/-- A failure in a halted parse is not reported, and only notes where it resumes. -/
theorem givesUp_fail (p : Problem) : GivesUp (fail (α := α) p) := by
  intro setup s hend hrest hhalted
  by_cases hmalformed : s.afterMalformed (s.current setup) = true
  · refine ⟨.resume, s.note (.resumed (s.current setup).location.first), ?_, by decide, ⟨rfl, rfl, rfl, rfl⟩⟩
    show (if s.afterMalformed (s.current setup) then _ else _ : Parser α) setup s = _
    rw [if_pos hmalformed]
    rfl
  · refine ⟨.resync, s, ?_, by decide, ⟨rfl, rfl, rfl, rfl⟩⟩
    show (if s.afterMalformed (s.current setup) then _ else _ : Parser α) setup s = _
    rw [if_neg hmalformed]
    show EStateM.Result.error Bailout.resync (s.report setup p (s.current setup).location) = _
    rw [State.report_of_halted hhalted]

/-- No token but the end marker is there to be taken. -/
theorem givesUp_want {t : Token} (ht : t ≠ .eof) : GivesUp (want t) := by
  refine .look fun x hx => ?_
  rw [if_neg (by rw [hx]; exact ht.symm)]
  exact givesUp_fail _

/-- Without a level left a halted parse is halted once more, which does nothing. -/
theorem givesUp_nested_none {ι : Type} (p : ι → Parser α) : GivesUp (nested none p) := by
  intro setup s hend hrest hhalted
  refine ⟨.resync, s, ?_, by decide, ⟨rfl, rfl, rfl, rfl⟩⟩
  show EStateM.Result.error Bailout.resync ((s.report setup _ (s.current setup).location).stop setup) = _
  rw [State.report_of_halted hhalted, State.stop_of_halted hhalted]

/-- To look at the kind of the current token is to look at the token. -/
theorem token_bind (f : Token → Parser α) : (token >>= f) = (current >>= fun x => f x.token) := rfl

/-- The parsers for expressions one level deeper than `d`. -/
def innerOf : Nat → Option Inner
  | 0 => none
  | d + 1 => some { expr := expr d, unary := unary d }

/-- An expression, without a case for the last level. -/
theorem expr_eq_exprWith (d : Nat) : expr d = exprWith (innerOf d) := by
  cases d <;> rw [expr, innerOf]

/-- An operand, without a case for the last level. -/
theorem unary_eq_unaryWith (d : Nat) : unary d = unaryWith (innerOf d) := by
  cases d <;> rw [unary, innerOf]

/-- No operand starts at the end of the text. -/
theorem givesUp_unaryWith (inner : Option Inner) : GivesUp (unaryWith inner) := by
  unfold unaryWith
  rw [token_bind]
  refine .look fun x hx => ?_
  rw [hx, if_neg (by decide)]
  refine .bind (.look fun y hy => ?_) _
  rw [hy]
  exact givesUp_fail _

/-- A binary expression starts with an operand. -/
theorem givesUp_binary {operand : Parser Expr} (ho : GivesUp operand) : GivesUp (binary operand) := by
  suffices h : ∀ levels, GivesUp (binaryLevels operand levels) from h 6
  intro levels
  induction levels with
  | zero => exact ho
  | succ n ih => exact .bind ih _

/-! ## Relations -/

/-- **A relation that parsers inherit from their parts.** `R A p p'` relates what `p` does to what `p'` does, from states
in which there is a token left if `A` holds. It holds of the small parsers, is kept where parsers are put together and
where they recover, and relates a parser without a level left to one that has a token before it, or that gives up. -/
structure Relational (R : ∀ {α : Type}, Prop → Parser α → Parser α → Prop) : Prop where
  pure : ∀ {α : Type} {A : Prop} {a : α}, R A (Pure.pure a : Parser α) (Pure.pure a)
  throw : ∀ {α : Type} {A : Prop} {b : Bailout}, R A (MonadExcept.throw b : Parser α) (MonadExcept.throw b)
  bind : ∀ {α β : Type} {A : Prop} {p p' : Parser α} {f f' : α → Parser β}, R A p p' →
    (∀ a, R False (f a) (f' a)) → R A (p >>= f) (p' >>= f')
  always : ∀ {α : Type} {A : Prop} {p p' : Parser α}, R False p p' → R A p p'
  look : ∀ {α : Type} {A : Prop} {f f' : Lexeme → Parser α}, (∀ x, R (x.token ≠ .eof) (f x) (f' x)) →
    R A (Parser.current >>= f) (Parser.current >>= f')
  get : ∀ {α : Type} {A : Prop} {f f' : State → Parser α}, (∀ s s', State.Alike s s' → R False (f s) (f' s')) →
    R A (MonadState.get >>= f) (MonadState.get >>= f')
  next : ∀ {A : Prop}, R A Parser.next Parser.next
  note : ∀ {A : Prop} (e : Event), R A (modify (·.note e) : Parser PUnit) (modify (·.note e))
  skip : ∀ {A : Prop} (n : Nat), R A (modify (·.skip n) : Parser PUnit) (modify (·.skip n))
  report : ∀ {A : Prop} {p : Problem}, p.InText → ∀ loc, R A (Parser.report p loc) (Parser.report p loc)
  catchStmt : ∀ {A : Prop} {p p' : Parser Stmt} (start : Lexeme), R A p p' →
    R A (tryCatch p (Parser.abandonStmt start)) (tryCatch p' (Parser.abandonStmt start))
  catchExpr : ∀ {A : Prop} {p p' : Parser Expr} (start : Lexeme), R A p p' →
    R A (tryCatch p (Parser.abandonExpr start)) (tryCatch p' (Parser.abandonExpr start))
  tooDeep : ∀ {ι α : Type} {A : Prop} {p : ι → Parser α} {q : Parser α}, A ∨ GivesUp q → R A (Parser.nested none p) q

/-- The parsers of the level below are related, if there are any. If there are such only on the second side, the one for
operands gives up. -/
structure RelatesInner (R : ∀ {α : Type}, Prop → Parser α → Parser α → Prop) (inner inner' : Option Inner) : Prop where
  some : ∀ i, inner = some i → ∃ i', inner' = some i' ∧ R False i.expr i'.expr ∧ R False i.unary i'.unary
  none : inner = none → ∀ i', inner' = Option.some i' → GivesUp i'.unary

/-- The parsers of two levels are related. -/
structure RelatesLevel (R : ∀ {α : Type}, Prop → Parser α → Parser α → Prop) (l l' : Level) : Prop where
  expr : R False l.expr l'.expr
  inside : ∀ p, l.inside = some p → ∃ p', l'.inside = some p' ∧ R False p p'

/-- Two choices that are made in the same way. -/
theorem relates_ite {R : Parser α → Parser α → Prop} {c : Prop} [Decidable c] {p p' q q' : Parser α}
    (hp : c → R p p') (hq : ¬ c → R q q') : R (if c then p else q) (if c then p' else q') := by
  by_cases h : c
  · rw [if_pos h, if_pos h]
    exact hp h
  · rw [if_neg h, if_neg h]
    exact hq h

namespace Relational

variable {R : ∀ {α : Type}, Prop → Parser α → Parser α → Prop} (hR : Relational R) {A : Prop}

include hR

/-- A look at the kind of the current token: behind it there is a token left unless it is the end marker. -/
theorem lookToken {f f' : Token → Parser α} (hf : ∀ t, R (t ≠ .eof) (f t) (f' t)) :
    R A (Parser.token >>= f) (Parser.token >>= f') := by
  rw [token_bind, token_bind]
  exact hR.look fun x => hf x.token

/-! ## Repetition -/

/-- Both loops take the same number of steps, so the bound is the same. -/
theorem loopWithin {step step' : α → Parser (ForInStep α)} (hstep : ∀ a, R False (step a) (step' a))
    (bound : List Lexeme) (a : α) : R A (Parser.loopWithin step bound a) (Parser.loopWithin step' bound a) := by
  induction bound generalizing A a with
  | nil =>
    rw [Parser.loopWithin, Parser.loopWithin]
    refine hR.bind (hR.always (hstep a)) fun r => ?_
    cases r with
    | done b => exact hR.pure
    | yield b => exact hR.throw
  | cons x bound ih =>
    rw [Parser.loopWithin, Parser.loopWithin]
    refine hR.bind (hR.always (hstep a)) fun r => ?_
    cases r with
    | done b => exact hR.pure
    | yield b => exact ih b

/-- The bounds are the same tokens, since the states differ in their logs only. -/
theorem loop {step step' : α → Parser (ForInStep α)} {a : α} (hstep : ∀ a, R False (step a) (step' a)) :
    R A (Parser.loop a step) (Parser.loop a step') := by
  refine hR.get fun s s' h => ?_
  rw [h.rest]
  exact hR.loopWithin hstep s'.rest a

/-! ## Tokens and problems -/

theorem got (t : Token) : R A (Parser.got t) (Parser.got t) :=
  hR.lookToken fun _ => relates_ite (fun _ => hR.bind hR.next fun _ => hR.pure) fun _ => hR.pure

/-- The last token taken is the same on both sides. -/
theorem spanFrom (start : Location) : R A (Parser.spanFrom start) (Parser.spanFrom start) := by
  refine hR.get fun s s' h => ?_
  rw [State.spanFrom, State.spanFrom, h.last]
  exact hR.pure

/-- Both sides report the problem, or both resume behind a malformed token. -/
theorem fail {p : Problem} (hp : p.InText) : R A (Parser.fail (α := α) p) (Parser.fail p) := by
  refine hR.look fun x => hR.get fun s s' h => ?_
  rw [State.afterMalformed, State.afterMalformed, h.last]
  refine relates_ite (fun _ => ?_) fun _ => ?_
  · exact hR.bind (hR.note _) fun _ => hR.throw
  · exact hR.bind (hR.report hp _) fun _ => hR.throw

theorem want (t : Token) : R A (Parser.want t) (Parser.want t) :=
  hR.look fun _ => relates_ite (fun _ => hR.next) fun _ => hR.fail (by simp [Problem.InText, Problem.code])

/-- One level deeper, where there may be more levels left on the second side. -/
theorem nested {ι : Type} {inner inner' : Option ι} {p p' : ι → Parser α}
    (hsome : ∀ i, inner = some i → ∃ i', inner' = some i' ∧ R A (p i) (p' i'))
    (hnone : inner = none → A ∨ ∀ i', inner' = some i' → GivesUp (p' i')) :
    R A (Parser.nested inner p) (Parser.nested inner' p') := by
  cases inner with
  | some i =>
    obtain ⟨i', rfl, hp⟩ := hsome i rfl
    exact hp
  | none =>
    refine hR.tooDeep ((hnone rfl).imp_right fun hgives => ?_)
    cases inner' with
    | some i' => exact hgives i' rfl
    | none => exact givesUp_nested_none p'

/-! ## Lists -/

/-- An item is related, and the comma behind it is on both sides or on none. -/
theorem itemStep {item item' : Parser α} (hitem : R False item item') (items : List α) :
    R A (Parser.itemStep item items) (Parser.itemStep item' items) :=
  hR.bind (hR.always hitem) fun _ => hR.bind (hR.got _) fun _ => relates_ite (fun _ => hR.pure) fun _ => hR.pure

/-- A list that ends at once is related to itself, and any other to its items. -/
theorem separatedUntil {item item' : Parser α} (hitem : R False item item') (ending : Token) :
    R A (Parser.separatedUntil ending item) (Parser.separatedUntil ending item') :=
  hR.lookToken fun _ => relates_ite (fun _ => hR.pure) fun _ => hR.loop (hR.itemStep hitem)

theorem optionalAfter {p p' : Parser α} (hp : R False p p') (t : Token) :
    R A (Parser.optionalAfter t p) (Parser.optionalAfter t p') :=
  hR.bind (hR.got t) fun _ => relates_ite (fun _ => hR.bind hp fun _ => hR.pure) fun _ => hR.pure

/-! ## Recovery -/

/-- Both sides catch what they bail out with, and give up the same text. -/
theorem recoverStmt {p p' : Parser Stmt} (hp : R False p p') : R A (Parser.recoverStmt p) (Parser.recoverStmt p') :=
  hR.look fun start => hR.catchStmt start (hR.always hp)

/-- Reading up to the parenthesis is related, and so is recovering from a failure. -/
theorem recoverExpr {p p' : Parser Expr} (hp : R False p p') : R A (Parser.recoverExpr p) (Parser.recoverExpr p') := by
  refine hR.look fun start => hR.catchExpr start (hR.bind (hR.always hp) fun x => hR.look fun t => ?_)
  exact relates_ite (fun _ => hR.pure) fun _ => hR.fail (by simp [Problem.InText, Problem.code])

/-! ## Names and types -/

theorem ident : R A Parser.ident Parser.ident := hR.bind (hR.want _) fun _ => hR.pure

/-- Two tokens ahead are looked at, and both sides see the same. -/
theorem dottedStep (t : TypeName) : R A (Parser.dottedStep t) (Parser.dottedStep t) := by
  refine hR.get fun s s' h => ?_
  rw [h.rest]
  split
  · exact relates_ite (fun _ => hR.bind hR.next fun _ => hR.bind hR.next fun _ => hR.pure) fun _ => hR.pure
  · exact hR.pure

theorem qualifiedName : R A Parser.qualifiedName Parser.qualifiedName :=
  hR.bind (hR.want _) fun _ => hR.loop hR.dottedStep

/-- Here, too, two tokens ahead are the same on both sides. -/
theorem bracketsStep (extend : Bool) (t : TypeName) :
    R A (Parser.bracketsStep extend t) (Parser.bracketsStep extend t) := by
  refine hR.get fun s s' h => ?_
  rw [h.rest]
  split
  · exact relates_ite (fun _ => hR.bind hR.next fun _ => hR.bind hR.next fun _ => hR.pure) fun _ => hR.pure
  · exact hR.pure

theorem dimensions (t : TypeName) (extend : Bool) : R A (Parser.dimensions t extend) (Parser.dimensions t extend) :=
  hR.loop (hR.bracketsStep extend)

theorem typeName : R A Parser.typeName Parser.typeName :=
  hR.bind hR.qualifiedName fun t => hR.dimensions t true

/-- Looking ahead depends on the tokens that are left, and on nothing else. -/
theorem atVarDecl : R A Parser.atVarDecl Parser.atVarDecl := by
  refine hR.get fun s s' h => ?_
  rw [h.rest]
  exact hR.pure

theorem atMethodDecl : R A Parser.atMethodDecl Parser.atMethodDecl := by
  refine hR.get fun s s' h => ?_
  rw [h.rest]
  exact hR.pure

/-! ## Expressions -/

/-- An operator of the level is taken on both sides, or the level is over on both. -/
theorem binaryStep {operand operand' : Parser Expr} (ho : R False operand operand') (p : Nat) (x : Expr) :
    R A (Parser.binaryStep p operand x) (Parser.binaryStep p operand' x) :=
  hR.look fun _ => relates_ite (fun _ => hR.bind hR.next fun _ => hR.bind ho fun _ => hR.pure) fun _ => hR.pure

theorem binaryLevel {operand operand' : Parser Expr} (ho : R False operand operand') (p : Nat) :
    R A (Parser.binaryLevel p operand) (Parser.binaryLevel p operand') :=
  hR.bind (hR.always ho) fun _ => hR.loop (hR.binaryStep ho p)

/-- All levels, one over the other. -/
theorem binary {operand operand' : Parser Expr} (ho : R False operand operand') :
    R A (Parser.binary operand) (Parser.binary operand') := by
  suffices h : ∀ levels, R False (Parser.binaryLevels operand levels) (Parser.binaryLevels operand' levels) from
    hR.always (h 6)
  intro levels
  induction levels with
  | zero => exact ho
  | succ n ih => exact hR.binaryLevel ih _

section Operands

variable {inner inner' : Option Inner} {expr expr' : Parser Expr}

/-- What may follow a binary expression. -/
theorem assignment {i i' : Inner} (he : R False i.expr i'.expr) (x : Expr) :
    R A (do
      if (← Parser.token).isAssign then
        let op ← Parser.next
        if !x.isAssignable then Parser.report (.cannotAssign x.describe) x.location
        let v ← i.expr
        return Expr.assign (x.location.through v.location) op.token x v
      else return x)
      (do
      if (← Parser.token).isAssign then
        let op ← Parser.next
        if !x.isAssignable then Parser.report (.cannotAssign x.describe) x.location
        let v ← i'.expr
        return Expr.assign (x.location.through v.location) op.token x v
      else return x) := by
  have hvalue : ∀ op : Lexeme,
      R False (i.expr >>= fun v => Pure.pure (Expr.assign (x.location.through v.location) op.token x v))
        (i'.expr >>= fun v => Pure.pure (Expr.assign (x.location.through v.location) op.token x v)) :=
    fun op => hR.bind he fun _ => hR.pure
  refine hR.lookToken fun t => relates_ite (fun _ => hR.bind hR.next fun op => ?_) fun _ => hR.pure
  refine relates_ite (fun _ => ?_) fun _ => hvalue op
  exact hR.bind (hR.report (by simp [Problem.InText, Problem.code]) _) fun _ => hvalue op

/-- An expression starts with an operand, so with levels left it gets nowhere at the end of the text. -/
theorem exprWith (hi : RelatesInner R inner inner') : R A (Parser.exprWith inner) (Parser.exprWith inner') := by
  refine hR.nested (fun i hsome => ?_) fun hnone => .inr fun i' hi' => ?_
  · obtain ⟨i', hi', hexpr, hunary⟩ := hi.some i hsome
    exact ⟨i', hi', hR.bind (hR.binary hunary) (hR.assignment hexpr)⟩
  · exact (givesUp_binary (hi.none hnone i' hi')).bind _

/-- Arguments are related if expressions are. -/
theorem arguments (he : R False expr expr') : R A (Parser.arguments expr) (Parser.arguments expr') :=
  hR.bind (hR.want _) fun _ => hR.bind (hR.separatedUntil he _) fun _ => hR.bind (hR.want _) fun _ => hR.pure

/-- An array literal wants its brace before anything else, so it gets nowhere at the end of the text. -/
theorem arrayLit (hi : RelatesInner R inner inner') : R A (Parser.arrayLit inner) (Parser.arrayLit inner') := by
  refine hR.nested (fun i hsome => ?_) fun _ => .inr fun i' _ => (givesUp_want (by decide)).bind _
  obtain ⟨i', hi', hexpr, -⟩ := hi.some i hsome
  refine ⟨i', hi', hR.bind (hR.want _) fun _ => hR.bind (hR.loop fun elems => ?_) fun _ =>
    hR.bind (hR.want _) fun _ => hR.pure⟩
  exact hR.lookToken fun _ => relates_ite (fun _ => hR.pure) fun _ => hR.itemStep (hR.always hexpr) elems

/-- Three ways to go on behind the name, each of them with related parts. -/
theorem allocation (hi : RelatesInner R inner inner') (he : R False expr expr') :
    R A (Parser.allocation inner expr) (Parser.allocation inner' expr') := by
  refine hR.bind (hR.want _) fun kw => hR.bind hR.qualifiedName fun type => hR.lookToken fun t => ?_
  split
  · exact hR.bind (hR.arguments he) fun _ => hR.bind (hR.spanFrom _) fun _ => hR.pure
  · refine hR.get fun s s' h => ?_
    rw [h.rest]
    refine relates_ite (fun _ => ?_) fun _ => ?_
    · exact hR.bind (hR.dimensions _ _) fun _ => hR.bind (hR.arrayLit hi) fun _ =>
        hR.bind (hR.spanFrom _) fun _ => hR.pure
    · exact hR.bind hR.next fun _ => hR.bind he fun _ => hR.bind (hR.want _) fun _ =>
        hR.bind (hR.dimensions _ _) fun _ => hR.bind (hR.spanFrom _) fun _ => hR.pure
  · exact hR.look fun _ => hR.fail (by simp [Problem.InText, Problem.code])

/-- By the kind of the current token; a parenthesis and a brace go one level deeper. -/
theorem primary (hi : RelatesInner R inner inner') (he : R False expr expr') :
    R A (Parser.primary inner expr) (Parser.primary inner' expr') := by
  refine hR.look fun x => ?_
  split
  case h_7 => exact hR.bind hR.ident fun _ => hR.pure
  case h_8 hparen =>
    refine hR.nested (fun i hsome => ?_) fun _ => .inl (by simp [hparen])
    obtain ⟨i', hi', hexpr, -⟩ := hi.some i hsome
    exact ⟨i', hi', hR.bind hR.next fun _ => hR.bind hexpr fun _ => hR.bind (hR.want _) fun _ => hR.pure⟩
  case h_9 => exact hR.bind (hR.arrayLit hi) fun _ => hR.pure
  case h_10 => exact hR.allocation hi he
  case h_12 => exact hR.fail (by simp [Problem.InText, Problem.code])
  all_goals exact hR.bind hR.next fun _ => hR.pure

/-- Whatever is applied to an operand has its parts from the same level. -/
theorem suffixStep (he : R False expr expr') (x : Expr) :
    R A (Parser.suffixStep expr x) (Parser.suffixStep expr' x) := by
  refine hR.lookToken fun t => ?_
  split
  · exact hR.bind hR.next fun _ => hR.bind he fun _ => hR.bind (hR.want _) fun _ => hR.pure
  · exact hR.bind (hR.arguments he) fun _ => hR.pure
  · exact hR.bind hR.next fun _ => hR.bind hR.ident fun _ => hR.pure
  · exact hR.bind hR.next fun _ => hR.pure
  · exact hR.bind hR.next fun _ => hR.pure
  · exact hR.pure

/-- A prefix operator goes one level deeper, and everything else stays. -/
theorem unaryWith (hi : RelatesInner R inner inner') : R A (Parser.unaryWith inner) (Parser.unaryWith inner') := by
  refine hR.lookToken fun t => relates_ite (fun hop => ?_) fun _ => ?_
  · have hahead : t ≠ .eof := by
      rintro rfl
      cases hop
    refine hR.nested (fun i hsome => ?_) fun _ => .inl hahead
    obtain ⟨i', hi', -, hunary⟩ := hi.some i hsome
    exact ⟨i', hi', hR.bind hR.next fun _ => hR.bind hunary fun _ => hR.pure⟩
  · exact hR.bind (hR.primary hi (hR.exprWith hi)) fun x => hR.loop (hR.suffixStep (hR.exprWith hi))

end Operands

/-- **Expressions**, with no fewer levels left on the second side. -/
theorem operands {d d' : Nat} (h : d ≤ d') :
    R False (Parser.expr d) (Parser.expr d') ∧ R False (Parser.unary d) (Parser.unary d') := by
  suffices hi : RelatesInner R (innerOf d) (innerOf d') by
    rw [expr_eq_exprWith, expr_eq_exprWith, unary_eq_unaryWith, unary_eq_unaryWith]
    exact ⟨hR.exprWith hi, hR.unaryWith hi⟩
  induction d generalizing d' with
  | zero =>
    constructor
    · intro i hsome
      cases hsome
    · intro _ i' hi'
      cases d' with
      | zero => cases hi'
      | succ n =>
        cases hi'
        show GivesUp (Parser.unary n)
        rw [unary_eq_unaryWith]
        exact givesUp_unaryWith _
  | succ d ih =>
    obtain ⟨n, rfl⟩ : ∃ n, d' = n + 1 := ⟨d' - 1, by omega⟩
    have hi := ih (Nat.le_of_succ_le_succ h)
    constructor
    · rintro i ⟨⟩
      refine ⟨_, rfl, ?_⟩
      show R False (Parser.expr d) (Parser.expr n) ∧ R False (Parser.unary d) (Parser.unary n)
      rw [expr_eq_exprWith, expr_eq_exprWith, unary_eq_unaryWith, unary_eq_unaryWith]
      exact ⟨hR.exprWith hi, hR.unaryWith hi⟩
    · intro hnone
      cases hnone

/-! ## Statements -/

/-- Statements up to a brace, each of which recovers on its own. -/
theorem statements {stmt stmt' : Parser Stmt} (hp : R False stmt stmt') :
    R A (Parser.statements stmt) (Parser.statements stmt') :=
  hR.loop fun _ => hR.lookToken fun _ => relates_ite (fun _ => hR.pure) fun _ =>
    hR.bind (hR.recoverStmt hp) fun _ => hR.pure

/-- The brace, or a report that it is missing, with the opening one in it. -/
theorem closeBrace (opened : Lexeme) : R A (Parser.closeBrace opened) (Parser.closeBrace opened) := by
  refine hR.look fun x => relates_ite (fun _ => ?_) fun _ => ?_
  · exact hR.bind (hR.report (by simp [Problem.InText, Problem.code]) _) fun _ => hR.spanFrom _
  · exact hR.bind (hR.want _) fun _ => hR.pure

section Statements

variable {l l' : Level}

/-- A block goes one level deeper, and wants its brace before anything else. -/
theorem block (hl : RelatesLevel R l l') : R A (Parser.block l) (Parser.block l') := by
  refine hR.nested (fun p hsome => ?_) fun _ => .inr fun p' _ => (givesUp_want (by decide)).bind _
  obtain ⟨p', hp', hp⟩ := hl.inside p hsome
  exact ⟨p', hp', hR.bind (hR.want _) fun _ => hR.bind (hR.statements hp) fun _ =>
    hR.bind (hR.closeBrace _) fun _ => hR.pure⟩

/-- A condition between parentheses recovers before the closing one. -/
theorem condition (hl : RelatesLevel R l l') : R A (Parser.condition l) (Parser.condition l') :=
  hR.bind (hR.want _) fun _ => hR.bind (hR.recoverExpr hl.expr) fun _ => hR.bind (hR.want _) fun _ => hR.pure

/-- The type, the name, and perhaps a value. -/
theorem varDecl (hl : RelatesLevel R l l') (start : Location) (mods : List Token) :
    R A (Parser.varDecl l start mods) (Parser.varDecl l' start mods) :=
  hR.bind hR.typeName fun _ => hR.bind hR.ident fun _ => hR.bind (hR.optionalAfter hl.expr _) fun _ =>
    hR.bind (hR.spanFrom _) fun _ => hR.pure

/-- Another `else if`, the last `else`, or neither. -/
theorem armStep (hl : RelatesLevel R l l') (arms : List ElseIf × Option Block) :
    R A (Parser.armStep l arms) (Parser.armStep l' arms) := by
  refine hR.lookToken fun t => relates_ite (fun _ => ?_) fun _ => hR.pure
  refine hR.bind hR.next fun kw => hR.bind (hR.got _) fun more => relates_ite (fun _ => ?_) fun _ => ?_
  · exact hR.bind (hR.condition hl) fun _ => hR.bind (hR.block hl) fun _ => hR.pure
  · exact hR.bind (hR.block hl) fun _ => hR.pure

/-- A condition and a block, and then the arms. -/
theorem ifStmt (hl : RelatesLevel R l l') : R A (Parser.ifStmt l) (Parser.ifStmt l') :=
  hR.bind (hR.want _) fun _ => hR.bind (hR.condition hl) fun _ => hR.bind (hR.block hl) fun _ =>
    hR.bind (hR.loop (hR.armStep hl)) fun _ => hR.bind (hR.spanFrom _) fun _ => hR.pure

theorem whileStmt (hl : RelatesLevel R l l') : R A (Parser.whileStmt l) (Parser.whileStmt l') :=
  hR.bind (hR.want _) fun _ => hR.bind (hR.condition hl) fun _ => hR.bind (hR.block hl) fun _ =>
    hR.bind (hR.spanFrom _) fun _ => hR.pure

theorem doWhileStmt (hl : RelatesLevel R l l') : R A (Parser.doWhileStmt l) (Parser.doWhileStmt l') :=
  hR.bind (hR.want _) fun _ => hR.bind (hR.block hl) fun _ => hR.bind (hR.want _) fun _ =>
    hR.bind (hR.condition hl) fun _ => hR.bind (hR.want _) fun _ => hR.bind (hR.spanFrom _) fun _ => hR.pure

theorem optionalExpr (hl : RelatesLevel R l l') (ending : Token) :
    R A (Parser.optionalExpr l ending) (Parser.optionalExpr l' ending) :=
  hR.lookToken fun _ => relates_ite (fun _ => hR.pure) fun _ => hR.bind (hR.always hl.expr) fun _ => hR.pure

/-- A declaration or an expression before the first semicolon, or nothing. -/
theorem forInit (hl : RelatesLevel R l l') : R A (Parser.forInit l) (Parser.forInit l') := by
  refine hR.bind hR.atVarDecl fun declares => relates_ite (fun _ => ?_) fun _ => ?_
  · exact hR.look fun _ => hR.bind (hR.varDecl hl _ _) fun _ => hR.pure
  · refine hR.bind (hR.optionalExpr hl _) fun x => ?_
    cases x with
    | none => exact hR.pure
    | some x => exact hR.pure

/-- Three parts that may be left out, and a block. -/
theorem forStmt (hl : RelatesLevel R l l') : R A (Parser.forStmt l) (Parser.forStmt l') :=
  hR.bind (hR.want _) fun _ => hR.bind (hR.want _) fun _ => hR.bind (hR.forInit hl) fun _ =>
    hR.bind (hR.want _) fun _ => hR.bind (hR.optionalExpr hl _) fun _ => hR.bind (hR.want _) fun _ =>
    hR.bind (hR.optionalExpr hl _) fun _ => hR.bind (hR.want _) fun _ => hR.bind (hR.block hl) fun _ =>
    hR.bind (hR.spanFrom _) fun _ => hR.pure

/-- Another clause, with its parameter and block, or none. -/
theorem catchStep (hl : RelatesLevel R l l') (clauses : List CatchClause) :
    R A (Parser.catchStep l clauses) (Parser.catchStep l' clauses) := by
  refine hR.lookToken fun t => relates_ite (fun _ => ?_) fun _ => hR.pure
  exact hR.bind hR.next fun _ => hR.bind (hR.want _) fun _ => hR.bind hR.typeName fun _ =>
    hR.bind hR.ident fun _ => hR.bind (hR.want _) fun _ => hR.bind (hR.block hl) fun _ => hR.pure

/-- A block, its clauses and the last block; that there is no handler is reported on both sides. -/
theorem tryStmt (hl : RelatesLevel R l l') : R A (Parser.tryStmt l) (Parser.tryStmt l') := by
  refine hR.bind (hR.want _) fun kw => hR.bind (hR.block hl) fun body => hR.bind (hR.loop (hR.catchStep hl))
    fun catches => hR.bind (hR.optionalAfter (hR.block hl) _) fun cleanup => hR.bind (hR.spanFrom _) fun loc => ?_
  refine relates_ite (fun _ => ?_) fun _ => hR.pure
  exact hR.bind (hR.report (by simp [Problem.InText, Problem.code]) _) fun _ => hR.pure

theorem returnStmt (hl : RelatesLevel R l l') : R A (Parser.returnStmt l) (Parser.returnStmt l') :=
  hR.bind (hR.want _) fun _ => hR.bind (hR.optionalExpr hl _) fun _ => hR.bind (hR.want _) fun _ =>
    hR.bind (hR.spanFrom _) fun _ => hR.pure

/-- A declaration or an expression, with a semicolon behind it. -/
theorem simpleStmt (hl : RelatesLevel R l l') : R A (Parser.simpleStmt l) (Parser.simpleStmt l') := by
  refine hR.bind hR.atVarDecl fun declares => relates_ite (fun _ => ?_) fun _ => ?_
  · exact hR.look fun _ => hR.bind (hR.varDecl hl _ _) fun _ => hR.bind (hR.want _) fun _ => hR.pure
  · exact hR.bind hl.expr fun _ => hR.bind (hR.want _) fun _ => hR.pure

/-- The current token settles which statement follows, on both sides the same. -/
theorem stmtAt (hl : RelatesLevel R l l') : R A (Parser.stmtAt l) (Parser.stmtAt l') := by
  refine hR.lookToken fun t => ?_
  split
  · exact hR.bind (hR.block hl) fun _ => hR.pure
  · exact hR.bind hR.next fun _ => hR.pure
  · exact hR.ifStmt hl
  · exact hR.whileStmt hl
  · exact hR.doWhileStmt hl
  · exact hR.forStmt hl
  · exact hR.tryStmt hl
  · exact hR.returnStmt hl
  · exact hR.simpleStmt hl

/-- **The parsers of every level**, by induction on the smaller number of levels. -/
theorem level {d d' : Nat} (h : d ≤ d') : RelatesLevel R (Parser.level d) (Parser.level d') := by
  induction d generalizing d' with
  | zero => exact ⟨(hR.operands h).1, fun p hp => nomatch hp⟩
  | succ d ih =>
    obtain ⟨n, rfl⟩ : ∃ n, d' = n + 1 := ⟨d' - 1, by omega⟩
    refine ⟨(hR.operands h).1, ?_⟩
    rintro p ⟨⟩
    refine ⟨_, rfl, ?_⟩
    rw [stmt_eq_stmtAt, stmt_eq_stmtAt]
    exact hR.stmtAt (ih (Nat.le_of_succ_le_succ h))

/-! ## Declarations -/

theorem modifiers : R A Parser.modifiers Parser.modifiers := by
  refine hR.get fun s s' h => ?_
  rw [h.rest]
  exact hR.bind (hR.skip _) fun _ => hR.pure

theorem param : R A Parser.param Parser.param :=
  hR.look fun _ => hR.bind hR.typeName fun _ => hR.bind hR.ident fun _ => hR.bind (hR.spanFrom _) fun _ => hR.pure

/-- The result, the name, the parameters, and a block. -/
theorem methodDecl (hl : RelatesLevel R l l') (start : Location) (mods : List Token) :
    R A (Parser.methodDecl l start mods) (Parser.methodDecl l' start mods) :=
  hR.bind hR.typeName fun _ => hR.bind hR.ident fun _ => hR.bind (hR.want _) fun _ =>
    hR.bind (hR.separatedUntil hR.param _) fun _ => hR.bind (hR.want _) fun _ => hR.bind (hR.block hl) fun _ =>
    hR.bind (hR.spanFrom _) fun _ => hR.pure

/-- A method, or a declaration with its semicolon. -/
theorem member (hl : RelatesLevel R l l') : R A (Parser.member l) (Parser.member l') := by
  refine hR.look fun x => hR.bind hR.modifiers fun mods => hR.bind hR.atMethodDecl fun method => ?_
  refine relates_ite (fun _ => hR.methodDecl hl _ _) fun _ => ?_
  exact hR.bind (hR.varDecl hl _ _) fun _ => hR.bind (hR.want _) fun _ => hR.bind (hR.spanFrom _) fun _ => hR.pure

/-- The members of a class are one level deeper, and its brace is wanted before them. -/
theorem classDecl {inside inside' : Option Level}
    (hl : ∀ l, inside = some l → ∃ l', inside' = some l' ∧ RelatesLevel R l l') (start : Location)
    (mods : List Token) : R A (Parser.classDecl inside start mods) (Parser.classDecl inside' start mods) := by
  refine hR.bind (hR.want _) fun _ => hR.bind hR.ident fun _ => ?_
  refine hR.nested (fun l hsome => ?_) fun _ => .inr fun l' _ => (givesUp_want (by decide)).bind _
  obtain ⟨l', hl', hrelates⟩ := hl l hsome
  exact ⟨l', hl', hR.bind (hR.want _) fun _ => hR.bind (hR.statements (hR.member hrelates)) fun _ =>
    hR.bind (hR.closeBrace _) fun _ => hR.pure⟩

/-- Inside a class there is a level left on the right if there is one on the left. -/
theorem levelInside {d d' : Nat} (h : d ≤ d') :
    ∀ l, Parser.levelInside d = some l → ∃ l', Parser.levelInside d' = some l' ∧ RelatesLevel R l l' := by
  intro l hsome
  cases d with
  | zero => cases hsome
  | succ d =>
    cases hsome
    obtain ⟨n, rfl⟩ : ∃ n, d' = n + 1 := ⟨d' - 1, by omega⟩
    exact ⟨_, rfl, hR.level (Nat.le_of_succ_le_succ h)⟩

/-- **A statement of the outermost level**: a class, a method, or any other. -/
theorem topStmt {d d' : Nat} (h : d ≤ d') : R A (Parser.topStmt d) (Parser.topStmt d') := by
  refine hR.look fun x => hR.bind hR.atMethodDecl fun method => relates_ite (fun _ => ?_) fun _ => ?_
  · refine hR.bind hR.modifiers fun mods => hR.lookToken fun t => relates_ite (fun _ => ?_) fun _ => ?_
    · exact hR.classDecl (hR.levelInside h) _ _
    · refine hR.bind hR.atMethodDecl fun method => relates_ite (fun _ => ?_) fun _ => ?_
      · exact hR.methodDecl (hR.level h) _ _
      · exact hR.look fun _ => hR.fail (by simp [Problem.InText, Problem.code])
  · rw [stmt_eq_stmtAt, stmt_eq_stmtAt]
    exact hR.stmtAt (hR.level h)

/-- One more statement, unless the text is over. -/
theorem topStep {d d' : Nat} (h : d ≤ d') (ss : List Stmt) : R A (Parser.topStep d ss) (Parser.topStep d' ss) :=
  hR.lookToken fun _ => relates_ite (fun _ => hR.pure) fun _ =>
    hR.bind (hR.recoverStmt (hR.topStmt h)) fun _ => hR.pure

/-- **A whole text** is read by related parsers. -/
theorem topStmts {d d' : Nat} (h : d ≤ d') : R A (Parser.topStmts d) (Parser.topStmts d') := hR.loop (hR.topStep h)

end Statements

end Relational

end Parser

end SmallJava
