import SmallJava.Proofs.Steps

/-!
# Before a name a parser takes a token

A statement or a declaration that starts with a name does not fail at that name: the name is taken, whatever comes of
the rest. `Commits` says so of a parser; it is a matter of its first step, since a parse never goes back
(`State.Step.last`).
-/

namespace SmallJava

namespace State

variable {setup : Setup} {s s' : State}

/-- A state in which nothing has been taken is one in which nothing is missing. -/
def Untouched (s s' : State) : Prop := s'.last = none → s.last = none ∧ s'.rest = s.rest

/-- Skipping nothing leaves the state as it is. -/
theorem untouched_skip (s : State) (n : Nat) : s.Untouched (s.skip n) := by
  intro h
  simp only [skip, Option.or_eq_none_iff, List.getLast?_eq_none_iff] at h
  have hall := List.take_append_drop n s.rest
  rw [h.1, List.nil_append] at hall
  exact ⟨h.2, hall⟩

/-- Halting a parse discards tokens, if there are any. -/
theorem untouched_stop (setup : Setup) (s : State) : s.Untouched (s.stop setup) := by
  unfold stop
  split
  · exact fun h => ⟨h, rfl⟩
  · exact untouched_skip (s.note _) s.rest.length

theorem untouched_report (setup : Setup) (s : State) (p : Problem) (loc : Location) :
    s.Untouched (s.report setup p loc) := by
  have hadd : s.Untouched (s.addProblem setup p loc) := fun h => ⟨h, rfl⟩
  unfold report
  split
  · exact fun h => ⟨h, rfl⟩
  · dsimp only
    split
    · split
      · exact untouched_stop setup (s.addProblem setup p loc)
      · exact hadd
    · exact hadd

/-- A parse that is halted has nothing left. -/
theorem rest_stop_of_running (hs : s.halted = false) : (s.stop setup).rest = [] := by
  simp [stop, hs, skip, note]

/-- A parse that is halted has nothing left. -/
theorem rest_of_halted_report {p : Problem} {loc : Location} (hs : s.halted = false)
    (h : (s.report setup p loc).halted = true) : (s.report setup p loc).rest = [] := by
  unfold report at h ⊢
  simp only [hs, Bool.false_eq_true, if_false] at h ⊢
  split at h
  · split at h
    · next hmax hlimit =>
      rw [if_pos hlimit]
      exact rest_stop_of_running hs
    · simp [addProblem, hs] at h
  · simp [addProblem, hs] at h

/-- What a step may do if no token has been taken after it. -/
theorem Step.last (h : Step setup s s') : s.Untouched s' := by
  cases h with
  | next => exact fun h => nomatch h
  | skip n => exact untouched_skip s n
  | note e => exact fun h => ⟨h, rfl⟩
  | report p loc _ => exact untouched_report setup s p loc
  | halt =>
    intro hnone
    obtain ⟨hlast, hrest⟩ := untouched_stop setup _ hnone
    obtain ⟨hlast', hrest'⟩ := untouched_report setup s _ _ hlast
    exact ⟨hlast', hrest.trans hrest'⟩

/-- **A parse never goes back**: once something has been taken, there is a last token. -/
theorem Steps.last (h : Steps setup s s') : s.Untouched s' := by
  refine h.keeps (I := s.Untouched) ?_ fun h => ⟨h, rfl⟩
  intro s₁ s₂ hstep hs hnone
  obtain ⟨hlast, hrest⟩ := hstep.last hnone
  obtain ⟨hlast', hrest'⟩ := hs hlast
  exact ⟨hlast', hrest.trans hrest'⟩

/-- What has been taken stays taken. -/
theorem Steps.last_ne_none (h : Steps setup s s') (hs : s.last ≠ none) : s'.last ≠ none :=
  fun hnone => hs (h.last hnone).1

end State

namespace Parser

variable {α β : Type} {setup : Setup}

/-- Started before a name, the parser has taken a token when it is done or bails out. -/
structure Commits (setup : Setup) (p : Parser α) : Prop where
  ok : ∀ {s x r a t}, s.halted = false → s.rest = x :: r → x.token = .ident → p setup s = .ok a t → t.last ≠ none
  error : ∀ {s x r b t}, s.halted = false → s.rest = x :: r → x.token = .ident → p setup s = .error b t →
    t.last ≠ none

/-! ## Putting parsers together -/

/-- A parser that has taken a token has done so whatever follows. -/
theorem Commits.bind {p : Parser α} {f : α → Parser β} (hp : Commits setup p) (hf : ∀ a, Walks setup (f a)) :
    Commits setup (p >>= f) := by
  constructor
  · intro s x r b t hs hrest hx h
    cases hr : p setup s with
    | ok a s₁ =>
      rw [bind_ok f hr] at h
      exact ((hf a).ok h).last_ne_none (hp.ok hs hrest hx hr)
    | error e s₁ =>
      rw [bind_error f hr] at h
      cases h
  · intro s x r b t hs hrest hx h
    cases hr : p setup s with
    | ok a s₁ =>
      rw [bind_ok f hr] at h
      exact ((hf a).error h).last_ne_none (hp.ok hs hrest hx hr)
    | error e s₁ =>
      rw [bind_error f hr] at h
      cases h
      exact hp.error hs hrest hx hr

theorem Commits.get_bind {f : State → Parser β} (h : ∀ s, Commits setup (f s)) : Commits setup (get >>= f) where
  ok {s _ _ _ _} hs hrest hx hr := (h s).ok hs hrest hx hr
  error {s _ _ _ _} hs hrest hx hr := (h s).error hs hrest hx hr

theorem current_eq_of_rest {s : State} {x : Lexeme} {r : List Lexeme} (h : s.rest = x :: r) : s.current setup = x := by
  simp [State.current, h]

/-- A parser may look at the name first. -/
theorem Commits.current_bind {f : Lexeme → Parser β} (h : ∀ x : Lexeme, x.token = .ident → Commits setup (f x)) :
    Commits setup (current >>= f) where
  ok {s _ _ _ _} hs hrest hx hr := (h (s.current setup) (by rwa [current_eq_of_rest hrest])).ok hs hrest hx hr
  error {s _ _ _ _} hs hrest hx hr := (h (s.current setup) (by rwa [current_eq_of_rest hrest])).error hs hrest hx hr

/-- A parser may look at the kind of the token, which is that of a name. -/
theorem Commits.token_bind {f : Token → Parser β} (h : Commits setup (f .ident)) : Commits setup (token >>= f) where
  ok {s x _ _ _} hs hrest hx hr := by
    have hrun : f (s.current setup).token setup s = _ := hr
    rw [current_eq_of_rest hrest, hx] at hrun
    exact h.ok hs hrest hx hrun
  error {s x _ _ _} hs hrest hx hr := by
    have hrun : f (s.current setup).token setup s = _ := hr
    rw [current_eq_of_rest hrest, hx] at hrun
    exact h.error hs hrest hx hrun

/-- A name that is wanted is taken. -/
theorem commits_want_ident : Commits setup (want .ident) := by
  unfold want
  refine .current_bind fun x hx => ?_
  rw [if_pos hx]
  constructor
  · intro s y r a t hs hrest hy h
    cases h
    simp
  · intro s y r b t hs hrest hy h
    cases h

/-- Where there is no level left, all tokens are taken. -/
theorem commits_nested {ι : Type} {inner : Option ι} {p : ι → Parser α}
    (hp : ∀ i, inner = some i → Commits setup (p i)) : Commits setup (nested inner p) := by
  cases inner with
  | some i => exact hp i rfl
  | none =>
    constructor
    · intro s x r a t hs hrest hx h
      cases h
    · intro s x r b t hs hrest hx h hnone
      cases h
      obtain ⟨hlast, heq⟩ := State.untouched_stop setup _ hnone
      obtain ⟨-, heq'⟩ := State.untouched_report setup s _ _ hlast
      rw [heq', hrest] at heq
      cases hh : (s.report setup (.nestedTooDeeply setup.maxDepth) (s.current setup).location).halted with
      | true =>
        rw [State.rest_of_halted_report hs hh] at heq'
        rw [hrest] at heq'
        cases heq'
      | false =>
        rw [State.rest_stop_of_running hh] at heq
        cases heq

/-- There are no modifiers before a name. -/
theorem modifiers_before_name {s : State} {x : Lexeme} {r : List Lexeme} (hrest : s.rest = x :: r)
    (hx : x.token = .ident) : modifiers setup s = .ok [] s := by
  have hnone : s.rest.takeWhile (·.token.isModifier) = [] := by
    rw [hrest, List.takeWhile_cons_of_neg]
    simp [hx, Token.isModifier]
  show EStateM.Result.ok ((s.rest.takeWhile (·.token.isModifier)).map (·.token))
    (s.skip ((s.rest.takeWhile (·.token.isModifier)).map (·.token)).length) = _
  rw [hnone]
  rfl

/-- A name is no modifier, so none is taken before it. -/
theorem Commits.modifiers_bind {f : List Token → Parser β} (h : Commits setup (f [])) :
    Commits setup (modifiers >>= f) := by
  constructor
  · intro s x r a t hs hrest hx hr
    rw [bind_ok _ (modifiers_before_name hrest hx)] at hr
    exact h.ok hs hrest hx hr
  · intro s x r b t hs hrest hx hr
    rw [bind_ok _ (modifiers_before_name hrest hx)] at hr
    exact h.error hs hrest hx hr

/-! ## Expressions and declarations -/

theorem commits_typeName : Commits setup typeName :=
  .bind (.bind commits_want_ident fun _ => walks.loop walks.dottedStep) fun t => walks.dimensions t true

/-- No prefix operator is a name, so an operand starts with it. -/
theorem commits_unary (d : Nat) : Commits setup (unary d) := by
  have hwith : ∀ inner, OfInner (Walks setup) inner → Commits setup (unaryWith inner) := by
    intro inner hi
    refine .token_bind ?_
    rw [if_neg (by decide)]
    refine .bind (.current_bind fun x hx => ?_) fun x => walks.loop (walks.suffixStep (walks.exprWith hi))
    rw [hx]
    exact .bind (.bind commits_want_ident fun _ => .pure) fun _ => .pure
  cases d with
  | zero =>
    rw [unary]
    exact hwith none fun i h => by cases h
  | succ d =>
    rw [unary]
    refine hwith _ ?_
    rintro i ⟨⟩
    exact walks.operands d

theorem commits_binary {operand : Parser Expr} (hc : Commits setup operand) (ho : Walks setup operand) :
    Commits setup (binary operand) := by
  suffices h : ∀ levels, Commits setup (binaryLevels operand levels) ∧ Walks setup (binaryLevels operand levels) from
    (h 6).1
  intro levels
  induction levels with
  | zero => exact ⟨hc, ho⟩
  | succ n ih => exact ⟨.bind ih.1 fun x => walks.loop (walks.binaryStep ih.2 _), walks.binaryLevel ih.2 _⟩

/-- An expression takes the name that it starts with. -/
theorem commits_expr (d : Nat) : Commits setup (expr d) := by
  cases d with
  | zero =>
    rw [expr]
    exact commits_nested fun i h => by cases h
  | succ d =>
    rw [expr]
    refine commits_nested ?_
    rintro i ⟨⟩
    exact .bind (commits_binary (commits_unary d) (walks.operands d).2) (walks.assignment (walks.operands d).1)

theorem commits_varDecl (d : Nat) (start : Location) (mods : List Token) :
    Commits setup (varDecl (level d) start mods) :=
  .bind commits_typeName fun _ => .bind walks.ident fun _ => .bind (walks.optionalAfter (walks.operands d).1 _)
    fun _ => .bind (walks.spanFrom _) fun _ => .pure

theorem commits_methodDecl (d : Nat) (start : Location) (mods : List Token) :
    Commits setup (methodDecl (level d) start mods) :=
  .bind commits_typeName fun _ => .bind walks.ident fun _ => .bind (walks.want _) fun _ =>
    .bind (walks.separatedUntil walks.param _) fun _ => .bind (walks.want _) fun _ =>
    .bind (walks.block (walks.level d)) fun _ => .bind (walks.spanFrom _) fun _ => .pure

/-! ## Statements -/

/-- **A statement takes the name that it starts with**, as a declaration or an expression. -/
theorem commits_stmt (d : Nat) : Commits setup (stmt d) := by
  rw [stmt_eq_stmtAt]
  refine .token_bind (.get_bind fun s => ?_)
  split
  · exact .current_bind fun x _ => .bind (commits_varDecl d _ _) fun _ => .bind (walks.want _) fun _ => .pure
  · exact .bind (commits_expr d) fun _ => .bind (walks.want _) fun _ => .pure

theorem commits_member (d : Nat) : Commits setup (member (level d)) := by
  refine .current_bind fun x _ => .modifiers_bind (.get_bind fun s => ?_)
  split
  · exact commits_methodDecl d _ _
  · exact .bind (commits_varDecl d _ _) fun _ => .bind (walks.want _) fun _ => .bind (walks.spanFrom _) fun _ => .pure

/-- A statement of the whole text that starts with a name is a method, or a statement of any block. -/
theorem topStmt_before_name {s : State} {x : Lexeme} {r : List Lexeme} (hrest : s.rest = x :: r)
    (hx : x.token = .ident) (d : Nat) :
    topStmt d setup s
      = if startsMethodDecl s.rest then methodDecl (level d) x.location [] setup s else stmt d setup s := by
  have hcur : s.current setup = x := current_eq_of_rest hrest
  show (if (s.current setup).token.isModifier || (s.current setup).token = .kwClass || startsMethodDecl s.rest
    then _ else _ : Parser Stmt) setup s = _
  rw [hcur, hx]
  cases hmethod : startsMethodDecl s.rest with
  | false => rfl
  | true =>
    rw [if_pos (by decide), if_pos rfl, bind_ok _ (modifiers_before_name hrest hx)]
    show (if (s.current setup).token = .kwClass then _ else _ : Parser Stmt) setup s = _
    rw [hcur, hx, if_neg (by decide)]
    show (if startsMethodDecl s.rest then _ else _ : Parser Stmt) setup s = _
    rw [if_pos hmethod]

/-- **A statement of the outermost level** takes the name that it starts with. -/
theorem commits_topStmt (d : Nat) : Commits setup (topStmt d) := by
  constructor
  · intro s x r a t hs hrest hx hr
    rw [topStmt_before_name hrest hx] at hr
    split at hr
    · exact (commits_methodDecl d _ _).ok hs hrest hx hr
    · exact (commits_stmt d).ok hs hrest hx hr
  · intro s x r b t hs hrest hx hr
    rw [topStmt_before_name hrest hx] at hr
    split at hr
    · exact (commits_methodDecl d _ _).error hs hrest hx hr
    · exact (commits_stmt d).error hs hrest hx hr

end Parser

end SmallJava
