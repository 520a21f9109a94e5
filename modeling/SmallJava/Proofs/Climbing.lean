import SmallJava.Parse
import SmallJava.Proofs.Reading.Expr
import SmallJava.Proofs.Steps

/-!
# Climbing precedences

Binary operators can be read level by level, with one parser for each precedence over the parser for the next, or in a
single loop that climbs: it takes any operator that binds tightly enough, and to the right of an operator of precedence
`q` it calls itself for the precedences above `q`. `binaryLevels` goes the first way, and `climb` the second.

They read the same. A loop that climbs from `p` on is one that climbs from `p + 1` on and then a loop over the operators
of precedence `p` (`loop_climbStep`), since what has been read by climbing is not followed by an operator that the climb
would have taken (`climb_ends`).

* `Advances` — the steps of a loop that take tokens, so that the bound of the loop makes no difference;
* `climb_eq_binaryLevel` — climbing, one level at a time;
* `climb_eq_binary` — climbing from the lowest precedence on reads all levels.
-/

namespace SmallJava

namespace Parser

/-- Operands joined by the operators of precedence at least `least`, from left to right. What stands to the right of an
operator has only tighter ones. -/
def climb (operand : Parser Expr) (least : Nat) : Parser Expr := do
  loop (← operand) fun x => do
    let op ← current
    match h : op.token.precedence? with
    | some q =>
      if least ≤ q then
        let _ ← next
        let y ← climb operand (q + 1)
        return .yield (.binary (x.location.through y.location) op.token x y)
      else return .done x
    | none => return .done x
termination_by 7 - least
decreasing_by
  have hbounds := Token.precedence?_bounds h
  omega

/-- The step of the loop in `climb`, with the parsers for what stands to the right of an operator. -/
def climbStep (right : Nat → Parser Expr) (least : Nat) (x : Expr) : Parser (ForInStep Expr) := do
  let op ← current
  match op.token.precedence? with
  | some q =>
    if least ≤ q then
      let _ ← next
      let y ← right (q + 1)
      return .yield (.binary (x.location.through y.location) op.token x y)
    else return .done x
  | none => return .done x

/-- Climbing, with its step by name. -/
theorem climb_eq (operand : Parser Expr) (least : Nat) :
    climb operand least = operand >>= fun x => loop x (climbStep (climb operand) least) := by
  rw [climb]
  refine congrArg (operand >>= ·) (funext fun x => congrArg (loop x) (funext fun y => ?_))
  refine congrArg (current >>= ·) (funext fun op => ?_)
  split
  · next q hq => simp only [hq]
  · next hq => simp only [hq]

/-! ## Loops that take tokens -/

section Loop

variable {α : Type} {setup : Setup} {step step' : α → Parser (ForInStep α)} {a b : α} {s s' : State}

/-- Each step but the last leaves fewer tokens. -/
def Advances (setup : Setup) (step : α → Parser (ForInStep α)) : Prop :=
  ∀ a b s s', step a setup s = .ok (.yield b) s' → s'.rest.length < s.rest.length

/-- The bound of a loop makes no difference if it covers the tokens that are left. -/
theorem Advances.loopWithin_eq (hstep : Advances setup step) {bound bound' : List Lexeme}
    (hb : s.rest.length ≤ bound.length) (hb' : s.rest.length ≤ bound'.length) :
    loopWithin step bound a setup s = loopWithin step bound' a setup s := by
  induction hn : s.rest.length using Nat.strongRecOn generalizing bound bound' a s with
  | ind n ih =>
    cases hr : step a setup s with
    | error e s' => rw [loopWithin_error _ hr, loopWithin_error _ hr]
    | ok r s' =>
      cases r with
      | done b => rw [loopWithin_done _ hr, loopWithin_done _ hr]
      | yield b =>
        -- the step has taken a token, so neither bound is used up
        have hlt := hstep _ _ _ _ hr
        obtain ⟨x, bound, rfl⟩ := List.exists_cons_of_length_pos (Nat.lt_of_lt_of_le (Nat.zero_lt_of_lt hlt) hb)
        obtain ⟨x', bound', rfl⟩ := List.exists_cons_of_length_pos (Nat.lt_of_lt_of_le (Nat.zero_lt_of_lt hlt) hb')
        rw [loopWithin_yield _ hr, loopWithin_yield _ hr]
        exact ih _ (hn ▸ hlt) (Nat.le_of_lt_succ (Nat.lt_of_lt_of_le hlt hb))
          (Nat.le_of_lt_succ (Nat.lt_of_lt_of_le hlt hb')) rfl

/-- A loop bails out with its first step. -/
theorem loop_error {e : Bailout} (h : step a setup s = .error e s') : loop a step setup s = .error e s' :=
  loopWithin_error s.rest h

/-- A loop is done with its first step. -/
theorem loop_done (h : step a setup s = .ok (.done b) s') : loop a step setup s = .ok b s' := loopWithin_done s.rest h

/-- A loop goes on from where its first step has led. -/
theorem Advances.loop_yield (hstep : Advances setup step) (h : step a setup s = .ok (.yield b) s') :
    loop a step setup s = loop b step setup s' := by
  have hlt := hstep _ _ _ _ h
  obtain ⟨x, bound, hrest⟩ := List.exists_cons_of_length_pos (Nat.zero_lt_of_lt hlt)
  rw [hrest, List.length_cons] at hlt
  show loopWithin step s.rest a setup s = loopWithin step s'.rest b setup s'
  rw [hrest, loopWithin_yield _ h]
  exact hstep.loopWithin_eq (Nat.le_of_lt_succ hlt) (Nat.le_refl _)

/-- What a loop gives, its last step gives. -/
theorem Advances.exists_done (hstep : Advances setup step) (h : loop a step setup s = .ok b s') :
    ∃ a' s₀, step a' setup s₀ = .ok (.done b) s' := by
  induction hn : s.rest.length using Nat.strongRecOn generalizing a s with
  | ind n ih =>
    cases hr : step a setup s with
    | error e s₁ => cases (loop_error hr).symm.trans h
    | ok r s₁ =>
      cases r with
      | done c =>
        cases (loop_done hr).symm.trans h
        exact ⟨a, s, hr⟩
      | yield c =>
        rw [hstep.loop_yield hr] at h
        exact ih s₁.rest.length (hn ▸ hstep _ _ _ _ hr) h rfl

/-- Another parser may come to the same from another state. -/
theorem bind_eq_of_run {β : Type} {p p' : Parser α} (f : α → Parser β) (h : p setup s = p' setup s') :
    (p >>= f) setup s = (p' >>= f) setup s' := by
  simp only [bind, ReaderT.bind, EStateM.bind, h]

/-- What two parsers do in a row is settled by what each of them does. -/
theorem bind_eq_bind {β : Type} {p p' : Parser α} {f f' : α → Parser β} (hp : p setup = p' setup)
    (hf : ∀ a, f a setup = f' a setup) : (p >>= f) setup = (p' >>= f') setup := by
  show (p setup >>= fun a => f a setup) = (p' setup >>= fun a => f' a setup)
  rw [hp, funext hf]

/-- What a loop does is settled by what its steps do. -/
theorem loop_eq_loop (h : ∀ a, step a setup = step' a setup) : loop a step setup = loop a step' setup := by
  have hwithin : ∀ bound a, loopWithin step bound a setup = loopWithin step' bound a setup := by
    intro bound
    induction bound with
    | nil =>
      intro a
      rw [loopWithin, loopWithin]
      exact bind_eq_bind (h a) fun _ => rfl
    | cons x bound ih =>
      intro a
      rw [loopWithin, loopWithin]
      refine bind_eq_bind (h a) fun r => ?_
      cases r with
      | done b => rfl
      | yield b => exact ih b
  funext s
  exact congrFun (hwithin s.rest a) s

end Loop

/-! ## Operators -/

section Operators

variable {setup : Setup} {operand operand' : Parser Expr} {right : Nat → Parser Expr} {p q least : Nat} {x y : Expr}
  {s s' : State}

/-- Takes an operator, and joins `x` and what `right` reads behind it. -/
def joined (right : Parser Expr) (x : Expr) : Parser Expr := do
  let op ← next
  let y ← right
  return .binary (x.location.through y.location) op.token x y

/-- The current token is an operator of precedence at least `least`. -/
def Binds (setup : Setup) (least : Nat) (s : State) : Prop :=
  ∃ q, (s.current setup).token.precedence? = some q ∧ least ≤ q

/-- No operator is above the tightest level. -/
theorem not_binds_seven : ¬ Binds setup 7 s := by
  rintro ⟨q, hq, hle⟩
  have hbounds := Token.precedence?_bounds hq
  omega

/-- An operator that binds tightly enough is taken. -/
theorem climbStep_of_le (right : Nat → Parser Expr) (x : Expr) (hq : (s.current setup).token.precedence? = some q)
    (hle : least ≤ q) :
    climbStep right least x setup s = (joined (right (q + 1)) x >>= fun z => pure (.yield z)) setup s := by
  show (match (s.current setup).token.precedence? with
    | some q => _
    | none => _ : Parser (ForInStep Expr)) setup s = _
  rw [hq]
  dsimp only
  rw [if_pos hle, joined, bind_assoc]
  simp only [bind_assoc, pure_bind]
  rfl

/-- Before anything else a climb is over. -/
theorem climbStep_of_not_binds (h : ¬ Binds setup least s) : climbStep right least x setup s = .ok (.done x) s := by
  show (match (s.current setup).token.precedence? with
    | some q => _
    | none => _ : Parser (ForInStep Expr)) setup s = _
  cases hq : (s.current setup).token.precedence? with
  | none => rfl
  | some q =>
    dsimp only
    rw [if_neg fun hle => h ⟨q, hq, hle⟩]
    rfl

/-- An operator of the level is taken. -/
theorem binaryStep_of_eq (operand : Parser Expr) (x : Expr) (hq : (s.current setup).token.precedence? = some p) :
    binaryStep p operand x setup s = (joined operand x >>= fun z => pure (.yield z)) setup s := by
  show (if (s.current setup).token.precedence? = some p then _ else _ : Parser (ForInStep Expr)) setup s = _
  rw [if_pos hq, joined, bind_assoc]
  simp only [bind_assoc, pure_bind]
  rfl

/-- Before anything else a level is over. -/
theorem binaryStep_of_ne (hq : (s.current setup).token.precedence? ≠ some p) :
    binaryStep p operand x setup s = .ok (.done x) s := by
  show (if (s.current setup).token.precedence? = some p then _ else _ : Parser (ForInStep Expr)) setup s = _
  rw [if_neg hq]
  rfl

/-- A step that takes an operator goes on with what it has joined. -/
theorem joined_of_yield {r : ForInStep Expr}
    (h : (joined operand x >>= fun z => pure (.yield z)) setup s = .ok r s') :
    ∃ z, r = .yield z ∧ joined operand x setup s = .ok z s' := by
  cases hr : joined operand x setup s with
  | error e s₁ => cases (bind_error _ hr).symm.trans h
  | ok z s₁ =>
    cases (bind_ok _ hr).symm.trans h
    exact ⟨z, rfl, rfl⟩

/-- An operator is a token of the text, so taking it leaves fewer of them. -/
theorem joined_advances (hend : setup.endMarker.token = .eof) (ho : Walks setup operand)
    (hq : (s.current setup).token.precedence? = some q) (h : joined operand x setup s = .ok y s') :
    s'.rest.length < s.rest.length := by
  cases hrest : s.rest with
  | nil =>
    rw [State.current, hrest, List.headD_nil, hend] at hq
    cases hq
  | cons op rest =>
    -- what has been taken is the operator, and then an operand
    have hwalk : Walks setup (operand >>= fun y => pure (Expr.binary (x.location.through y.location)
        (s.current setup).token x y)) := .bind ho fun _ => .pure
    have hsuffix := (hwalk.ok (s := { s with rest := s.rest.tail, last := some (s.current setup) }) h).rest_suffix
    rw [hrest] at hsuffix
    exact Nat.lt_succ_of_le hsuffix.length_le

/-- The steps of a climb take tokens. -/
theorem advances_climbStep (hend : setup.endMarker.token = .eof) (hright : ∀ q, Walks setup (right q)) :
    Advances setup (climbStep right least) := by
  intro x y s s' h
  by_cases hbinds : Binds setup least s
  · obtain ⟨q, hq, hle⟩ := hbinds
    rw [climbStep_of_le right x hq hle] at h
    obtain ⟨z, -, hjoined⟩ := joined_of_yield h
    exact joined_advances hend (hright (q + 1)) hq hjoined
  · cases (climbStep_of_not_binds hbinds).symm.trans h

/-- The steps of a level take tokens. -/
theorem advances_binaryStep (hend : setup.endMarker.token = .eof) (ho : Walks setup operand) :
    Advances setup (binaryStep p operand) := by
  intro x y s s' h
  by_cases hq : (s.current setup).token.precedence? = some p
  · rw [binaryStep_of_eq operand x hq] at h
    obtain ⟨z, -, hjoined⟩ := joined_of_yield h
    exact joined_advances hend ho hq hjoined
  · cases (binaryStep_of_ne hq).symm.trans h

/-- Climbing goes in steps if its operands do. -/
theorem walks_climb (ho : Walks setup operand) : Walks setup (climb operand least) := by
  induction least using climb.induct with
  | case1 least ih =>
    rw [climb_eq]
    refine .bind ho fun x => walks.loop fun y => .bind walks.current fun op => ?_
    split
    · next q hq =>
      split
      · next hle => exact .bind walks.next fun _ => .bind (ih op q hq hle) fun _ => .pure
      · exact .pure
    · exact .pure

/-- **A climb takes every operator that it may take**: none of them follows what it has read. -/
theorem climb_ends (hend : setup.endMarker.token = .eof) (ho : Walks setup operand)
    (h : climb operand least setup s = .ok x s') : ¬ Binds setup least s' := by
  rw [climb_eq] at h
  cases hr : operand setup s with
  | error e s₁ => cases (bind_error _ hr).symm.trans h
  | ok y s₁ =>
    rw [bind_ok _ hr] at h
    obtain ⟨z, s₀, hdone⟩ := (advances_climbStep hend fun _ => walks_climb ho).exists_done h
    -- the last step takes nothing
    by_cases hbinds : Binds setup least s₀
    · obtain ⟨q, hq, hle⟩ := hbinds
      rw [climbStep_of_le _ z hq hle] at hdone
      obtain ⟨w, hyield, -⟩ := joined_of_yield hdone
      cases hyield
    · cases (climbStep_of_not_binds hbinds).symm.trans hdone
      exact hbinds

/-- What has been joined ends where its right operand does. -/
theorem joined_ends (hend : setup.endMarker.token = .eof) (ho : Walks setup operand)
    (h : joined (climb operand least) x setup s = .ok y s') : ¬ Binds setup least s' := by
  let taken : State := { s with rest := s.rest.tail, last := some (s.current setup) }
  cases hr : climb operand least setup taken with
  | error e s₁ => cases (bind_error _ hr).symm.trans h
  | ok z s₁ =>
    cases (bind_ok _ hr).symm.trans h
    exact climb_ends hend ho hr

/-- **Climbing from `p` on** is climbing from `p + 1` on, and then joining what stands between operators of precedence
`p`. -/
theorem loop_climbStep (hend : setup.endMarker.token = .eof) (ho : Walks setup operand) :
    loop x (climbStep (climb operand) p) setup s
      = (loop x (climbStep (climb operand) (p + 1)) >>= fun y =>
          loop y (binaryStep p (climb operand (p + 1)))) setup s := by
  have hclimb : ∀ least, Advances setup (climbStep (climb operand) least) :=
    fun least => advances_climbStep hend fun _ => walks_climb ho
  have hlevel : Advances setup (binaryStep p (climb operand (p + 1))) := advances_binaryStep hend (walks_climb ho)
  induction hn : s.rest.length using Nat.strongRecOn generalizing x s with
  | ind n ih =>
    by_cases hbinds : Binds setup (p + 1) s
    · -- a tighter operator is taken by both climbs
      obtain ⟨q, hq, hle⟩ := hbinds
      have hstep := climbStep_of_le (climb operand) x hq (Nat.le_of_succ_le hle)
      have hstep' := climbStep_of_le (climb operand) x hq hle
      cases hr : joined (climb operand (q + 1)) x setup s with
      | error e s' =>
        rw [loop_error (hstep.trans (bind_error _ hr)), bind_error _ (loop_error (hstep'.trans (bind_error _ hr)))]
      | ok z s' =>
        have hyield := hstep.trans (bind_ok _ hr)
        have hyield' := hstep'.trans (bind_ok _ hr)
        have hlt : s'.rest.length < n := hn ▸ joined_advances hend (walks_climb ho) hq hr
        rw [(hclimb p).loop_yield hyield, ih _ hlt rfl]
        exact (bind_eq_of_run _ ((hclimb (p + 1)).loop_yield hyield')).symm
    · rw [bind_ok _ (loop_done (climbStep_of_not_binds hbinds))]
      by_cases hq : (s.current setup).token.precedence? = some p
      · -- behind an operator of precedence `p` and its operand there is no tighter one
        have hstep := climbStep_of_le (climb operand) x hq (Nat.le_refl p)
        have hstep' := binaryStep_of_eq (climb operand (p + 1)) x hq
        cases hr : joined (climb operand (p + 1)) x setup s with
        | error e s' => rw [loop_error (hstep.trans (bind_error _ hr)), loop_error (hstep'.trans (bind_error _ hr))]
        | ok z s' =>
          have hlt : s'.rest.length < n := hn ▸ joined_advances hend (walks_climb ho) hq hr
          rw [(hclimb p).loop_yield (hstep.trans (bind_ok _ hr)), hlevel.loop_yield (hstep'.trans (bind_ok _ hr)),
            ih _ hlt rfl, bind_ok _ (loop_done (climbStep_of_not_binds (joined_ends hend ho hr)))]
      · have hnot : ¬ Binds setup p s := by
          rintro ⟨q, hsome, hle⟩
          rcases Nat.eq_or_lt_of_le hle with rfl | hlt
          · exact hq hsome
          · exact hbinds ⟨q, hsome, hlt⟩
        rw [loop_done (climbStep_of_not_binds hnot), loop_done (binaryStep_of_ne hq)]

/-- Climbing from `p` on is one level of operators over climbing from `p + 1` on. -/
theorem climb_eq_binaryLevel (hend : setup.endMarker.token = .eof) (ho : Walks setup operand) :
    climb operand p setup = binaryLevel p (climb operand (p + 1)) setup := by
  have hlevel : binaryLevel p (climb operand (p + 1))
      = operand >>= fun x => loop x (climbStep (climb operand) (p + 1)) >>= fun y =>
          loop y (binaryStep p (climb operand (p + 1))) := by
    rw [← bind_assoc, ← climb_eq]
    rfl
  rw [climb_eq, hlevel]
  refine bind_eq_bind rfl fun x => ?_
  funext s
  exact loop_climbStep hend ho

/-- What one level does is settled by what its operands do. -/
theorem binaryLevel_eq_binaryLevel (h : operand setup = operand' setup) :
    binaryLevel p operand setup = binaryLevel p operand' setup := by
  refine bind_eq_bind h fun x => loop_eq_loop fun y => bind_eq_bind rfl fun op => ?_
  split
  · exact bind_eq_bind rfl fun _ => bind_eq_bind h fun _ => rfl
  · rfl

/-- Climbing from the precedence of a level on reads that level and all tighter ones. -/
theorem climb_eq_binaryLevels (hend : setup.endMarker.token = .eof) (ho : Walks setup operand) (levels : Nat)
    (hle : levels ≤ 6) : climb operand (7 - levels) setup = binaryLevels operand levels setup := by
  induction levels with
  | zero =>
    funext s
    rw [climb_eq]
    cases hr : operand setup s with
    | error e s' => exact (bind_error _ hr).trans hr.symm
    | ok x s' =>
      rw [bind_ok _ hr, loop_done (climbStep_of_not_binds not_binds_seven)]
      exact hr.symm
  | succ levels ih =>
    have hthis : 7 - (levels + 1) = 6 - levels := by omega
    have hnext : 6 - levels + 1 = 7 - levels := by omega
    rw [hthis, climb_eq_binaryLevel hend ho, hnext]
    exact binaryLevel_eq_binaryLevel (ih (by omega))

/-- **Climbing reads binary expressions.** With any operands, a loop that climbs from the lowest precedence on does what
the six levels of operators do, in every state. -/
theorem climb_eq_binary (hend : setup.endMarker.token = .eof) (ho : Walks setup operand) :
    climb operand 1 setup = binary operand setup := climb_eq_binaryLevels hend ho 6 (Nat.le_refl 6)

end Operators

/-- In a parse of a source, each binary expression is one that climbing reads. -/
theorem binary_eq_climb (o : Options) (s : Source) (d : Nat) :
    binary (unary d) (o.setup s) = climb (unary d) 1 (o.setup s) :=
  (climb_eq_binary rfl (walks.operands d).2).symm

end Parser

end SmallJava
