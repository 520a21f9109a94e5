import Mathlib.Logic.Relation
import SmallJava.Proofs.Compositional
import SmallJava.Proofs.Reading.Logic

/-!
# The steps of a parse

Whatever a parser does to the state, it does in a few kinds of step: it takes or discards tokens, writes to the log,
reports a problem, or halts the parse because constructs are nested too deeply (`State.Step`). `Walks` says so of a
parser, whether it gives a value or bails out, and it holds of all of them (`walks`). So what every kind of step keeps
is kept by a whole parse (`State.Steps.keeps`).
-/

namespace SmallJava

namespace State

/-- One step of a parse. -/
inductive Step (setup : Setup) : State → State → Prop
  | next (s : State) : Step setup s { s with rest := s.rest.tail, last := some (s.current setup) }
  | skip (s : State) (n : Nat) : Step setup s (s.skip n)
  | note (s : State) (e : Event) : Step setup s (s.note e)
  | report (s : State) (p : Problem) (loc : Location) : p.InText → Step setup s (s.report setup p loc)
  /-- What is nested too deeply is reported and halts the parse. -/
  | halt (s : State) :
      Step setup s
        ((s.report setup (.nestedTooDeeply setup.maxDepth) (s.current setup).location).stop setup)

/-- Any number of steps. -/
def Steps (setup : Setup) : State → State → Prop := Relation.ReflTransGen (Step setup)

/-- What every step keeps is kept by any number of them. -/
theorem Steps.keeps {setup : Setup} {I : State → Prop} (hstep : ∀ s s', Step setup s s' → I s → I s') {s s' : State}
    (h : Steps setup s s') (hs : I s) : I s' := by
  induction h with
  | refl => exact hs
  | tail _ hlast ih => exact hstep _ _ hlast ih

variable {setup : Setup} {s s' : State}

@[simp] theorem stop_problems : (s.stop setup).problems = s.problems := by
  unfold stop
  split
  · rfl
  · rfl

theorem halted_stop (s : State) : (s.stop setup).halted = true := by
  unfold stop
  split
  · next h => exact h
  · rfl

/-- What a report adds: the problem, and perhaps, at the same place, that there are too many. -/
theorem problems_report (hs : s.halted = false) (p : Problem) (loc : Location) :
    ∃ more, (s.report setup p loc).problems
        = s.problems ++ { problem := p, location := loc, source := setup.name } :: more ∧
      ∀ e ∈ more, e = { problem := .tooManyErrors, location := loc, source := setup.name } := by
  have hadd : ∀ (t : State) (q : Problem), (t.addProblem setup q loc).problems
      = t.problems ++ [{ problem := q, location := loc, source := setup.name }] := fun _ _ => rfl
  simp only [report, hs, Bool.false_eq_true, if_false]
  split
  · split
    · refine ⟨[_], ?_, List.forall_mem_singleton.2 rfl⟩
      rw [hadd, stop_problems, hadd, List.append_assoc]
      rfl
    · exact ⟨[], hadd s p, List.forall_mem_nil _⟩
  · exact ⟨[], hadd s p, List.forall_mem_nil _⟩

theorem prefix_problems_report (p : Problem) (loc : Location) : s.problems <+: (s.report setup p loc).problems := by
  cases hs : s.halted with
  | true =>
    have hsame : (s.report setup p loc).problems = s.problems := by rw [report_of_halted hs]
    exact hsame ▸ List.prefix_refl _
  | false =>
    obtain ⟨more, hmore, -⟩ := problems_report hs p loc
    rw [hmore]
    exact List.prefix_append _ _

/-- Problems are not taken back. -/
theorem Steps.prefix_problems (h : Steps setup s s') : s.problems <+: s'.problems := by
  refine h.keeps (I := fun t => s.problems <+: t.problems) ?_ (List.prefix_refl _)
  intro t t' hstep ht
  cases hstep with
  | next | skip | note => exact ht
  | report p loc => exact ht.trans (prefix_problems_report p loc)
  | halt =>
    rw [stop_problems]
    exact ht.trans (prefix_problems_report _ _)

/-- What is left in a state of a parse is what was left before, without some tokens at the front. -/
theorem Steps.rest_suffix (h : Steps setup s s') : s'.rest <:+ s.rest := by
  refine h.keeps (I := fun t => t.rest <:+ s.rest) ?_ List.suffix_rfl
  have hstop : ∀ t : State, (t.stop setup).rest <:+ t.rest := by
    intro t
    unfold State.stop
    split
    · exact List.suffix_rfl
    · exact List.drop_suffix _ _
  have hreport : ∀ (t : State) (p : Problem) (loc : Location), (t.report setup p loc).rest <:+ t.rest := by
    intro t p loc
    unfold State.report
    split
    · exact List.suffix_rfl
    · dsimp only
      split
      · split
        · exact hstop (t.addProblem setup p loc)
        · exact List.suffix_rfl
      · exact List.suffix_rfl
  intro t t' hstep ht
  cases hstep with
  | next => exact (List.tail_suffix _).trans ht
  | skip n => exact (List.drop_suffix _ _).trans ht
  | note e => exact ht
  | report p loc _ => exact (hreport t p loc).trans ht
  | halt => exact ((hstop _).trans (hreport t _ _)).trans ht

end State

namespace Parser

variable {α β : Type} {setup : Setup}

/-- The parser goes from state to state in steps. -/
structure Walks (setup : Setup) (p : Parser α) : Prop where
  ok : ∀ {s a s'}, p setup s = .ok a s' → State.Steps setup s s'
  error : ∀ {s b s'}, p setup s = .error b s' → State.Steps setup s s'

/-! ## Putting parsers together -/

theorem Walks.pure {a : α} : Walks setup (pure a) where
  ok h := by cases h; exact .refl
  error h := nomatch h

theorem Walks.throw {b : Bailout} : Walks setup (throw b : Parser α) where
  ok h := nomatch h
  error h := by cases h; exact .refl

theorem Walks.get : Walks setup get where
  ok h := by cases h; exact .refl
  error h := nomatch h

/-- What is read of the setup is the setup. -/
theorem Walks.read_bind {f : Setup → Parser β} (h : Walks setup (f setup)) : Walks setup (read >>= f) :=
  ⟨h.ok, h.error⟩

/-- A parser that only changes the state. -/
theorem Walks.of_steps {p : Parser α} {v : State → α} {g : State → State} (hrun : ∀ s, p setup s = .ok (v s) (g s))
    (hg : ∀ s, State.Steps setup s (g s)) : Walks setup p where
  ok {s _ _} h := by
    rw [hrun] at h
    cases h
    exact hg s
  error {s _ _} h := by
    rw [hrun] at h
    cases h

theorem Walks.bind {p : Parser α} {f : α → Parser β} (hp : Walks setup p) (hf : ∀ a, Walks setup (f a)) :
    Walks setup (p >>= f) := by
  constructor
  · intro s b s' h
    cases hr : p setup s with
    | ok a s₁ =>
      rw [bind_ok f hr] at h
      exact (hp.ok hr).trans ((hf a).ok h)
    | error e s₁ =>
      rw [bind_error f hr] at h
      cases h
  · intro s b s' h
    cases hr : p setup s with
    | ok a s₁ =>
      rw [bind_ok f hr] at h
      exact (hp.ok hr).trans ((hf a).error h)
    | error e s₁ =>
      rw [bind_error f hr] at h
      cases h
      exact hp.error hr

theorem Walks.tryCatch {p : Parser α} {handler : Bailout → Parser α} (hp : Walks setup p)
    (hh : ∀ b, Walks setup (handler b)) : Walks setup (tryCatch p handler) := by
  constructor
  · intro s a s' h
    cases hr : p setup s with
    | ok a s₁ =>
      rw [tryCatch_ok _ hr] at h
      cases h
      exact hp.ok hr
    | error e s₁ =>
      rw [tryCatch_error _ hr] at h
      exact (hp.error hr).trans ((hh e).ok h)
  · intro s b s' h
    cases hr : p setup s with
    | ok a s₁ =>
      rw [tryCatch_ok _ hr] at h
      cases h
    | error e s₁ =>
      rw [tryCatch_error _ hr] at h
      exact (hp.error hr).trans ((hh e).error h)

/-- Giving up a statement discards tokens, perhaps in two goes. -/
theorem steps_abandon (s : State) (start : Lexeme) (sync : Bool) :
    State.Steps setup s (s.abandon setup start sync) := by
  have hsync : State.Steps setup s (if sync then s.synchronize setup else s) := by
    split
    · exact .tail (.single (.skip s _)) (.note _ _)
    · exact .refl
  unfold State.abandon
  dsimp only
  generalize (if sync then s.synchronize setup else s) = s₁ at hsync ⊢
  split
  · exact hsync.tail (.skip s₁ 1)
  · exact hsync

/-- Giving up a statement reports nothing. -/
theorem abandon_silent (s : State) (start : Lexeme) (sync : Bool) :
    (s.abandon setup start sync).problems = s.problems ∧ (s.abandon setup start sync).halted = s.halted := by
  have hsync : (if sync then s.synchronize setup else s).problems = s.problems ∧
      (if sync then s.synchronize setup else s).halted = s.halted := by
    split
    · exact ⟨rfl, rfl⟩
    · exact ⟨rfl, rfl⟩
  unfold State.abandon
  dsimp only
  generalize (if sync then s.synchronize setup else s) = s₁ at hsync ⊢
  split
  · exact hsync
  · exact hsync

/-- **All parsers go in steps.** -/
theorem walks : Compositional (Walks setup) where
  pure := .pure
  throw := .throw
  bind := .bind
  tryCatch := .tryCatch
  get := .get
  current := .bind .get fun _ => .read_bind .pure
  next := .of_steps (fun _ => rfl) fun s => .single (.next s)
  note e := .of_steps (fun _ => rfl) fun s => .single (.note s e)
  skip n := .of_steps (fun _ => rfl) fun s => .single (.skip s (n s))
  report hp loc := .of_steps (fun _ => rfl) fun s => .single (.report s _ loc hp)
  tooDeep := by
    intro ι α p
    constructor
    · intro s a s' h
      cases h
    · intro s b s' h
      cases h
      exact .single (.halt s)
  abandon start sync := .of_steps (fun _ => rfl) fun s => steps_abandon s start sync

/-! ## Passing through a state -/

/-- Where a run ends. -/
def endOfRun : EStateM.Result Bailout State α → State
  | .ok _ s => s
  | .error _ s => s

/-- The parser, started in `s`, passes through the state `t`: from there it goes in steps to where it ends. -/
def PassesThrough (setup : Setup) (p : Parser α) (s t : State) : Prop := State.Steps setup t (endOfRun (p setup s))

section PassesThrough

variable {p : Parser α} {f : α → Parser β} {s s' t : State}

theorem PassesThrough.of_error {b : Bailout} (h : p setup s = .error b t) : PassesThrough setup p s t := by
  unfold PassesThrough
  rw [h]
  exact .refl

theorem Walks.passesThrough (h : Walks setup p) (s : State) : PassesThrough setup p s s := by
  unfold PassesThrough
  cases hr : p setup s with
  | ok a s' => exact h.ok hr
  | error b s' => exact h.error hr

theorem PassesThrough.congr {q : Parser α} (h : p setup s = q setup s') (hq : PassesThrough setup q s' t) :
    PassesThrough setup p s t := by
  unfold PassesThrough at hq ⊢
  rwa [h]

/-- Through a state of the first parser. -/
theorem PassesThrough.bind (h : PassesThrough setup p s t) (hf : ∀ a, Walks setup (f a)) :
    PassesThrough setup (p >>= f) s t := by
  unfold PassesThrough at h ⊢
  cases hr : p setup s with
  | ok a s₁ =>
    rw [hr] at h
    rw [bind_ok f hr]
    exact h.trans ((hf a).passesThrough s₁)
  | error b s₁ =>
    rw [hr] at h
    rw [bind_error f hr]
    exact h

theorem PassesThrough.tryCatch {handler : Bailout → Parser α} (h : PassesThrough setup p s t)
    (hh : ∀ b, Walks setup (handler b)) : PassesThrough setup (tryCatch p handler) s t := by
  unfold PassesThrough at h ⊢
  cases hr : p setup s with
  | ok a s₁ =>
    rw [hr] at h
    rw [tryCatch_ok _ hr]
    exact h
  | error b s₁ =>
    rw [hr] at h
    rw [tryCatch_error _ hr]
    exact h.trans ((hh b).passesThrough s₁)

/-- Through a state of the first step. -/
theorem PassesThrough.loop {step : α → Parser (ForInStep α)} {a : α} (h : PassesThrough setup (step a) s t)
    (hstep : ∀ a, Walks setup (step a)) : PassesThrough setup (loop a step) s t := by
  show PassesThrough setup (loopWithin step s.rest a) s t
  cases s.rest with
  | nil =>
    rw [loopWithin]
    refine h.bind fun r => ?_
    cases r with
    | done b => exact .pure
    | yield b => exact .throw
  | cons x bound =>
    rw [loopWithin]
    refine h.bind fun r => ?_
    cases r with
    | done b => exact .pure
    | yield b => exact walks.loopWithin hstep bound b

end PassesThrough

/-- Through a state of the first statement. -/
theorem PassesThrough.topStmts {d : Nat} {s t : State} (heof : (s.current setup).token ≠ .eof)
    (h : PassesThrough setup (topStmt d) s t) : PassesThrough setup (topStmts d) s t := by
  refine .loop ?_ (walks.topStep d)
  show PassesThrough setup (if (s.current setup).token = .eof then _ else _ : Parser (ForInStep (List Stmt))) s t
  rw [if_neg heof]
  exact .bind (.tryCatch h (walks.abandonStmt (s.current setup))) fun _ => .pure

end Parser

end SmallJava
