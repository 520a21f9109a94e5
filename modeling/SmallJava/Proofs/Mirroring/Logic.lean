import SmallJava.Proofs.Reading.Logic
import SmallJava.Proofs.Tree.Relocated

/-!
# Two parses side by side

A parse does not depend on where its tokens stand. A second parse that stands before the same tokens at other places
goes the same way as the first: it takes the same tokens, bails out where the first one does, and all it gives and
reports is what the first one gives and reports, at the other places. That is so even if the second parse has
already taken other tokens and reported problems with them.

* `Mirror` — what two such parses have in common, and what is asked of the places: starts are told apart, the order of
  ends and starts is kept, and so is what stands on a new line;
* `Mirror.Relates` — the states of the two parses;
* `Mirror.Follows` — what two parsers do from related states, with a rule for each way to put parsers together and
  for the parsers that everything else is made of.
-/

namespace SmallJava

open SmallJava.Parser

/-- `x` and `y` stand one behind the other among the tokens `all` and the end marker `e`, behind which there is nothing
but the end marker again. -/
def Adjacent (all : List Lexeme) (e x y : Lexeme) : Prop := ∃ us vs, all ++ [e, e] = us ++ x :: y :: vs

/-- **Two parses.** The first one is a parse of the tokens `all`. The second one comes to the same tokens, moved to
other places, when it has taken the token `prior` last and has reported the problems `before`. The text may have another
name. -/
structure Mirror where
  move : Relocation
  rename : String → String
  all : List Lexeme
  setup : Setup
  setup' : Setup
  prior : Option Lexeme
  before : Diagnostics
  name_eq : setup'.name = rename setup.name
  maxDepth_eq : setup'.maxDepth = setup.maxDepth
  maxErrors_eq : setup'.maxErrors = setup.maxErrors
  endMarker_eq : setup'.endMarker = setup.endMarker.relocate move
  /-- Tokens that start at different places do so when moved. -/
  starts : ∀ x ∈ all ++ [setup.endMarker], ∀ y ∈ all ++ [setup.endMarker],
    move.offset x.location.span.start = move.offset y.location.span.start →
      x.location.span.start = y.location.span.start
  /-- What ends before something starts does so when moved, and only that. -/
  order : ∀ x ∈ all ++ [setup.endMarker], ∀ y ∈ all ++ [setup.endMarker],
    (move.offset x.location.span.stop ≤ move.offset y.location.span.start ↔
      x.location.span.stop ≤ y.location.span.start)
  /-- What stands on a new line does so when moved, and only that. -/
  lines : ∀ x y, Adjacent all setup.endMarker x y →
    ((move.position x.location.last).line < (move.position y.location.first).line ↔
      x.location.last.line < y.location.first.line)
  prior_valid : ∀ l ∈ prior, l.token ≠ .invalid
  prior_le : ∀ l ∈ prior, ∀ x ∈ all ++ [setup.endMarker],
    l.location.span.stop ≤ move.offset x.location.span.start
  /-- Problems reported before do not count, since there is no limit to them. -/
  uncounted : before = [] ∨ setup.maxErrors = none

namespace Mirror

variable {M : Mirror} {s s' t t' : State}

/-- A new line is one in both parses. -/
theorem newLine_eq {x y : Lexeme} (h : Adjacent M.all M.setup.endMarker x y) :
    decide ((x.relocate M.move).location.last.line < (y.relocate M.move).location.first.line)
      = decide (x.location.last.line < y.location.first.line) :=
  decide_eq_decide.2 (M.lines x y h)

/-! ## States -/

/-- The token is one of the first parse. -/
def Knows (M : Mirror) (x : Lexeme) : Prop := x ∈ M.all ++ [M.setup.endMarker]

/-- The state is one of the first parse: what has been taken is a beginning of the tokens, and a halted parse has taken
all of them. Behind the last one the end marker may be taken as well. -/
structure Holds (M : Mirror) (s : State) : Prop where
  place : ∃ taken, M.all = taken ++ s.rest ∧
    (s.last = taken.getLast? ∨ s.rest = [] ∧ s.last = some M.setup.endMarker)
  halted : s.halted = true → s.rest = []

/-- What the first parse reports, as the second one reports it. -/
def carry (M : Mirror) (d : Diagnostic) : Diagnostic := { d.relocate M.move with source := M.rename d.source }

/-- Moving a diagnostic does not change its code. -/
theorem code_carry (M : Mirror) (d : Diagnostic) : (M.carry d).code = d.code := Diagnostic.code_relocate d

/-- **Related states.** The second parse stands before the same tokens as the first one. -/
structure Relates (M : Mirror) (s s' : State) : Prop where
  holds : M.Holds s
  rest : s'.rest = s.rest.map (Lexeme.relocate M.move)
  last : s'.last = (s.last.map (Lexeme.relocate M.move)).or M.prior
  problems : s'.problems = M.before ++ s.problems.map M.carry
  halted : s'.halted = s.halted

/-- The tokens are the same one. -/
def Same (M : Mirror) (x x' : Lexeme) : Prop := M.Knows x ∧ x' = x.relocate M.move

/-- The locations are those of the same token. -/
def SameStart (M : Mirror) (l l' : Location) : Prop := ∃ x x', M.Same x x' ∧ l = x.location ∧ l' = x'.location

theorem Same.start {x x' : Lexeme} (h : M.Same x x') : M.SameStart x.location x'.location := ⟨x, x', h, rfl, rfl⟩

/-- Skipping takes tokens from the front, like any other step. -/
theorem Holds.skip (h : M.Holds s) (n : Nat) : M.Holds (s.skip n) where
  place := by
    obtain ⟨taken, hall, hlast⟩ := h.place
    refine ⟨taken ++ s.rest.take n, by simp [State.skip, hall], ?_⟩
    rcases hlast with hlast | ⟨hrest, hlast⟩
    · exact .inl (by simp [State.skip, hlast, List.getLast?_append])
    · exact .inr (by simp [State.skip, hrest, hlast])
  halted hh := by simp [State.skip, h.halted hh]

/-- The current token is one of the first parse, or its end marker. -/
theorem Holds.knows_current (h : M.Holds s) : M.Knows (s.current M.setup) := by
  obtain ⟨taken, hall, -⟩ := h.place
  unfold Knows State.current
  rw [hall]
  cases s.rest with
  | nil => simp
  | cons x r => simp

/-- The last token taken and the current one stand one behind the other. -/
theorem Holds.adjacent (h : M.Holds s) {l : Lexeme} (hl : s.last = some l) :
    Adjacent M.all M.setup.endMarker l (s.current M.setup) := by
  obtain ⟨taken, hall, hlast⟩ := h.place
  unfold Adjacent State.current
  rw [hall]
  rcases hlast with hlast | ⟨hrest, hlast⟩
  · obtain ⟨us, rfl⟩ : ∃ us, taken = us ++ [l] := by
      rw [hl] at hlast
      exact List.getLast?_eq_some_iff.1 hlast.symm
    cases s.rest with
    | nil => exact ⟨us, [M.setup.endMarker], by simp⟩
    | cons x r => exact ⟨us, r ++ [M.setup.endMarker, M.setup.endMarker], by simp⟩
  · obtain rfl : M.setup.endMarker = l := Option.some.inj (hlast.symm.trans hl)
    exact ⟨taken, [], by simp [hrest]⟩

/-- The last token taken is one of the first parse. -/
theorem Holds.knows_last (h : M.Holds s) {l : Lexeme} (hl : s.last = some l) : M.Knows l := by
  obtain ⟨us, vs, hadj⟩ := h.adjacent hl
  have hmem : l ∈ M.all ++ [M.setup.endMarker, M.setup.endMarker] := by simp [hadj]
  simpa [Knows] using hmem

namespace Relates

/-- The second parse stands before the same token, moved. -/
theorem current (h : M.Relates s s') : s'.current M.setup' = (s.current M.setup).relocate M.move := by
  unfold State.current
  rw [h.rest, M.endMarker_eq]
  cases s.rest with
  | nil => rfl
  | cons x r => rfl

theorem same_current (h : M.Relates s s') : M.Same (s.current M.setup) (s'.current M.setup') :=
  ⟨h.holds.knows_current, h.current⟩

/-- The kind of the current token is the same. -/
theorem token (h : M.Relates s s') : (s'.current M.setup').token = (s.current M.setup).token := by
  rw [h.current]
  rfl

/-- Both parses take the same token. -/
theorem next (h : M.Relates s s') :
    M.Relates { s with rest := s.rest.tail, last := some (s.current M.setup) }
      { s' with rest := s'.rest.tail, last := some (s'.current M.setup') } where
  holds := by
    refine ⟨?_, fun hh => by simp [h.holds.halted hh]⟩
    obtain ⟨taken, hall, -⟩ := h.holds.place
    cases hrest : s.rest with
    | nil => exact ⟨taken, by simpa [hrest] using hall, .inr ⟨rfl, by simp [State.current, hrest]⟩⟩
    | cons x r => exact ⟨taken ++ [x], by simpa [hrest] using hall, .inl (by simp [State.current, hrest])⟩
  rest := by simp [h.rest]
  last := by simp [h.current]
  problems := h.problems
  halted := h.halted

/-- Both parses skip as many tokens. -/
theorem skip (h : M.Relates s s') (n : Nat) : M.Relates (s.skip n) (s'.skip n) where
  holds := h.holds.skip n
  rest := by simp [State.skip, h.rest]
  last := by
    simp only [State.skip, h.rest, h.last, ← List.map_take, List.getLast?_map]
    cases (s.rest.take n).getLast? with
    | none => simp
    | some l => simp
  problems := h.problems
  halted := h.halted

/-- The logs are not compared. -/
theorem note (h : M.Relates s s') (e e' : Event) : M.Relates (s.note e) (s'.note e') :=
  ⟨⟨h.holds.place, h.holds.halted⟩, h.rest, h.last, h.problems, h.halted⟩

/-- Both parses are halted, and discard what is left. -/
theorem stop (h : M.Relates s s') : M.Relates (s.stop M.setup) (s'.stop M.setup') := by
  unfold State.stop
  rw [h.halted]
  split
  · exact h
  · have hall := (h.note (.halted (s.current M.setup).location.first s.problems.length)
      (.halted (s'.current M.setup').location.first s'.problems.length)).skip s.rest.length
    have hlength : s'.rest.length = s.rest.length := by simp [h.rest]
    rw [hlength]
    refine ⟨⟨hall.holds.place, fun _ => ?_⟩, hall.rest, hall.last, hall.problems, rfl⟩
    simp [State.skip, State.note]

/-- A problem is reported at the place that its location has moved to. -/
theorem addProblem (h : M.Relates s s') (p : Problem) (loc : Location) :
    M.Relates (s.addProblem M.setup p loc) (s'.addProblem M.setup' (p.relocate M.move) (loc.relocate M.move)) where
  holds := ⟨h.holds.place, h.holds.halted⟩
  rest := h.rest
  last := h.last
  problems := by simp [State.addProblem, h.problems, M.name_eq, carry, Diagnostic.relocate]
  halted := h.halted

/-- Both parses come to the limit at the same problem: with a limit, nothing had been reported before. -/
theorem report (h : M.Relates s s') (p : Problem) (loc : Location) :
    M.Relates (s.report M.setup p loc) (s'.report M.setup' (p.relocate M.move) (loc.relocate M.move)) := by
  have hadd := h.addProblem p loc
  unfold State.report
  rw [h.halted, M.maxErrors_eq]
  split
  · exact h
  · dsimp only
    split
    · next limit hmax =>
      -- with a limit, both parses have reported the same number of problems
      have hbefore : M.before = [] := M.uncounted.resolve_right (by simp [hmax])
      have hcount : (s'.addProblem M.setup' (p.relocate M.move) (loc.relocate M.move)).problems.length
          = (s.addProblem M.setup p loc).problems.length := by
        simp [hadd.problems, hbefore]
      rw [hcount]
      split
      · exact hadd.stop.addProblem .tooManyErrors loc
      · exact hadd
    · exact hadd

/-- From the start of a known token to the end of the last one taken. -/
theorem spanFrom (h : M.Relates s s') {l l' : Location} (hl : M.SameStart l l') :
    s'.spanFrom l' = (s.spanFrom l).relocate M.move := by
  obtain ⟨x, _, ⟨hx, rfl⟩, rfl, rfl⟩ := hl
  unfold State.spanFrom
  rw [h.last]
  cases hlast : s.last with
  | none =>
    cases hprior : M.prior with
    | none => rfl
    | some l =>
      have hle := M.prior_le l hprior x hx
      simp [hle, Location.relocate_atStart]
  | some l =>
    have horder := M.order l (h.holds.knows_last hlast) x hx
    simp only [Option.map_some, Option.some_or, Lexeme.location_relocate, Location.stop_relocate,
      Location.start_relocate, horder]
    split
    · rfl
    · rfl

/-- Whether there is something to report depends on the lines only. -/
theorem afterMalformed (h : M.Relates s s') :
    s'.afterMalformed (s'.current M.setup') = s.afterMalformed (s.current M.setup) := by
  unfold State.afterMalformed
  rw [h.last, h.current]
  cases hlast : s.last with
  | none =>
    cases hprior : M.prior with
    | none => rfl
    | some l => simp [M.prior_valid l hprior]
  | some l =>
    show (decide (l.token = .invalid) && decide ((l.relocate M.move).location.last.line
      < ((s.current M.setup).relocate M.move).location.first.line)) = _
    rw [newLine_eq (h.holds.adjacent hlast)]

end Relates

/-! ## Discarding tokens -/

/-- The first token left is no name that only the second parse would take for the start of a line. -/
def Settled (M : Mirror) (s : State) : Prop :=
  M.prior ≠ none → s.last = none → ∀ x ∈ s.rest.head?, x.token ≠ .ident

/-- Whether a token looks like the start of a statement on a new line does not depend on its place. -/
theorem startsLine_relocate {l x : Lexeme} (h : Adjacent M.all M.setup.endMarker l x) (following : List Lexeme) :
    startsLine (some (l.relocate M.move)) (x.relocate M.move) (following.map (Lexeme.relocate M.move))
      = startsLine (some l) x following := by
  unfold startsLine
  rw [Option.any_some, Option.any_some, newLine_eq h]
  cases following with
  | nil => rfl
  | cons y r => rfl

/-- The distance to a boundary is the same, if that is so for the first token. -/
theorem boundaryDistance_relocate {taken rest : List Lexeme} (hall : M.all = taken ++ rest) (last last' : Option Lexeme)
    (hfirst : ∀ x r, rest = x :: r →
      startsLine last' (x.relocate M.move) (r.map (Lexeme.relocate M.move)) = startsLine last x r) :
    boundaryDistance last' (rest.map (Lexeme.relocate M.move)) = boundaryDistance last rest := by
  induction rest generalizing taken last last' with
  | nil => rfl
  | cons x r ih =>
    have hrest : boundaryDistance (some (x.relocate M.move)) (r.map (Lexeme.relocate M.move))
        = boundaryDistance (some x) r := by
      have hall' : M.all = taken ++ [x] ++ r := by simpa using hall
      refine ih hall' _ _ ?_
      rintro y r' rfl
      have hadj : Adjacent M.all M.setup.endMarker x y :=
        ⟨taken, r' ++ [M.setup.endMarker, M.setup.endMarker], by simp [hall]⟩
      exact startsLine_relocate hadj r'
    simp only [List.map_cons, boundaryDistance, Lexeme.token_relocate, hfirst x r rfl, hrest]

namespace Relates

/-- Both parses discard as many tokens before they go on. -/
theorem boundaryDistance (h : M.Relates s s') (hset : M.Settled s) :
    boundaryDistance s'.last s'.rest = boundaryDistance s.last s.rest := by
  obtain ⟨taken, hall, -⟩ := h.holds.place
  rw [h.rest]
  refine boundaryDistance_relocate hall s.last s'.last fun x r hrest => ?_
  rw [h.last]
  cases hlast : s.last with
  | none =>
    cases hprior : M.prior with
    | none => simp [startsLine]
    | some l =>
      have hne := hset (by simp [hprior]) hlast x (by simp [hrest])
      simp [startsLine, hne]
  | some l =>
    have hadj := h.holds.adjacent hlast
    rw [State.current, hrest, List.headD_cons] at hadj
    exact startsLine_relocate hadj r

/-- Both parses go on before the same token. -/
theorem synchronize (h : M.Relates s s') (hset : M.Settled s) :
    M.Relates (s.synchronize M.setup) (s'.synchronize M.setup') := by
  unfold State.synchronize
  dsimp only
  rw [h.boundaryDistance hset, h.rest, ← List.map_drop]
  have hsemi : ((s.rest.drop (SmallJava.boundaryDistance s.last s.rest)).map (Lexeme.relocate M.move)).head?.any
        (·.token = .semi)
      = (s.rest.drop (SmallJava.boundaryDistance s.last s.rest)).head?.any (·.token = .semi) := by
    cases s.rest.drop (SmallJava.boundaryDistance s.last s.rest) <;> rfl
  rw [hsemi]
  exact (h.skip _).note _ _

/-- Both parses give up the same tokens, and one more if nothing has been taken. -/
theorem abandon (h : M.Relates s s') (hset : M.Settled s) {start start' : Lexeme} (hstart : M.Same start start')
    (sync : Bool) : M.Relates (s.abandon M.setup start sync) (s'.abandon M.setup' start' sync) := by
  obtain ⟨hknown, rfl⟩ := hstart
  have hsync : M.Relates (if sync then s.synchronize M.setup else s)
      (if sync then s'.synchronize M.setup' else s') := by
    split
    · exact h.synchronize hset
    · exact h
  unfold State.abandon
  dsimp only
  generalize (if sync then s.synchronize M.setup else s) = t at hsync ⊢
  generalize (if sync then s'.synchronize M.setup' else s') = t' at hsync ⊢
  have hsame : (t'.current M.setup').location.span.start = (start.relocate M.move).location.span.start ↔
      (t.current M.setup).location.span.start = start.location.span.start := by
    rw [hsync.current]
    constructor
    · exact M.starts _ hsync.holds.knows_current _ hknown
    · intro heq
      simp [heq]
  simp only [hsame, hsync.token]
  split
  · exact hsync.skip 1
  · exact hsync

/-- Both parses skip to the same parenthesis. -/
theorem skipToCloser (h : M.Relates s s') : M.Relates s.skipToCloser s'.skipToCloser := by
  unfold State.skipToCloser
  rw [h.rest, closerDistance_relocate]
  exact h.skip _

end Relates

/-! ## Parsers -/

section Rules

variable {α β : Type} {R : α → α → Prop} {Q : β → β → Prop} {p p' : Parser α} {f f' : α → Parser β}

/-- Both parsers give a value, or both bail out in the same way, and the states are related. -/
def Agrees (M : Mirror) (R : α → α → Prop) :
    EStateM.Result Bailout State α → EStateM.Result Bailout State α → Prop
  | .ok a t, .ok a' t' => R a a' ∧ M.Relates t t'
  | .error b t, .error b' t' => b' = b ∧ M.Relates t t'
  | _, _ => False

/-- **Parsers that go the same way.** From related states they come to related states, with related values. -/
def Follows (M : Mirror) (p p' : Parser α) (R : α → α → Prop) : Prop :=
  ∀ s s', M.Relates s s' → M.Agrees R (p M.setup s) (p' M.setup' s')

/-- Two parsers that recover, from two given states. -/
theorem agrees_tryCatch {h h' : Bailout → Parser α} (hp : M.Agrees R (p M.setup s) (p' M.setup' s'))
    (hh : ∀ b t t', p M.setup s = .error b t → M.Relates t t' → M.Agrees R (h b M.setup t) (h' b M.setup' t')) :
    M.Agrees R (tryCatch p h M.setup s) (tryCatch p' h' M.setup' s') := by
  cases hr : p M.setup s with
  | ok a t =>
    cases hr' : p' M.setup' s' with
    | ok a' t' =>
      rw [hr, hr'] at hp
      rw [tryCatch_ok _ hr, tryCatch_ok _ hr']
      exact hp
    | error b' t' =>
      rw [hr, hr'] at hp
      exact hp.elim
  | error b t =>
    cases hr' : p' M.setup' s' with
    | ok a' t' =>
      rw [hr, hr'] at hp
      exact hp.elim
    | error b' t' =>
      rw [hr, hr'] at hp
      rw [tryCatch_error _ hr, tryCatch_error _ hr', hp.1]
      exact hh b t t' hr hp.2

theorem Follows.pure {a a' : α} (h : R a a') : M.Follows (pure a) (pure a') R := fun _ _ hs => ⟨h, hs⟩

theorem Follows.throw {b : Bailout} : M.Follows (throw b) (throw b) R := fun _ _ hs => ⟨rfl, hs⟩

/-- One parser after another: what follows may depend on values that are related. -/
theorem Follows.bind (hp : M.Follows p p' R) (hf : ∀ a a', R a a' → M.Follows (f a) (f' a') Q) :
    M.Follows (p >>= f) (p' >>= f') Q := by
  intro s s' hs
  have hfirst := hp s s' hs
  cases hr : p M.setup s with
  | ok a t =>
    cases hr' : p' M.setup' s' with
    | ok a' t' =>
      rw [hr, hr'] at hfirst
      rw [bind_ok f hr, bind_ok f' hr']
      exact hf a a' hfirst.1 t t' hfirst.2
    | error b' t' =>
      rw [hr, hr'] at hfirst
      exact hfirst.elim
  | error b t =>
    cases hr' : p' M.setup' s' with
    | ok a' t' =>
      rw [hr, hr'] at hfirst
      exact hfirst.elim
    | error b' t' =>
      rw [hr, hr'] at hfirst
      rw [bind_error f hr, bind_error f' hr']
      exact hfirst

/-- What is done after bailing out goes the same way too. -/
theorem Follows.tryCatch {h h' : Bailout → Parser α} (hp : M.Follows p p' R) (hh : ∀ b, M.Follows (h b) (h' b) R) :
    M.Follows (tryCatch p h) (tryCatch p' h') R := by
  intro s s' hs
  refine agrees_tryCatch (hp s s' hs) fun b t t' _ ht => hh b t t' ht

/-- Parsers that look at the state may rely on the relation. -/
theorem Follows.get_bind {g g' : State → Parser β} (h : ∀ s s', M.Relates s s' → M.Follows (g s) (g' s') Q) :
    M.Follows (get >>= g) (get >>= g') Q := fun s s' hs => h s s' hs s s' hs

theorem Follows.read_bind {g g' : Setup → Parser β} (h : M.Follows (g M.setup) (g' M.setup') Q) :
    M.Follows (read >>= g) (read >>= g') Q := h

/-- Parsers that do nothing but change the state. -/
theorem Follows.modify {g g' : State → State} (h : ∀ s s', M.Relates s s' → M.Relates (g s) (g' s')) :
    M.Follows (modify g) (modify g') fun _ _ => True := fun s s' hs => ⟨trivial, h s s' hs⟩

/-- Both parses take the same branch. -/
theorem Follows.ite {c : Prop} [Decidable c] {q q' : Parser α} (h : c → M.Follows p p' R)
    (h' : ¬ c → M.Follows q q' R) : M.Follows (if c then p else q) (if c then p' else q') R := by
  by_cases hc : c
  · simpa only [if_pos hc] using h hc
  · simpa only [if_neg hc] using h' hc

/-- Steps of loops that do the same. -/
inductive SameStep (R : α → α → Prop) : ForInStep α → ForInStep α → Prop
  | done {a a' : α} : R a a' → SameStep R (.done a) (.done a')
  | yield {a a' : α} : R a a' → SameStep R (.yield a) (.yield a')

/-- **Loops.** The two loops take as many steps, since they have the same number of tokens. -/
theorem Follows.loop {step step' : α → Parser (ForInStep α)} {a a' : α} (ha : R a a')
    (hstep : ∀ a a', R a a' → M.Follows (step a) (step' a') (SameStep R)) :
    M.Follows (loop a step) (loop a' step') R := by
  suffices h : ∀ (bound bound' : List Lexeme) (a a' : α), bound'.length = bound.length → R a a' →
      M.Follows (loopWithin step bound a) (loopWithin step' bound' a') R by
    refine .get_bind fun s s' hs => h s.rest s'.rest a a' ?_ ha
    simp [hs.rest]
  intro bound
  induction bound with
  | nil =>
    intro bound' a a' hlength ha
    obtain rfl := List.length_eq_zero_iff.1 hlength
    rw [loopWithin, loopWithin]
    refine .bind (hstep a a' ha) fun r r' hr => ?_
    cases hr with
    | done h => exact .pure h
    | yield h => exact .throw
  | cons x bound ih =>
    intro bound' a a' hlength ha
    obtain ⟨x', bound', rfl⟩ := List.exists_cons_of_length_eq_add_one hlength
    rw [loopWithin, loopWithin]
    refine .bind (hstep a a' ha) fun r r' hr => ?_
    cases hr with
    | done h => exact .pure h
    | yield h => exact ih bound' _ _ (by simpa using hlength) h

end Rules

/-! ## Tokens and problems -/

section Tokens

variable {α β : Type} {R : α → α → Prop}

/-- What the second parse gives is what the first one gives, moved. -/
def Moved (M : Mirror) (f : Relocation → α → α) (a a' : α) : Prop := a' = f M.move a

/-- The same for lists. -/
def MovedAll (M : Mirror) (f : Relocation → α → α) (as as' : List α) : Prop := as' = as.map (f M.move)

/-- The same for what may be absent. -/
def MovedOpt (M : Mirror) (f : Relocation → α → α) (o o' : Option α) : Prop := o' = o.map (f M.move)

theorem MovedAll.nil {f : Relocation → α → α} : M.MovedAll f [] [] := rfl

/-- A list that is moved item by item grows by one that is moved. -/
theorem MovedAll.concat {f : Relocation → α → α} {as as' : List α} {a a' : α} (has : M.MovedAll f as as')
    (ha : M.Moved f a a') : M.MovedAll f (as ++ [a]) (as' ++ [a']) := by
  rw [MovedAll, has, ha, List.map_append, List.map_singleton]

/-- To look at the current token gives the same token. -/
theorem follows_current : M.Follows current current M.Same := fun _ _ hs => ⟨hs.same_current, hs⟩

theorem follows_token : M.Follows token token Eq := fun _ _ hs => ⟨hs.token.symm, hs⟩

theorem follows_next : M.Follows next next M.Same := fun _ _ hs => ⟨hs.same_current, hs.next⟩

/-- A token that is there for one parse is there for the other. -/
theorem follows_got (t : Token) : M.Follows (got t) (got t) Eq := by
  refine .bind follows_token ?_
  rintro u _ rfl
  exact .ite (fun _ => .bind follows_next fun _ _ _ => .pure rfl) fun _ => .pure rfl

/-- From a token to the last one taken, in both parses. -/
theorem follows_spanFrom {l l' : Location} (hl : M.SameStart l l') :
    M.Follows (spanFrom l) (spanFrom l') (M.Moved Location.relocate) := fun _ _ hs => ⟨hs.spanFrom hl, hs⟩

/-- Both parses report the problem, each at its own place. -/
theorem follows_report {p p' : Problem} {l l' : Location} (hp : M.Moved Problem.relocate p p')
    (hl : M.Moved Location.relocate l l') : M.Follows (report p l) (report p' l') fun _ _ => True := by
  rw [hp, hl]
  exact fun _ _ hs => ⟨trivial, hs.report p l⟩

/-- Both parses fail, and either both report why or both resume behind a malformed token. -/
theorem follows_fail {p p' : Problem} (hp : M.Moved Problem.relocate p p') : M.Follows (fail p) (fail p') R := by
  intro s s' hs
  show M.Agrees R
    ((if s.afterMalformed (s.current M.setup) then _ else _ : Parser α) M.setup s)
    ((if s'.afterMalformed (s'.current M.setup') then _ else _ : Parser α) M.setup' s')
  rw [hs.afterMalformed, hs.current]
  split
  · exact ⟨rfl, hs.note _ _⟩
  · refine Follows.bind (follows_report hp rfl) (fun _ _ _ => ?_) s s' hs
    exact .throw

theorem follows_halt : M.Follows (halt (.nestedTooDeeply M.setup.maxDepth)) (halt (.nestedTooDeeply M.setup'.maxDepth))
    R := by
  refine .read_bind (.bind follows_current ?_)
  rintro x _ ⟨-, rfl⟩
  have hproblem :
      M.Moved Problem.relocate (.nestedTooDeeply M.setup.maxDepth) (.nestedTooDeeply M.setup'.maxDepth) := by
    rw [M.maxDepth_eq]
    rfl
  refine .bind (follows_report hproblem rfl) fun _ _ _ => ?_
  exact .bind (.modify fun _ _ hs => hs.stop) fun _ _ _ => .throw

/-- The token is there in both parses, or both fail at it. -/
theorem follows_want (t : Token) : M.Follows (want t) (want t) M.Same := by
  refine .bind follows_current ?_
  rintro x _ ⟨-, rfl⟩
  exact .ite (fun _ => follows_next) fun _ => follows_fail rfl

/-- Two parsers for a level that both parses have, or that neither has. -/
theorem follows_nested {ι : Type} {inner : Option ι} {p p' : ι → Parser α}
    (hp : ∀ i, inner = some i → M.Follows (p i) (p' i) R) : M.Follows (nested inner p) (nested inner p') R := by
  cases inner with
  | some i => exact hp i rfl
  | none => exact .read_bind follows_halt

end Tokens

/-! ## Lists -/

section Lists

variable {α : Type} {f : Relocation → α → α} {item : Parser α}

/-- Both parses add an item, and go on behind a comma or are done. -/
theorem follows_itemStep (hitem : M.Follows item item (M.Moved f)) {as as' : List α} (has : M.MovedAll f as as') :
    M.Follows (itemStep item as) (itemStep item as') (SameStep (M.MovedAll f)) := by
  refine .bind hitem fun a a' ha => .bind (follows_got _) ?_
  rintro more _ rfl
  exact .ite (fun _ => .pure (.yield (has.concat ha))) fun _ => .pure (.done (has.concat ha))

/-- Both lists are empty, or both have as many items. -/
theorem follows_separatedUntil (hitem : M.Follows item item (M.Moved f)) (ending : Token) :
    M.Follows (separatedUntil ending item) (separatedUntil ending item) (M.MovedAll f) := by
  refine .bind follows_token ?_
  rintro t _ rfl
  exact .ite (fun _ => .pure rfl) fun _ => .loop rfl fun _ _ => follows_itemStep hitem

theorem follows_optionalAfter (hitem : M.Follows item item (M.Moved f)) (t : Token) :
    M.Follows (optionalAfter t item) (optionalAfter t item) (M.MovedOpt f) := by
  refine .bind (follows_got t) ?_
  rintro found _ rfl
  refine .ite (fun _ => .bind hitem fun a a' ha => .pure ?_) fun _ => .pure rfl
  rw [MovedOpt, ha, Option.map_some]

end Lists

/-! ## Recovery -/

/-- Where the parser bails out, the first token left is not taken for the start of a line by one parse only. -/
def Settles {α : Type} (M : Mirror) (p : Parser α) : Prop :=
  ∀ s b t, M.Holds s → p M.setup s = .error b t → M.Settled t

/-- What is left of a statement that was given up is the text discarded, from the same token on. -/
theorem agrees_abandonStmt {start start' : Lexeme} (hstart : M.Same start start') (b : Bailout) (hs : M.Relates s s')
    (hset : M.Settled s) :
    M.Agrees (M.Moved Stmt.relocate) (abandonStmt start b M.setup s) (abandonStmt start' b M.setup' s') := by
  unfold abandonStmt
  split
  · exact ⟨rfl, hs⟩
  · have hgone := hs.abandon hset hstart (b = .resync)
    refine ⟨?_, hgone⟩
    rw [Moved, hgone.spanFrom hstart.start]
    rfl

/-- **Statements recover in the same way**, if what fails has settled where a line starts. -/
theorem follows_recoverStmt {p : Parser Stmt} (hp : M.Follows p p (M.Moved Stmt.relocate)) (hset : M.Settles p) :
    M.Follows (recoverStmt p) (recoverStmt p) (M.Moved Stmt.relocate) := by
  refine .bind follows_current fun start start' hstart s s' hs => agrees_tryCatch (hp s s' hs) ?_
  intro b t t' hr ht
  exact agrees_abandonStmt hstart b ht (hset s b t hs.holds hr)

theorem follows_abandonExpr {start start' : Lexeme} (hstart : M.Same start start') (b : Bailout) :
    M.Follows (abandonExpr start b) (abandonExpr start' b) (M.Moved Expr.relocate) := by
  refine .get_bind fun s s' hs => ?_
  rw [hs.halted]
  refine .ite (fun _ => .throw) fun _ => .bind (.modify fun _ _ hs => hs.skipToCloser) fun _ _ _ => ?_
  refine .bind (follows_spanFrom hstart.start) fun l l' hl => .pure ?_
  rw [Moved, hl]
  rfl

/-- **Expressions recover in the same way**, up to the same parenthesis. -/
theorem follows_recoverExpr {p : Parser Expr} (hp : M.Follows p p (M.Moved Expr.relocate)) :
    M.Follows (recoverExpr p) (recoverExpr p) (M.Moved Expr.relocate) := by
  have hcloser : M.Follows (upToCloser p) (upToCloser p) (M.Moved Expr.relocate) := by
    refine .bind hp fun x x' hx => .bind follows_current ?_
    rintro t _ ⟨-, rfl⟩
    exact .ite (fun _ => .pure hx) fun _ => follows_fail rfl
  exact .bind follows_current fun start start' hstart => .tryCatch hcloser fun b => follows_abandonExpr hstart b

end Mirror

end SmallJava
