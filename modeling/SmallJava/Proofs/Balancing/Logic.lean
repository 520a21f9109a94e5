import SmallJava.Proofs.Grammar.Extent
import SmallJava.Proofs.Reading.Logic

/-!
# Parsers and brackets

An expression closes the brackets that it opens, no others, and there is no semicolon in it. A parser of expressions
takes tokens accordingly, also when it gets stuck in the middle: then the brackets that it has opened are still open.

* `openAfter` — the brackets that are still open behind some tokens;
* `State.Reaches` — tokens have been taken, and nothing was found wrong but improper targets of assignments;
* `Tracks` — what a parser does to the brackets that are open, with a rule for each way to put parsers together and for
  the parsers that everything else is made of. A parser that gets stuck reports the token that it does not expect, and
  nothing after it.
-/

namespace SmallJava

/-! ## Brackets -/

namespace Token

/-- The token that closes what this one opens. -/
def closer? : Token → Option Token
  | .lParen => some .rParen
  | .lSquare => some .rSquare
  | .lBrace => some .rBrace
  | _ => none

/-- Whether the token closes something. -/
def isCloser : Token → Bool
  | .rParen | .rSquare | .rBrace => true
  | _ => false

end Token

/-- The tokens that are to close what is open behind the token `t`, the next one first, if `pending` is to be closed in
front of it. A token that closes something has to be the next one. -/
def openBehind (pending : List Token) (t : Token) : Option (List Token) :=
  match t.closer? with
  | some c => some (c :: pending)
  | none =>
    if t.isCloser then if pending.head? = some t then some pending.tail else none
    else some pending

/-- The tokens that are to close what is open behind the tokens `xs`. -/
def openAfter (pending : List Token) (xs : List Lexeme) : Option (List Token) :=
  xs.foldlM (fun pending x => openBehind pending x.token) pending

/-- What is open behind some tokens is open in front of the others. -/
theorem openAfter_append (pending : List Token) (xs ys : List Lexeme) :
    openAfter pending (xs ++ ys) = (openAfter pending xs).bind (openAfter · ys) :=
  List.foldlM_append

/-- The tokens `xs` lead from the open brackets `σ` to the open brackets `τ`, and no semicolon is among them. -/
structure Leads (σ : List Token) (xs : List Lexeme) (τ : List Token) : Prop where
  brackets : openAfter σ xs = some τ
  semis : ∀ x ∈ xs, x.token ≠ .semi

namespace Leads

variable {σ τ υ : List Token} {xs ys : List Lexeme}

theorem nil (σ : List Token) : Leads σ [] σ := ⟨rfl, by simp⟩

/-- One token, which is no semicolon. -/
theorem single {x : Lexeme} (h : openBehind σ x.token = some τ) (hx : x.token ≠ .semi) : Leads σ [x] τ :=
  ⟨by simp [openAfter, h], by simpa using hx⟩

/-- Some tokens, and then others. -/
theorem append (h : Leads σ xs τ) (h' : Leads τ ys υ) : Leads σ (xs ++ ys) υ where
  brackets := by rw [openAfter_append, h.brackets, Option.bind_some, h'.brackets]
  semis := by
    intro x hx
    rcases List.mem_append.1 hx with hx | hx
    · exact h.semis x hx
    · exact h'.semis x hx

end Leads

/-- What stands in front of the first semicolon. -/
theorem takeWhile_semi {xs back : List Lexeme} {semi : Lexeme} (hxs : ∀ x ∈ xs, x.token ≠ .semi)
    (hsemi : semi.token = .semi) : (xs ++ semi :: back).takeWhile (·.token ≠ .semi) = xs := by
  rw [List.takeWhile_append_of_pos (by simpa using hxs)]
  simp [hsemi]

/-! ## States -/

/-- The diagnostic is about an improper target among the tokens `xs`, in front of an assignment operator. -/
structure Misassigned (xs : List Lexeme) (d : Diagnostic) : Prop where
  code : d.code = .invalidAssignmentTarget
  target : ∃ us ys op vs, xs = us ++ ys ++ op :: vs ∧ ys ≠ [] ∧ op.token.isAssign = true ∧ d.location = extent ys

/-- An improper target is one among more tokens. -/
theorem Misassigned.append {xs : List Lexeme} {d : Diagnostic} (h : Misassigned xs d) (us vs : List Lexeme) :
    Misassigned (us ++ xs ++ vs) d where
  code := h.code
  target := by
    obtain ⟨us', ys, op, vs', rfl, hne, hop, hloc⟩ := h.target
    exact ⟨us ++ us', ys, op, vs' ++ vs, by simp, hne, hop, hloc⟩

namespace State

variable {s s' s'' : State} {σ τ υ : List Token} {xs ys all : List Lexeme}

/-- **A semicolon is ahead.** The parse of the tokens `all` goes on, it has not come to the first semicolon, and no token
in front of that is malformed. -/
structure Heads (s : State) (all : List Lexeme) : Prop where
  running : s.halted = false
  ahead : ∃ taken xs semi back, all = taken ++ s.rest ∧ s.rest = xs ++ semi :: back ∧ s.last = taken.getLast? ∧
    semi.token = .semi ∧ ∀ x ∈ taken ++ xs, x.token ≠ .semi ∧ x.token ≠ .invalid

/-- Tokens that are taken stand in front of the next semicolon, unless one of them is a semicolon. -/
theorem Takes.front {semi : Lexeme} {back : List Lexeme} (h : s.Takes xs s') (hxs : ∀ x ∈ xs, x.token ≠ .semi)
    (hrest : s.rest = ys ++ semi :: back) (hsemi : semi.token = .semi) :
    ∃ zs, ys = xs ++ zs ∧ s'.rest = zs ++ semi :: back := by
  rcases List.append_eq_append_iff.1 (h.rest.symm.trans hrest) with ⟨zs, hy, hr⟩ | ⟨zs, hx, hr⟩
  · exact ⟨zs, hy, hr⟩
  · cases zs with
    | nil => exact ⟨[], by simpa using hx.symm, by simpa using hr.symm⟩
    | cons z zs =>
      obtain ⟨rfl, -⟩ := List.cons.inj hr
      exact absurd hsemi (hxs semi (by simp [hx]))

/-- **Reaching a state.** `s'` is `s` after the tokens `xs` have been taken, which lead from the open brackets `σ` to
the open brackets `τ`; nothing was found wrong with them but improper targets of assignments. -/
structure Reaches (s : State) (σ : List Token) (xs : List Lexeme) (τ : List Token) (s' : State) : Prop where
  takes : s.Takes xs s'
  leads : Leads σ xs τ
  running : s'.halted = false
  problems : ∃ ms : Diagnostics, s'.problems = s.problems ++ ms ∧ ∀ d ∈ ms, Misassigned xs d

namespace Reaches

theorem refl (h : s.halted = false) (σ : List Token) : s.Reaches σ [] σ s :=
  ⟨.refl s, .nil σ, h, [], by simp, by simp⟩

/-- Reaching one state, and another one from there. -/
theorem trans (h : s.Reaches σ xs τ s') (h' : s'.Reaches τ ys υ s'') : s.Reaches σ (xs ++ ys) υ s'' where
  takes := h.takes.trans h'.takes
  leads := h.leads.append h'.leads
  running := h'.running
  problems := by
    obtain ⟨ms, hms, hm⟩ := h.problems
    obtain ⟨ns, hns, hn⟩ := h'.problems
    refine ⟨ms ++ ns, by rw [hns, hms, List.append_assoc], fun d hd => ?_⟩
    rcases List.mem_append.1 hd with hd | hd
    · simpa using (hm d hd).append [] ys
    · simpa using (hn d hd).append xs []

/-- Taking a token reaches the state behind it. -/
theorem next {x : Lexeme} {r : List Lexeme} (hh : s.halted = false) (h : s.rest = x :: r)
    (hb : openBehind σ x.token = some τ) (hx : x.token ≠ .semi) :
    s.Reaches σ [x] τ { s with rest := r, last := some x } :=
  ⟨.next h, .single hb hx, hh, [], by simp, by simp⟩

/-- An improper target among the tokens is reported. -/
theorem addProblem (h : s.Reaches σ xs τ s') {setup : Setup} {p : Problem} {loc : Location}
    (hp : Misassigned xs { problem := p, location := loc, source := setup.name }) :
    s.Reaches σ xs τ (s'.addProblem setup p loc) where
  takes := by simpa using h.takes.trans (.addProblem setup s' p loc)
  leads := h.leads
  running := h.running
  problems := by
    obtain ⟨ms, hms, hm⟩ := h.problems
    refine ⟨ms ++ [{ problem := p, location := loc, source := setup.name }], by simp [State.addProblem, hms], ?_⟩
    intro d hd
    rcases List.mem_append.1 hd with hd | hd
    · exact hm d hd
    · rwa [List.mem_singleton.1 hd]

end Reaches

namespace Heads

theorem place (hs : s.Heads all) : s.At all := by
  obtain ⟨taken, xs, semi, back, hall, -, hlast, -⟩ := hs.ahead
  exact ⟨⟨taken, hall, hlast⟩, fun hh => by simp [hs.running] at hh⟩

/-- A semicolon that has not been taken is still ahead. -/
theorem takes (hs : s.Heads all) (h : s.Takes xs s') (hxs : ∀ x ∈ xs, x.token ≠ .semi) (hrunning : s'.halted = false) :
    s'.Heads all := by
  obtain ⟨taken, ys, semi, back, hall, hrest, hlast, hsemi, hfront⟩ := hs.ahead
  obtain ⟨zs, rfl, hzs⟩ := h.front hxs hrest hsemi
  refine ⟨hrunning, taken ++ xs, zs, semi, back, ?_, hzs, ?_, hsemi, by simpa using hfront⟩
  · rw [hall, h.rest, List.append_assoc]
  · rw [h.last, hlast, List.getLast?_append]

theorem reaches (hs : s.Heads all) (h : s.Reaches σ xs τ s') : s'.Heads all :=
  hs.takes h.takes h.leads.semis h.running

/-- With a semicolon ahead there is a current token. -/
theorem rest_eq (hs : s.Heads all) (setup : Setup) : s.rest = s.current setup :: s.rest.tail := by
  obtain ⟨taken, xs, semi, back, -, hrest, -⟩ := hs.ahead
  cases xs with
  | nil => simp [current, hrest]
  | cons x xs => simp [current, hrest]

/-- The current token stands in front of the first semicolon, or is that. -/
theorem mem_front (hs : s.Heads all) (setup : Setup) :
    (s.current setup).token = .semi ∨ s.current setup ∈ all.takeWhile (·.token ≠ .semi) := by
  obtain ⟨taken, xs, semi, back, hall, hrest, -, hsemi, hfront⟩ := hs.ahead
  cases xs with
  | nil => exact .inl (by simpa [current, hrest] using hsemi)
  | cons x xs =>
    have hall' : all = (taken ++ x :: xs) ++ semi :: back := by rw [hall, hrest, List.append_assoc]
    rw [hall', takeWhile_semi (fun y hy => (hfront y hy).1) hsemi]
    exact .inr (by simp [current, hrest])

/-- No token in front of the semicolon is malformed. -/
theorem token_ne_invalid (hs : s.Heads all) (setup : Setup) : (s.current setup).token ≠ .invalid := by
  obtain ⟨taken, xs, semi, back, -, hrest, -, hsemi, hfront⟩ := hs.ahead
  cases xs with
  | nil => simp [current, hrest, hsemi]
  | cons x xs => simpa [current, hrest] using (hfront x (by simp)).2

/-- No malformed token has been taken last, so a failure is always reported. -/
theorem afterMalformed (hs : s.Heads all) (x : Lexeme) : s.afterMalformed x = false := by
  obtain ⟨taken, xs, semi, back, -, -, hlast, -, hfront⟩ := hs.ahead
  unfold State.afterMalformed
  rw [hlast]
  cases hl : taken.getLast? with
  | none => rfl
  | some l => simp [(hfront l (by simp [List.mem_of_getLast? hl])).2]

end Heads

/-- The parse has been halted since there was no nesting level left. -/
def TooDeep (s : State) : Prop := ∃ d ∈ s.problems, d.code = .maxNestingDepthExceeded

/-- **Getting stuck.** After some tokens, the current one has been reported as unexpected. -/
def Sticks (setup : Setup) (s : State) (σ : List Token) (xs : List Lexeme) (s' : State) : Prop :=
  ∃ s₁ τ p, s.Reaches σ xs τ s₁ ∧ p.code = .unexpectedToken ∧ s' = s₁.addProblem setup p (s₁.current setup).location

/-- How a parser bails out: it got stuck, or the nesting was too deep. That a loop stalls is not ruled out here. -/
def Stops (setup : Setup) (s : State) (σ : List Token) (b : Bailout) (s' : State) : Prop :=
  b = .stalled ∨ s'.TooDeep ∨ b = .resync ∧ ∃ xs, s.Sticks setup σ xs s'

/-- Getting stuck after some tokens is getting stuck. -/
theorem Stops.after {setup : Setup} {b : Bailout} (h : s.Reaches σ xs τ s') (hr : s'.Stops setup τ b s'') :
    s.Stops setup σ b s'' := by
  refine hr.imp_right (Or.imp_right ?_)
  rintro ⟨hb, ys, s₁, υ, p, hy, hp, rfl⟩
  exact ⟨hb, xs ++ ys, s₁, υ, p, h.trans hy, hp, rfl⟩

end State

namespace Parser

/-! ## The judgement -/

/-- What has become of a state `s` in which the brackets `σ` were open: if there is a value, the brackets `τ` are. -/
def Tracked {α : Type} (setup : Setup) (s : State) (σ τ : List Token) : EStateM.Result Bailout State α → Prop
  | .ok _ s' => ∃ xs, s.Reaches σ xs τ s'
  | .error b s' => s.Stops setup σ b s'

/-- **What a parser does to the open brackets**, when started in `s`. -/
def Tracks {α : Type} (setup : Setup) (p : Parser α) (s : State) (σ τ : List Token) : Prop :=
  Tracked setup s σ τ (p setup s)

/-- **A parser that comes to no value**, when started in `s`. -/
def BailsOut {α : Type} (setup : Setup) (p : Parser α) (s : State) (σ : List Token) : Prop :=
  ∃ b s', p setup s = .error b s' ∧ s.Stops setup σ b s'

section Rules

variable {α β : Type} {setup : Setup} {all : List Lexeme} {s s' : State} {σ τ υ : List Token} {p : Parser α}
  {f : α → Parser β}

/-- What comes after some tokens, seen from in front of them. -/
theorem Tracked.after {xs : List Lexeme} {r : EStateM.Result Bailout State α} (h : s.Reaches σ xs τ s')
    (hr : Tracked setup s' τ υ r) : Tracked setup s σ υ r := by
  cases r with
  | ok a s'' =>
    obtain ⟨ys, hy⟩ := hr
    exact ⟨xs ++ ys, h.trans hy⟩
  | error b s'' => exact State.Stops.after h hr

theorem Tracks.pure {a : α} (h : s.halted = false) (σ : List Token) : Tracks setup (pure a) s σ σ :=
  ⟨[], .refl h σ⟩

/-- One parser after another. -/
theorem Tracks.bind (hs : s.Heads all) (hp : Tracks setup p s σ τ)
    (hf : ∀ a s', p setup s = .ok a s' → s'.Heads all → Tracks setup (f a) s' τ υ) :
    Tracks setup (p >>= f) s σ υ := by
  unfold Tracks at hp ⊢
  cases hr : p setup s with
  | ok a s' =>
    rw [hr] at hp
    obtain ⟨xs, hx⟩ := hp
    rw [bind_ok f hr]
    exact .after hx (hf a s' hr (hs.reaches hx))
  | error b s' =>
    rw [hr] at hp
    rw [bind_error f hr]
    exact hp

/-- A parser that bails out does so before anything that follows it. -/
theorem BailsOut.bind (h : BailsOut setup p s σ) (f : α → Parser β) : BailsOut setup (p >>= f) s σ := by
  obtain ⟨b, s', hr, hb⟩ := h
  exact ⟨b, s', bind_error f hr, hb⟩

/-- A parser, and behind it one that comes to no value. -/
theorem Tracks.bailsOut (hs : s.Heads all) (hp : Tracks setup p s σ τ)
    (hf : ∀ a s', p setup s = .ok a s' → s'.Heads all → BailsOut setup (f a) s' τ) : BailsOut setup (p >>= f) s σ := by
  unfold Tracks at hp
  cases hr : p setup s with
  | ok a s' =>
    rw [hr] at hp
    obtain ⟨xs, hx⟩ := hp
    obtain ⟨b, s'', hr', hb⟩ := hf a s' hr (hs.reaches hx)
    exact ⟨b, s'', (bind_ok f hr).trans hr', .after hx hb⟩
  | error b s' =>
    rw [hr] at hp
    exact ⟨b, s', bind_error f hr, hp⟩

/-! Parsers that only look at the state take nothing. -/

theorem tracks_current_bind {f : Lexeme → Parser β} :
    Tracks setup (current >>= f) s σ τ ↔ Tracks setup (f (s.current setup)) s σ τ := Iff.rfl

theorem tracks_token_bind {f : Token → Parser β} :
    Tracks setup (token >>= f) s σ τ ↔ Tracks setup (f (s.current setup).token) s σ τ := Iff.rfl

theorem tracks_get_bind {f : State → Parser β} :
    Tracks setup (get >>= f) s σ τ ↔ Tracks setup (f s) s σ τ := Iff.rfl

theorem tracks_spanFrom_bind {loc : Location} {f : Location → Parser β} :
    Tracks setup (spanFrom loc >>= f) s σ τ ↔ Tracks setup (f (s.spanFrom loc)) s σ τ := Iff.rfl

theorem bailsOut_current_bind {f : Lexeme → Parser β} :
    BailsOut setup (current >>= f) s σ ↔ BailsOut setup (f (s.current setup)) s σ := Iff.rfl

/-- The current token is taken. -/
theorem tracks_next (hs : s.Heads all) (hb : openBehind σ (s.current setup).token = some τ)
    (hx : (s.current setup).token ≠ .semi) : Tracks setup next s σ τ :=
  ⟨[s.current setup], .next hs.running (hs.rest_eq setup) hb hx⟩

/-- A token that is not expected is reported, and nothing else is done. -/
theorem fail_eq (hmax : setup.maxErrors = none) (hs : s.Heads all) (q : Problem) :
    fail (α := α) q setup s = .error .resync (s.addProblem setup q (s.current setup).location) := by
  show (if s.afterMalformed (s.current setup) then _ else _ : Parser α) setup s = _
  rw [hs.afterMalformed]
  show EStateM.Result.error Bailout.resync (s.report setup q (s.current setup).location) = _
  simp [State.report, hs.running, hmax]

/-- Reporting the current token is getting stuck at it. -/
theorem stops_addProblem (hs : s.Heads all) {q : Problem} (hq : q.code = .unexpectedToken) :
    s.Stops setup σ .resync (s.addProblem setup q (s.current setup).location) :=
  .inr (.inr ⟨rfl, [], s, σ, q, .refl hs.running σ, hq, rfl⟩)

/-- A failure is reported, since no malformed token stands before it. -/
theorem bailsOut_fail (hmax : setup.maxErrors = none) (hs : s.Heads all) {q : Problem}
    (hq : q.code = .unexpectedToken) : BailsOut setup (fail (α := α) q) s σ :=
  ⟨_, _, fail_eq hmax hs q, stops_addProblem hs hq⟩

theorem tracks_fail (hmax : setup.maxErrors = none) (hs : s.Heads all) {q : Problem} (hq : q.code = .unexpectedToken) :
    Tracks setup (fail (α := α) q) s σ τ := by
  unfold Tracks
  rw [fail_eq hmax hs]
  exact stops_addProblem hs hq

/-- A token that is not there. -/
theorem bailsOut_want (hmax : setup.maxErrors = none) (hs : s.Heads all) {t : Token}
    (ht : (s.current setup).token ≠ t) : BailsOut setup (want t) s σ := by
  have hfail : want t setup s = fail (.expectedToken [t] (s.current setup)) setup s := by
    show (if (s.current setup).token = t then _ else _ : Parser Lexeme) setup s = _
    rw [if_neg ht]
  obtain ⟨b, s', hrun, hb⟩ :=
    bailsOut_fail (α := Lexeme) (σ := σ) hmax hs (q := .expectedToken [t] (s.current setup)) rfl
  exact ⟨b, s', hfail.trans hrun, hb⟩

/-- A token that is wanted changes what is open, or the parser gets stuck at another one. -/
theorem tracks_want (hmax : setup.maxErrors = none) (hs : s.Heads all) {t : Token} (hb : openBehind σ t = some τ)
    (ht : t ≠ .semi) : Tracks setup (want t) s σ τ := by
  unfold want
  rw [tracks_current_bind]
  split
  · next h =>
    subst h
    exact tracks_next hs hb ht
  · exact tracks_fail hmax hs rfl

/-- A token that may be there, and that neither opens nor closes anything. -/
theorem tracks_got (hs : s.Heads all) {t : Token} (hb : openBehind σ t = some σ) (ht : t ≠ .semi) :
    Tracks setup (got t) s σ σ := by
  unfold got
  rw [tracks_token_bind]
  split
  · next h =>
    subst h
    exact .bind hs (tracks_next hs hb ht) fun _ _ _ hs' => .pure hs'.running σ
  · exact .pure hs.running σ

/-- There is no level left. -/
theorem bailsOut_nested_none {ι : Type} (p : ι → Parser α) (hmax : setup.maxErrors = none) (hs : s.Heads all) :
    BailsOut setup (nested none p) s σ := by
  let d : Diagnostic := ⟨.nestedTooDeeply setup.maxDepth, (s.current setup).location, setup.name, .error⟩
  refine ⟨_, _, rfl, .inr (.inl ⟨d, ?_, rfl⟩)⟩
  simp [d, State.report, State.addProblem, State.stop, State.skip, State.note, hs.running, hmax]

/-- Without a level left the parse is halted as too deep. -/
theorem tracks_nested {ι : Type} {inner : Option ι} {p : ι → Parser α} (hmax : setup.maxErrors = none)
    (hs : s.Heads all) (hp : ∀ i, inner = some i → Tracks setup (p i) s σ τ) : Tracks setup (nested inner p) s σ τ := by
  cases inner with
  | some i => exact hp i rfl
  | none =>
    obtain ⟨b, s', hrun, hb⟩ := bailsOut_nested_none (σ := σ) p hmax hs
    unfold Tracks
    rw [hrun]
    exact hb

/-! ## Lists -/

/-- A loop whose steps leave the open brackets as they are. -/
theorem tracks_loop {step : α → Parser (ForInStep α)} (hs : s.Heads all)
    (hstep : ∀ a (s : State), s.Heads all → Tracks setup (step a) s σ σ) (a : α) :
    Tracks setup (loop a step) s σ σ := by
  suffices h : ∀ bound a s, s.Heads all → Tracks setup (loopWithin step bound a) s σ σ from h s.rest a s hs
  intro bound
  induction bound with
  | nil =>
    intro a s hs
    rw [loopWithin]
    refine .bind hs (hstep a s hs) fun r s' _ hs' => ?_
    cases r with
    | done b => exact .pure hs'.running σ
    | yield b => exact .inl rfl
  | cons x bound ih =>
    intro a s hs
    rw [loopWithin]
    refine .bind hs (hstep a s hs) fun r s' _ hs' => ?_
    cases r with
    | done b => exact .pure hs'.running σ
    | yield b => exact ih b s' hs'

variable {item : Parser α}

theorem tracks_itemStep (hs : s.Heads all) (hitem : Tracks setup item s σ σ) (items : List α) :
    Tracks setup (itemStep item items) s σ σ := by
  refine .bind hs hitem fun a s₁ _ hs₁ => .bind hs₁ (tracks_got hs₁ rfl (by decide)) fun more s₂ _ hs₂ => ?_
  split
  · exact .pure hs₂.running σ
  · exact .pure hs₂.running σ

/-- A list leaves what is open as its items do. -/
theorem tracks_separatedUntil (hs : s.Heads all) (hitem : ∀ s : State, s.Heads all → Tracks setup item s σ σ)
    (ending : Token) : Tracks setup (separatedUntil ending item) s σ σ := by
  unfold separatedUntil
  rw [tracks_token_bind]
  split
  · exact .pure hs.running σ
  · exact tracks_loop hs (fun items s hs => tracks_itemStep hs (hitem s hs) items) []

theorem tracks_optionalAfter (hs : s.Heads all) {t : Token} (hb : openBehind σ t = some σ) (ht : t ≠ .semi)
    (hp : ∀ s : State, s.Heads all → Tracks setup p s σ σ) : Tracks setup (optionalAfter t p) s σ σ := by
  refine .bind hs (tracks_got hs hb ht) fun present s₁ _ hs₁ => ?_
  split
  · exact .bind hs₁ (hp s₁ hs₁) fun _ _ _ hs₂ => .pure hs₂.running σ
  · exact .pure hs₁.running σ

end Rules

end Parser

end SmallJava
