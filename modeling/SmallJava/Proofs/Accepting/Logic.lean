import SmallJava.Proofs.Reading.Logic

/-!
# Parsers accept derivations

The other direction of the logic of parsers: a parser that stands before the tokens of a derivation takes exactly
these tokens, gives the tree of the derivation, and reports nothing but what the grammar is lax about.

* `State.Passes` — the tokens are taken and the parse goes on;
* `Accepts` — what a parser does before the tokens of a derivation, with `Accepts.bind` and a rule for each of
  the parsers that everything else is made of;
* `Repeats`, `Finishes` — what the steps of a loop pass, and the loop itself.
-/

namespace SmallJava

open Grammar

/-- A problem with what a text means and not with how it is put together: it is reported, and the text is read all
the same. -/
def Problem.isMild : Problem → Bool
  | .cannotAssign _ | .tryWithoutHandler => true
  | _ => false

/-- The kind of the first token, or the end marker. -/
def headToken : List Lexeme → Token
  | [] => .eof
  | x :: _ => x.token

@[simp] theorem headToken_nil : headToken [] = .eof := rfl

@[simp] theorem headToken_cons (x : Lexeme) (xs : List Lexeme) : headToken (x :: xs) = x.token := rfl

/-- What comes first is the first token of what is not empty. -/
theorem headToken_append {xs : List Lexeme} (h : xs ≠ []) (ys : List Lexeme) :
    headToken (xs ++ ys) = headToken xs := by
  cases xs with
  | nil => exact absurd rfl h
  | cons x xs => rfl

/-- A mode without error productions. -/
structure Grammar.Mode.Exact (m : Mode) : Prop where
  errors : ¬ m.errors
  opens : ¬ m.opens
  halts : ¬ m.halts

/-- What the mode is lax about does not halt the parse. -/
def Setup.Bears (setup : Setup) (m : Mode) : Prop := setup.maxErrors = none ∨ ¬ m.lax

namespace State

/-- **Passing tokens.** `s'` is `s` after the tokens `xs` have been taken without a problem, apart from mild ones if the
mode is lax. -/
structure Passes (m : Mode) (s : State) (xs : List Lexeme) (s' : State) : Prop where
  rest : s.rest = xs ++ s'.rest
  last : s'.last = xs.getLast?.or s.last
  running : s'.halted = false
  problems : ∃ ps : Diagnostics, s'.problems = s.problems ++ ps ∧ (∀ d ∈ ps, d.problem.isMild = true) ∧
    (m.lax ∨ ps = [])

/-- The state is one of a parse of the tokens `all` that goes on with the tokens `xs`. -/
structure Ready (s : State) (all xs : List Lexeme) : Prop where
  place : s.At all
  running : s.halted = false
  rest : s.rest = xs

variable {m : Mode} {s s' s'' : State} {all xs ys rest : List Lexeme} {setup : Setup}

namespace Passes

theorem refl (h : s.halted = false) : s.Passes m [] s :=
  ⟨rfl, by simp, h, [], by simp, by simp, .inr rfl⟩

/-- Passing some tokens, and then others. -/
theorem trans (h : s.Passes m xs s') (h' : s'.Passes m ys s'') : s.Passes m (xs ++ ys) s'' where
  rest := by rw [h.rest, h'.rest, List.append_assoc]
  last := by rw [h'.last, h.last, List.getLast?_append, Option.or_assoc]
  running := h'.running
  problems := by
    obtain ⟨ps, hps, hmild, hlax⟩ := h.problems
    obtain ⟨qs, hqs, hmild', hlax'⟩ := h'.problems
    refine ⟨ps ++ qs, by rw [hqs, hps, List.append_assoc], ?_, ?_⟩
    · intro d hd
      rcases List.mem_append.1 hd with hd | hd
      · exact hmild d hd
      · exact hmild' d hd
    · rcases hlax with hlax | rfl
      · exact .inl hlax
      · exact hlax'

theorem next {x : Lexeme} (hh : s.halted = false) (h : s.rest = x :: rest) :
    s.Passes m [x] { s with rest := rest, last := some x } :=
  ⟨h, rfl, hh, [], by simp, by simp, .inr rfl⟩

/-- Where nothing is lax, nothing is reported. -/
theorem problems_eq (h : s.Passes m xs s') (hm : ¬ m.lax) : s'.problems = s.problems := by
  obtain ⟨ps, hps, -, hnone⟩ := h.problems
  rw [hps, hnone.resolve_left hm, List.append_nil]

/-- Tokens that have been passed have been taken. -/
theorem takes (h : s.Passes m xs s') : s.Takes xs s' where
  rest := h.rest
  last := h.last
  problems := by
    obtain ⟨ps, hps, -⟩ := h.problems
    rw [hps]
    exact List.prefix_append _ _
  halted hh := by simp [h.running] at hh

end Passes

/-- A state that has passed what it stood before stands before the rest. -/
theorem Ready.passes (hs : s.Ready all (xs ++ rest)) (h : s.Passes m xs s') : s'.Ready all rest where
  place := hs.place.takes h.takes
  running := h.running
  rest := List.append_cancel_left (h.rest.symm.trans hs.rest)

theorem Ready.current {x : Lexeme} (hs : s.Ready all (x :: rest)) : s.current setup = x := by
  simp [State.current, hs.rest]

/-- Before no token stands the end marker. -/
theorem Ready.token (hw : setup.Suits all) (hs : s.Ready all xs) : (s.current setup).token = headToken xs := by
  cases xs with
  | nil => simp [State.current, hs.rest, hw.eof]
  | cons x xs => simp [State.current, hs.rest]

end State

namespace Parser

/-- **What a parser accepts.** Started in `s`, the parser passes the tokens `xs` and gives `a`. -/
def Accepts {α : Type} (setup : Setup) (m : Mode) (p : Parser α) (s : State) (xs : List Lexeme) (a : α) : Prop :=
  ∃ s', p setup s = .ok a s' ∧ s.Passes m xs s'

/-- The parser accepts the tokens `xs` wherever they stand, if `F` holds of what follows them. -/
def AcceptsBefore {α : Type} (setup : Setup) (m : Mode) (all : List Lexeme) (p : Parser α) (F : List Lexeme → Prop)
    (xs : List Lexeme) (a : α) : Prop :=
  ∀ (s : State) (rest : List Lexeme), s.Ready all (xs ++ rest) → F rest → Accepts setup m p s xs a

section Rules

variable {α β : Type} {setup : Setup} {m : Mode} {all xs ys rest : List Lexeme} {s : State} {p : Parser α}
  {f : α → Parser β} {a : α} {b : β}

theorem Accepts.pure (h : s.halted = false) : Accepts setup m (pure a) s [] a := ⟨s, rfl, .refl h⟩

/-- One parser after another. -/
theorem Accepts.bind (hp : Accepts setup m p s xs a) (hs : s.Ready all (xs ++ rest))
    (hf : ∀ s', s.Passes m xs s' → s'.Ready all rest → Accepts setup m (f a) s' ys b) :
    Accepts setup m (p >>= f) s (xs ++ ys) b := by
  obtain ⟨s', hrun, hpass⟩ := hp
  obtain ⟨s'', hrun', hpass'⟩ := hf s' hpass (hs.passes hpass)
  exact ⟨s'', (bind_ok f hrun).trans hrun', hpass.trans hpass'⟩

/-- A parser, and then something that takes no token. -/
theorem Accepts.last (hp : Accepts setup m p s xs a) (hs : s.Ready all (xs ++ rest))
    (hf : ∀ s', s.Passes m xs s' → s'.Ready all rest → Accepts setup m (f a) s' [] b) :
    Accepts setup m (p >>= f) s xs b := by
  simpa using hp.bind hs hf

/-! Parsers that only look at the state take nothing. -/

/-- To look at the current token passes nothing. -/
theorem accepts_current_bind {f : Lexeme → Parser β} :
    Accepts setup m (current >>= f) s xs b ↔ Accepts setup m (f (s.current setup)) s xs b := Iff.rfl

theorem accepts_token_bind {f : Token → Parser β} :
    Accepts setup m (token >>= f) s xs b ↔ Accepts setup m (f (s.current setup).token) s xs b := Iff.rfl

theorem accepts_get_bind {f : State → Parser β} :
    Accepts setup m (get >>= f) s xs b ↔ Accepts setup m (f s) s xs b := Iff.rfl

theorem accepts_spanFrom_bind {loc : Location} {f : Location → Parser β} :
    Accepts setup m (spanFrom loc >>= f) s xs b ↔ Accepts setup m (f (s.spanFrom loc)) s xs b := Iff.rfl

theorem accepts_atVarDecl_bind {f : Bool → Parser β} :
    Accepts setup m (atVarDecl >>= f) s xs b ↔ Accepts setup m (f (startsVarDecl s.rest)) s xs b := Iff.rfl

theorem accepts_atMethodDecl_bind {f : Bool → Parser β} :
    Accepts setup m (atMethodDecl >>= f) s xs b ↔ Accepts setup m (f (startsMethodDecl s.rest)) s xs b := Iff.rfl

end Rules

/-! ## Single tokens -/

section Tokens

variable {α β : Type} {setup : Setup} {m : Mode} {all xs ys rest : List Lexeme} {s : State} {x : Lexeme} {t : Token}
  {b : β}

/-- The first token is taken. -/
theorem accepts_next (hs : s.Ready all (x :: rest)) : Accepts setup m next s [x] x := by
  refine ⟨{ s with rest := rest, last := some x }, ?_, .next hs.running hs.rest⟩
  show EStateM.Result.ok (s.current setup) { s with rest := s.rest.tail, last := some (s.current setup) } = _
  rw [hs.current, hs.rest]
  rfl

/-- The first token is taken, and the rest of the parser stands before the others. -/
theorem accepts_next_bind {f : Lexeme → Parser β} (hs : s.Ready all (x :: rest))
    (hf : ∀ s', s.Passes m [x] s' → s'.Ready all rest → Accepts setup m (f x) s' ys b) :
    Accepts setup m (next >>= f) s (x :: ys) b :=
  (accepts_next hs).bind hs hf

/-- The token that is wanted is there. -/
theorem accepts_want (hs : s.Ready all (x :: rest)) (hx : x.token = t) : Accepts setup m (want t) s [x] x := by
  unfold want
  rw [accepts_current_bind, hs.current, if_pos hx]
  exact accepts_next hs

theorem accepts_want_bind {f : Lexeme → Parser β} (hs : s.Ready all (x :: rest)) (hx : x.token = t)
    (hf : ∀ s', s.Passes m [x] s' → s'.Ready all rest → Accepts setup m (f x) s' ys b) :
    Accepts setup m (want t >>= f) s (x :: ys) b :=
  (accepts_want hs hx).bind hs hf

/-- A token that is there is taken, and the parser goes on accordingly. -/
theorem accepts_got_bind {f : Bool → Parser β} (hs : s.Ready all (x :: rest)) (hx : x.token = t)
    (hf : ∀ s', s.Passes m [x] s' → s'.Ready all rest → Accepts setup m (f true) s' ys b) :
    Accepts setup m (got t >>= f) s (x :: ys) b := by
  have hgot : Accepts setup m (got t) s [x] true := by
    unfold got
    rw [accepts_token_bind, hs.current, if_pos hx]
    exact accepts_next_bind hs fun s' _ hs' => .pure hs'.running
  exact hgot.bind hs hf

/-- A token that is not there is not taken. -/
theorem accepts_got_bind_of_ne {f : Bool → Parser β} (hw : setup.Suits all) (hs : s.Ready all rest)
    (hne : headToken rest ≠ t) (hf : Accepts setup m (f false) s ys b) : Accepts setup m (got t >>= f) s ys b := by
  have hgot : got t setup s = .ok false s := by
    show (if (s.current setup).token = t then _ else _ : Parser Bool) setup s = _
    rw [hs.token hw, if_neg hne]
    rfl
  obtain ⟨s', hrun, hpass⟩ := hf
  exact ⟨s', (bind_ok f hgot).trans hrun, hpass⟩

/-- Where the mode is lax, a mild problem is reported and nothing else happens. -/
theorem accepts_report (hh : s.halted = false) (hb : setup.Bears m) (hlax : m.lax) (p : Problem) (loc : Location)
    (hp : p.isMild = true) : Accepts setup m (report p loc) s [] () := by
  have hmax : setup.maxErrors = none := hb.resolve_right (not_not_intro hlax)
  refine ⟨s.report setup p loc, rfl, ?_⟩
  simp only [State.report, hh, hmax, Bool.false_eq_true, if_false]
  exact ⟨rfl, by simp [State.addProblem], hh, [_], rfl, by simpa using hp, .inl hlax⟩

/-- From the first token passed to the last. -/
theorem spanFrom_eq_of_passes {s' : State} (hw : setup.Suits all) (hs : s.At all) (h : s.Passes m (x :: xs) s') :
    s'.spanFrom x.location = extent (x :: xs) :=
  spanFrom_eq_extent hw hs h.takes

end Tokens

/-! ## Repetition -/

section Repetition

variable {α : Type} {setup : Setup} {m : Mode} {all xs ys rest : List Lexeme} {s s' s'' : State}
  {step : α → Parser (ForInStep α)} {a b c : α}

/-- Steps of a loop that goes on, each of which takes a token. -/
inductive Yields (setup : Setup) (step : α → Parser (ForInStep α)) : α → State → α → State → Prop where
  | refl (a : α) (s : State) : Yields setup step a s a s
  | step {a b c : α} {s s' s'' : State} :
      Yields setup step a s b s' → step b setup s' = .ok (.yield c) s'' → s''.rest.length < s'.rest.length →
      Yields setup step a s c s''

theorem Yields.trans (h : Yields setup step a s b s') (h' : Yields setup step b s' c s'') :
    Yields setup step a s c s'' := by
  induction h' with
  | refl => exact h
  | step _ hrun hlt ih => exact .step (ih h) hrun hlt

/-- A loop with a bound that suffices goes on from where its steps have led. -/
theorem Yields.loopWithin (h : Yields setup step a s b s') (bound : List Lexeme)
    (hb : s.rest.length ≤ bound.length) :
    ∃ bound' : List Lexeme, s'.rest.length ≤ bound'.length ∧
      loopWithin step bound a setup s = loopWithin step bound' b setup s' := by
  induction h with
  | refl => exact ⟨bound, hb, rfl⟩
  | step _ hrun hlt ih =>
    obtain ⟨bound', hb', heq⟩ := ih hb
    cases bound' with
    | nil =>
      simp only [List.length_nil] at hb'
      omega
    | cons x bound' =>
      refine ⟨bound', ?_, heq.trans (loopWithin_yield _ hrun)⟩
      simp only [List.length_cons] at hb'
      omega

/-- Steps that yield and one that is done make a loop. -/
theorem Yields.loop (h : Yields setup step a s b s') (hdone : step b setup s' = .ok (.done c) s'') :
    loop a step setup s = .ok c s'' := by
  obtain ⟨bound, -, heq⟩ := h.loopWithin s.rest (Nat.le_refl _)
  exact heq.trans (loopWithin_done _ hdone)

/-- **A loop that goes on.** Started in `s` with `a`, steps of the loop pass the tokens `xs` and come to `b`. -/
def Repeats (setup : Setup) (m : Mode) (step : α → Parser (ForInStep α)) (a : α) (s : State) (xs : List Lexeme)
    (b : α) : Prop :=
  ∃ s', Yields setup step a s b s' ∧ s.Passes m xs s'

theorem Repeats.refl (h : s.halted = false) : Repeats setup m step a s [] a := ⟨s, .refl a s, .refl h⟩

/-- A single step that takes something. -/
theorem Repeats.one (h : Accepts setup m (step a) s xs (.yield b)) (hne : xs ≠ []) :
    Repeats setup m step a s xs b := by
  obtain ⟨s', hrun, hpass⟩ := h
  exact ⟨s', .step (.refl a s) hrun (length_rest_lt hpass.takes hne), hpass⟩

/-- Steps that pass some tokens, and then others. -/
theorem Repeats.trans (h : Repeats setup m step a s xs b) (hs : s.Ready all (xs ++ rest))
    (h' : ∀ s', s'.Ready all rest → Repeats setup m step b s' ys c) : Repeats setup m step a s (xs ++ ys) c := by
  obtain ⟨s', hyields, hpass⟩ := h
  obtain ⟨s'', hyields', hpass'⟩ := h' s' (hs.passes hpass)
  exact ⟨s'', hyields.trans hyields', hpass.trans hpass'⟩

/-- **A loop that comes to its end.** Started in `s` with `a`, the loop passes the tokens `xs` and is done with `c`. -/
def Finishes (setup : Setup) (m : Mode) (step : α → Parser (ForInStep α)) (a : α) (s : State) (xs : List Lexeme)
    (c : α) : Prop :=
  ∃ b s' s'', Yields setup step a s b s' ∧ step b setup s' = .ok (.done c) s'' ∧ s.Passes m xs s''

theorem Finishes.done (h : Accepts setup m (step a) s xs (.done c)) : Finishes setup m step a s xs c := by
  obtain ⟨s', hrun, hpass⟩ := h
  exact ⟨a, s, s', .refl a s, hrun, hpass⟩

/-- Steps that go on, and then those that finish the loop. -/
theorem Repeats.finish (h : Repeats setup m step a s xs b) (hs : s.Ready all (xs ++ rest))
    (h' : ∀ s', s'.Ready all rest → Finishes setup m step b s' ys c) : Finishes setup m step a s (xs ++ ys) c := by
  obtain ⟨s', hyields, hpass⟩ := h
  obtain ⟨b', s₁, s₂, hyields', hrun, hpass'⟩ := h' s' (hs.passes hpass)
  exact ⟨b', s₁, s₂, hyields.trans hyields', hrun, hpass.trans hpass'⟩

/-- A loop whose last step takes no token. -/
theorem Repeats.finish_last (h : Repeats setup m step a s xs b) (hs : s.Ready all (xs ++ rest))
    (h' : ∀ s', s'.Ready all rest → Accepts setup m (step b) s' [] (.done c)) :
    Finishes setup m step a s xs c := by
  simpa using h.finish hs fun s' hs' => .done (h' s' hs')

/-- A loop accepts what its steps pass before they are done. -/
theorem Finishes.loop (h : Finishes setup m step a s xs c) : Accepts setup m (Parser.loop a step) s xs c := by
  obtain ⟨b, s', s'', hyields, hrun, hpass⟩ := h
  exact ⟨s'', hyields.loop hrun, hpass⟩

/-- Started in `s`, the parser `first` and then steps of a loop pass the tokens `xs` and come to `b`. -/
def RepeatsAfter (setup : Setup) (m : Mode) (first : Parser α) (step : α → Parser (ForInStep α)) (s : State)
    (xs : List Lexeme) (b : α) : Prop :=
  ∃ a s₀ s', first setup s = .ok a s₀ ∧ Yields setup step a s₀ b s' ∧ s.Passes m xs s'

theorem RepeatsAfter.start {first : Parser α} (h : Accepts setup m first s xs a) :
    RepeatsAfter setup m first step s xs a := by
  obtain ⟨s', hrun, hpass⟩ := h
  exact ⟨a, s', s', hrun, .refl a s', hpass⟩

/-- Behind the first parser and some steps, one more step. -/
theorem RepeatsAfter.extend {first : Parser α} (h : RepeatsAfter setup m first step s xs a)
    (hs : s.Ready all (xs ++ rest)) (hne : ys ≠ [])
    (hstep : ∀ s', s'.Ready all rest → Accepts setup m (step a) s' ys (.yield b)) :
    RepeatsAfter setup m first step s (xs ++ ys) b := by
  obtain ⟨a₀, s₀, s', hfirst, hyields, hpass⟩ := h
  obtain ⟨s'', hrun, hpass'⟩ := hstep s' (hs.passes hpass)
  exact ⟨a₀, s₀, s'', hfirst, .step hyields hrun (length_rest_lt hpass'.takes hne), hpass.trans hpass'⟩

/-- Behind the first parser and some steps, the last one ends the loop. -/
theorem RepeatsAfter.loop {first : Parser α} (h : RepeatsAfter setup m first step s xs a)
    (hs : s.Ready all (xs ++ rest))
    (hstep : ∀ s', s'.Ready all rest → Accepts setup m (step a) s' ys (.done b)) :
    Accepts setup m (first >>= fun a => Parser.loop a step) s (xs ++ ys) b := by
  obtain ⟨a₀, s₀, s', hfirst, hyields, hpass⟩ := h
  obtain ⟨s'', hrun, hpass'⟩ := hstep s' (hs.passes hpass)
  exact ⟨s'', (bind_ok _ hfirst).trans (hyields.loop hrun), hpass.trans hpass'⟩

/-- Behind the first parser and some steps, the last one ends the loop and takes nothing. -/
theorem RepeatsAfter.loop_last {first : Parser α} (h : RepeatsAfter setup m first step s xs a)
    (hs : s.Ready all (xs ++ rest))
    (hstep : ∀ s', s'.Ready all rest → Accepts setup m (step a) s' [] (.done b)) :
    Accepts setup m (first >>= fun a => Parser.loop a step) s xs b := by
  simpa using h.loop hs hstep

end Repetition

end Parser

end SmallJava
