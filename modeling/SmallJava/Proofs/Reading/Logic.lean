import SmallJava.Parser.Basic
import SmallJava.Proofs.Grammar.Extent

/-!
# A logic of parsers

What a parser does to the state is the same everywhere: it takes tokens from the front of what is left, and it
may report problems or halt the parse (`State.Takes`). What it gives is described by the tokens it took:
`Reads setup all p s Q` says that `p`, started in `s`, either gives a value such that `Q` holds of the tokens
taken and the value, or bails out for a reason that has been or will be reported. It never stalls.

`Q` is about derivations, so it also has a `Mode`. Error productions are used only where something is wrong with
the text: `Mode.Admits` says which modes a state allows, and `Q` has to hold for all of them.

* `Reads.bind`, `Reads.loop`, … — the rules of the logic, one for each way to put parsers together;
* `reads_want`, `reads_got`, … — the parsers that everything else is made of;
* `reads_recoverStmt`, `reads_recoverExpr` — recovery.
-/

namespace SmallJava

open Grammar

/-! ## States -/

/-- Tokens in the order of the text: none is empty, and each one ends before the next one starts. -/
structure Ordered (xs : List Lexeme) : Prop where
  nonempty : ∀ x ∈ xs, x.location.span.start < x.location.span.stop
  sorted : xs.Pairwise fun x y => x.location.span.stop ≤ y.location.span.start

namespace State

/-- **Taking tokens.** `s'` is `s` after the tokens `xs` have been taken. Problems may have been reported, and the
parse may have been halted, which takes all tokens that are left. -/
structure Takes (s : State) (xs : List Lexeme) (s' : State) : Prop where
  rest : s.rest = xs ++ s'.rest
  last : s'.last = xs.getLast?.or s.last
  problems : s.problems <+: s'.problems
  halted : s'.halted = true → s.halted = true ∨ s'.rest = [] ∧ s'.problems ≠ []

/-- The state is one of a parse of the tokens `all`: what has been taken is a beginning of them, and a halted parse
has taken all of them and reported why. -/
structure At (s : State) (all : List Lexeme) : Prop where
  place : ∃ taken, all = taken ++ s.rest ∧ s.last = taken.getLast?
  halted : s.halted = true → s.rest = [] ∧ s.problems ≠ []

/-- There is a reason to bail out: a problem has been reported, or the scanner reports one at the last token. -/
def Blamed (s : State) : Prop := s.problems ≠ [] ∨ ∃ l, s.last = some l ∧ l.token = .invalid

variable {s s' s'' : State} {all xs ys : List Lexeme} {setup : Setup}

theorem ne_nil_of_prefix {ds es : Diagnostics} (h : ds <+: es) (hd : ds ≠ []) : es ≠ [] := by
  rintro rfl
  exact hd (List.prefix_nil.1 h)

namespace Takes

theorem refl (s : State) : s.Takes [] s :=
  ⟨rfl, by simp, List.prefix_refl _, .inl⟩

/-- Taking some tokens, and then others. -/
theorem trans (h : s.Takes xs s') (h' : s'.Takes ys s'') : s.Takes (xs ++ ys) s'' where
  rest := by rw [h.rest, h'.rest, List.append_assoc]
  last := by rw [h'.last, h.last, List.getLast?_append, Option.or_assoc]
  problems := h.problems.trans h'.problems
  halted hh := by
    rcases h'.halted hh with hs | hs
    · rcases h.halted hs with hs | ⟨hr, hp⟩
      · exact .inl hs
      · have := h'.rest
        simp only [hr, List.nil_eq, List.append_eq_nil_iff] at this
        exact .inr ⟨this.2, ne_nil_of_prefix h'.problems hp⟩
    · exact .inr hs

/-- A token at the front can be taken. -/
theorem next {x : Lexeme} {r : List Lexeme} (h : s.rest = x :: r) :
    s.Takes [x] { s with rest := r, last := some x } :=
  ⟨h, rfl, List.prefix_refl _, .inl⟩

theorem skip (s : State) (n : Nat) : s.Takes (s.rest.take n) (s.skip n) :=
  ⟨(List.take_append_drop n s.rest).symm, rfl, List.prefix_refl _, .inl⟩

theorem note (s : State) (e : Event) : s.Takes [] (s.note e) :=
  ⟨rfl, by simp [State.note], List.prefix_refl _, .inl⟩

theorem addProblem (setup : Setup) (s : State) (p : Problem) (loc : Location) :
    s.Takes [] (s.addProblem setup p loc) :=
  ⟨rfl, by simp [State.addProblem], List.prefix_append _ _, .inl⟩

/-- Giving up the rest of the text takes all of it; there has to be a problem. -/
theorem stop_of_running (setup : Setup) (hh : s.halted = false) (hp : s.problems ≠ []) :
    s.Takes s.rest (s.stop setup) := by
  simp only [State.stop, hh, Bool.false_eq_true, if_false]
  refine ⟨by simp [State.skip, State.note], ?_, List.prefix_refl _, fun _ => .inr ⟨?_, hp⟩⟩
  · simp [State.skip, State.note]
  · simp [State.skip, State.note]

/-- Halting a parse takes all tokens that are left, if there is a problem to blame. -/
theorem stop (setup : Setup) (hp : s.problems ≠ []) : ∃ xs, s.Takes xs (s.stop setup) := by
  cases hh : s.halted with
  | true => exact ⟨[], by simpa only [State.stop, hh, if_true] using refl s⟩
  | false => exact ⟨s.rest, stop_of_running setup hh hp⟩

end Takes

/-- A parse stays one of the same tokens. -/
theorem At.takes (hs : s.At all) (h : s.Takes xs s') : s'.At all where
  place := by
    obtain ⟨taken, hall, hlast⟩ := hs.place
    exact ⟨taken ++ xs, by rw [hall, h.rest, List.append_assoc],
      by rw [h.last, hlast, List.getLast?_append]⟩
  halted hh := by
    rcases h.halted hh with hh | hh
    · obtain ⟨hr, hp⟩ := hs.halted hh
      have := h.rest
      simp only [hr, List.nil_eq, List.append_eq_nil_iff] at this
      exact ⟨this.2, ne_nil_of_prefix h.problems hp⟩
    · exact hh

/-- The last token taken is one of them. -/
theorem At.mem_of_last (hs : s.At all) {l : Lexeme} (h : s.last = some l) : l ∈ all := by
  obtain ⟨taken, hall, hlast⟩ := hs.place
  rw [hlast] at h
  rw [hall]
  exact List.mem_append_left _ (List.mem_of_getLast? h)

theorem At.mem_of_rest (hs : s.At all) {x : Lexeme} (h : x ∈ s.rest) : x ∈ all := by
  obtain ⟨taken, hall, -⟩ := hs.place
  rw [hall]
  exact List.mem_append_right _ h

/-- What is left of ordered tokens is ordered. -/
theorem At.ordered (hs : s.At all) (ho : Ordered all) : Ordered s.rest := by
  obtain ⟨taken, hall, -⟩ := hs.place
  rw [hall] at ho
  exact ⟨fun x hx => ho.nonempty x (List.mem_append_right _ hx), (List.pairwise_append.1 ho.sorted).2.1⟩

/-- The last token taken ends before the next one starts. -/
theorem At.last_le (hs : s.At all) (ho : Ordered all) {l x : Lexeme} (hl : s.last = some l) (hx : x ∈ s.rest) :
    l.location.span.stop ≤ x.location.span.start := by
  obtain ⟨taken, hall, hlast⟩ := hs.place
  rw [hall] at ho
  rw [hlast] at hl
  exact (List.pairwise_append.1 ho.sorted).2.2 l (List.mem_of_getLast? hl) x hx

end State

/-- What a parser may rely on: the marker behind the tokens is the only end marker, and the tokens stand in the
order of the text. -/
structure Setup.Suits (setup : Setup) (all : List Lexeme) : Prop where
  eof : setup.endMarker.token = .eof
  tokens : ∀ x ∈ all, x.token ≠ .eof
  ordered : Ordered all
  before : ∀ x ∈ all, x.location.span.stop ≤ setup.endMarker.location.span.start

/-- The modes that a state allows: error productions stand for problems. -/
structure Grammar.Mode.Admits (m : Mode) (setup : Setup) (all : List Lexeme) (s : State) : Prop where
  errors : (s.problems ≠ [] ∨ ∃ x ∈ all, x.token = .invalid) → m.errors
  opens : s.problems ≠ [] → m.opens
  halts : s.problems ≠ [] → setup.maxErrors ≠ none → m.halts
  lax : s.problems ≠ [] → m.lax

namespace Grammar.Mode

variable {setup : Setup} {all xs : List Lexeme} {s s' : State} {m : Mode}

/-- All error productions are always allowed. -/
theorem admits_lenient : lenient.Admits setup all s :=
  ⟨fun _ => trivial, fun _ => trivial, fun _ _ => trivial, fun _ => trivial⟩

/-- What is allowed later is allowed now: problems are not taken back. -/
theorem Admits.of_takes (h : m.Admits setup all s') (ht : s.Takes xs s') : m.Admits setup all s where
  errors hs := h.errors (hs.imp_left (State.ne_nil_of_prefix ht.problems))
  opens hs := h.opens (State.ne_nil_of_prefix ht.problems hs)
  halts hs := h.halts (State.ne_nil_of_prefix ht.problems hs)
  lax hs := h.lax (State.ne_nil_of_prefix ht.problems hs)

/-- Where there is something to blame, bad nodes may stand for tokens. -/
theorem Admits.errors_of_blamed (h : m.Admits setup all s') (hs : s.At all) (hb : s.Blamed)
    (ht : s.Takes xs s') : m.errors := by
  rcases hb with hp | ⟨l, hl, hi⟩
  · exact h.errors (.inl (State.ne_nil_of_prefix ht.problems hp))
  · exact h.errors (.inr ⟨l, hs.mem_of_last hl, hi⟩)

end Grammar.Mode

namespace Parser

/-! ## Running -/

section Run

variable {α β : Type} {setup : Setup} {s s' : State}

/-- What follows a parser that gives a value goes on from there. -/
theorem bind_ok {p : Parser α} (f : α → Parser β) {a : α} (h : p setup s = .ok a s') :
    (p >>= f) setup s = f a setup s' := by
  simp only [bind, ReaderT.bind, EStateM.bind, h]

/-- Nothing follows a parser that bails out. -/
theorem bind_error {p : Parser α} (f : α → Parser β) {b : Bailout} (h : p setup s = .error b s') :
    (p >>= f) setup s = .error b s' := by
  simp only [bind, ReaderT.bind, EStateM.bind, h]

theorem tryCatch_ok {p : Parser α} (h : Bailout → Parser α) {a : α} (hp : p setup s = .ok a s') :
    (tryCatch p h) setup s = .ok a s' := by
  simp only [tryCatch, tryCatchThe, MonadExceptOf.tryCatch]
  delta EStateM.tryCatch
  simp only [hp]

theorem tryCatch_error {p : Parser α} (h : Bailout → Parser α) {b : Bailout} (hp : p setup s = .error b s') :
    (tryCatch p h) setup s = h b setup s' := by
  simp only [tryCatch, tryCatchThe, MonadExceptOf.tryCatch]
  delta EStateM.tryCatch
  simp only [hp]
  rfl

end Run

/-- **What a parser reads.** Started in `s`, the parser `p` takes tokens. If it gives a value, `Q` holds of the tokens
taken and the value, in every mode that the state allows; otherwise it bails out, blaming something. -/
def Reads {α : Type} (setup : Setup) (all : List Lexeme) (p : Parser α) (s : State)
    (Q : Mode → List Lexeme → α → Prop) : Prop :=
  match p setup s with
  | .ok a s' => ∃ xs, s.Takes xs s' ∧ ∀ m : Mode, m.Admits setup all s' → Q m xs a
  | .error b s' => (∃ xs, s.Takes xs s') ∧ b ≠ .stalled ∧ s'.Blamed

section Rules

variable {α β : Type} {setup : Setup} {all : List Lexeme} {s : State} {p : Parser α} {f : α → Parser β}
  {Q : Mode → List Lexeme → β → Prop} {Q₁ : Mode → List Lexeme → α → Prop}

theorem Reads.ok {a : α} {s' : State} (h : Reads setup all p s Q₁) (hr : p setup s = .ok a s') :
    ∃ xs, s.Takes xs s' ∧ ∀ m : Mode, m.Admits setup all s' → Q₁ m xs a := by
  simpa only [Reads, hr] using h

theorem Reads.error {b : Bailout} {s' : State} (h : Reads setup all p s Q₁) (hr : p setup s = .error b s') :
    (∃ xs, s.Takes xs s') ∧ b ≠ .stalled ∧ s'.Blamed := by
  simpa only [Reads, hr] using h

theorem Reads.of_ok {a : α} {s' : State} {xs : List Lexeme} (hr : p setup s = .ok a s') (ht : s.Takes xs s')
    (h : ∀ m : Mode, m.Admits setup all s' → Q₁ m xs a) : Reads setup all p s Q₁ := by
  simp only [Reads, hr]
  exact ⟨xs, ht, h⟩

theorem Reads.of_error {b : Bailout} {s' : State} {xs : List Lexeme} (hr : p setup s = .error b s')
    (ht : s.Takes xs s') (hb : b ≠ .stalled) (hs : s'.Blamed) : Reads setup all p s Q₁ := by
  simp only [Reads, hr]
  exact ⟨⟨xs, ht⟩, hb, hs⟩

theorem Reads.pure {a : α} (h : ∀ m : Mode, m.Admits setup all s → Q₁ m [] a) :
    Reads setup all (pure a) s Q₁ :=
  .of_ok rfl (.refl s) h

/-- One parser after another: the tokens taken are those of both. -/
theorem Reads.bind (hs : s.At all) (hp : Reads setup all p s Q₁)
    (hf : ∀ xs a s', s.Takes xs s' → s'.At all →
      Reads setup all (f a) s' fun m ys b => Q₁ m xs a → Q m (xs ++ ys) b) :
    Reads setup all (p >>= f) s Q := by
  cases hr : p setup s with
  | ok a s' =>
    obtain ⟨xs, ht, hq⟩ := hp.ok hr
    have hf := hf xs a s' ht (hs.takes ht)
    cases hr' : f a setup s' with
    | ok b s'' =>
      obtain ⟨ys, ht', hq'⟩ := hf.ok hr'
      exact .of_ok ((bind_ok f hr).trans hr') (ht.trans ht')
        fun m hm => hq' m hm (hq m (hm.of_takes ht'))
    | error b s'' =>
      obtain ⟨⟨ys, ht'⟩, hb, hbl⟩ := hf.error hr'
      exact .of_error ((bind_ok f hr).trans hr') (ht.trans ht') hb hbl
  | error b s' =>
    obtain ⟨⟨xs, ht⟩, hb, hbl⟩ := hp.error hr
    exact .of_error (bind_error f hr) ht hb hbl

/-- What is known of the value may be weakened. -/
theorem Reads.mono {Q₂ : Mode → List Lexeme → α → Prop} (hp : Reads setup all p s Q₁)
    (h : ∀ m xs a, Q₁ m xs a → Q₂ m xs a) : Reads setup all p s Q₂ := by
  cases hr : p setup s with
  | ok a s' =>
    obtain ⟨xs, ht, hq⟩ := hp.ok hr
    exact .of_ok hr ht fun m hm => h m xs a (hq m hm)
  | error b s' =>
    obtain ⟨⟨xs, ht⟩, hb, hbl⟩ := hp.error hr
    exact .of_error hr ht hb hbl

/-! Parsers that only look at the state take nothing. -/

theorem reads_current_bind {f : Lexeme → Parser β} :
    Reads setup all (current >>= f) s Q ↔ Reads setup all (f (s.current setup)) s Q := Iff.rfl

theorem reads_token_bind {f : Token → Parser β} :
    Reads setup all (token >>= f) s Q ↔ Reads setup all (f (s.current setup).token) s Q := Iff.rfl

theorem reads_get_bind {f : State → Parser β} :
    Reads setup all (get >>= f) s Q ↔ Reads setup all (f s) s Q := Iff.rfl

theorem reads_spanFrom_bind {loc : Location} {f : Location → Parser β} :
    Reads setup all (spanFrom loc >>= f) s Q ↔ Reads setup all (f (s.spanFrom loc)) s Q := Iff.rfl

theorem reads_atVarDecl_bind {f : Bool → Parser β} :
    Reads setup all (atVarDecl >>= f) s Q ↔ Reads setup all (f (startsVarDecl s.rest)) s Q := Iff.rfl

theorem reads_atMethodDecl_bind {f : Bool → Parser β} :
    Reads setup all (atMethodDecl >>= f) s Q ↔ Reads setup all (f (startsMethodDecl s.rest)) s Q := Iff.rfl

end Rules

/-! ## Tokens -/

section Tokens

variable {α β : Type} {setup : Setup} {all : List Lexeme} {s : State}
  {Q : Mode → List Lexeme → β → Prop}

/-- A token that is not the end marker is the first one left. -/
theorem rest_eq_of_token (hw : setup.Suits all) (h : (s.current setup).token ≠ .eof) :
    s.rest = s.current setup :: s.rest.tail := by
  cases hr : s.rest with
  | nil => simp [State.current, hr, hw.eof] at h
  | cons x r => simp [State.current, hr]

/-- The current token is the end marker where no token is left, and only there. -/
theorem token_eq_eof_iff (hw : setup.Suits all) (hs : s.At all) :
    (s.current setup).token = .eof ↔ s.rest = [] := by
  cases hr : s.rest with
  | nil => simp [State.current, hr, hw.eof]
  | cons x r =>
    have := hw.tokens x (hs.mem_of_rest (by simp [hr]))
    simp [State.current, hr, this]

/-- A token that is there can be taken. -/
theorem reads_next_cons {x : Lexeme} {r : List Lexeme} {f : Lexeme → Parser β} (hs : s.At all)
    (h : s.rest = x :: r)
    (hf : ∀ s', s.Takes [x] s' → s'.At all → s'.rest = r →
      Reads setup all (f x) s' fun m ys b => Q m (x :: ys) b) :
    Reads setup all (next >>= f) s Q := by
  have ht := State.Takes.next h
  have hf := hf _ ht (hs.takes ht) rfl
  have hrun : (next >>= f) setup s = f x setup { s with rest := r, last := some x } := by
    show f (s.current setup) setup { s with rest := s.rest.tail, last := some (s.current setup) } = _
    simp [State.current, h]
  simp only [Reads, hrun]
  cases hr : f x setup { s with rest := r, last := some x } with
  | ok b s'' =>
    obtain ⟨ys, ht', hq⟩ := hf.ok hr
    exact ⟨_, ht.trans ht', hq⟩
  | error b s'' =>
    obtain ⟨⟨ys, ht'⟩, hb, hbl⟩ := hf.error hr
    exact ⟨⟨_, ht.trans ht'⟩, hb, hbl⟩

/-- A token is taken, and what follows reads the others. -/
theorem reads_next_bind {f : Lexeme → Parser β} (hw : setup.Suits all) (hs : s.At all)
    (h : (s.current setup).token ≠ .eof)
    (hf : ∀ s', s.Takes [s.current setup] s' → s'.At all →
      Reads setup all (f (s.current setup)) s' fun m ys b => Q m (s.current setup :: ys) b) :
    Reads setup all (next >>= f) s Q :=
  reads_next_cons hs (rest_eq_of_token hw h) fun s' ht hs' _ => hf s' ht hs'

/-! ## Problems -/

/-- Reporting a problem either changes nothing but the problems, or halts the parse because of a limit. -/
theorem report_cases (setup : Setup) (hs : s.At all) (p : Problem) (loc : Location) :
    (s.report setup p loc).problems ≠ [] ∧
      (s.Takes [] (s.report setup p loc) ∨
        setup.maxErrors ≠ none ∧ (s.report setup p loc).rest = [] ∧ s.Takes s.rest (s.report setup p loc)) := by
  cases hh : s.halted with
  | true =>
    simp only [State.report, hh, if_true]
    exact ⟨(hs.halted hh).2, .inl (.refl s)⟩
  | false =>
    have ha := State.Takes.addProblem setup s p loc
    have hne : (s.addProblem setup p loc).problems ≠ [] := by simp [State.addProblem]
    simp only [State.report, hh, Bool.false_eq_true, if_false]
    split
    · next limit hmax =>
      split
      · -- the limit is reached
        have hstop : (s.addProblem setup p loc).Takes s.rest ((s.addProblem setup p loc).stop setup) :=
          .stop_of_running setup hh hne
        have hrest : ((s.addProblem setup p loc).stop setup).rest = [] := by
          simpa [State.addProblem] using hstop.rest
        refine ⟨by simp [State.addProblem], .inr ⟨by simp [hmax], hrest, ?_⟩⟩
        have htwo : s.Takes ([] ++ s.rest ++ []) _ :=
          (ha.trans hstop).trans (.addProblem setup _ .tooManyErrors loc)
        simpa only [List.nil_append, List.append_nil] using htwo
      · exact ⟨hne, .inl ha⟩
    · exact ⟨hne, .inl ha⟩

/-- A report takes no token, unless it halts the parse. -/
theorem takes_report (setup : Setup) (hs : s.At all) (p : Problem) (loc : Location) :
    ∃ xs, s.Takes xs (s.report setup p loc) := by
  rcases (report_cases setup hs p loc).2 with h | ⟨-, -, h⟩
  · exact ⟨_, h⟩
  · exact ⟨_, h⟩

/-- A problem is reported. Nothing is taken, unless a limit is reached: then everything is given up. -/
theorem reads_report (hs : s.At all) (p : Problem) (loc : Location) :
    Reads setup all (report p loc) s fun m xs _ =>
      m.opens ∧ m.lax ∧ (xs = [] ∨ m.halts ∧ xs = s.rest) := by
  have hrun : report p loc setup s = .ok () (s.report setup p loc) := rfl
  obtain ⟨hne, ht | ⟨hmax, -, ht⟩⟩ := report_cases setup hs p loc
  · exact .of_ok hrun ht fun m hm => ⟨hm.opens hne, hm.lax hne, .inl rfl⟩
  · exact .of_ok hrun ht fun m hm => ⟨hm.opens hne, hm.lax hne, .inr ⟨hm.halts hne hmax, rfl⟩⟩

/-- A failing parser blames something. -/
theorem reads_fail (hs : s.At all) (p : Problem) : Reads setup all (fail (α := β) p) s Q := by
  unfold fail
  rw [reads_current_bind, reads_get_bind]
  split
  · next h =>
    -- the scanner has reported the last token
    refine .of_error rfl (.note s (.resumed (s.current setup).location.first)) (by decide) (.inr ?_)
    simp only [State.afterMalformed] at h
    split at h
    · next l hl =>
      simp only [Bool.and_eq_true, decide_eq_true_eq] at h
      exact ⟨l, hl, h.1⟩
    · simp at h
  · obtain ⟨xs, hx⟩ := takes_report setup hs p (s.current setup).location
    exact .of_error rfl hx (by decide) (.inl (report_cases setup hs p _).1)

theorem reads_halt (hs : s.At all) (p : Problem) : Reads setup all (halt (α := β) p) s Q := by
  have hrun : (halt (α := β) p) setup s
      = .error .resync ((s.report setup p (s.current setup).location).stop setup) := rfl
  have hne := (report_cases setup hs p (s.current setup).location).1
  obtain ⟨xs, hx⟩ := takes_report setup hs p (s.current setup).location
  obtain ⟨ys, hy⟩ := State.Takes.stop setup hne
  exact .of_error hrun (hx.trans hy) (by decide) (.inl (State.ne_nil_of_prefix hy.problems hne))

/-- A parser that needs a level fails if there is none. -/
theorem reads_nested {ι : Type} {inner : Option ι} {p : ι → Parser β} (hs : s.At all)
    (hp : ∀ i, inner = some i → Reads setup all (p i) s Q) : Reads setup all (nested inner p) s Q := by
  cases inner with
  | some i => exact hp i rfl
  | none =>
    show Reads setup all (halt (.nestedTooDeeply setup.maxDepth)) s Q
    exact reads_halt hs _

/-! ## Single tokens -/

/-- The token that is wanted is taken, or its absence is to blame. -/
theorem reads_want (hw : setup.Suits all) (hs : s.At all) {t : Token} (ht : t ≠ .eof) :
    Reads setup all (want t) s fun _ xs x => xs = [x] ∧ x.token = t := by
  unfold want
  rw [reads_current_bind]
  split
  · next h =>
    have hrun : next setup s = .ok (s.current setup) { s with rest := s.rest.tail, last := some (s.current setup) } :=
      rfl
    exact .of_ok hrun (.next (rest_eq_of_token hw (h ▸ ht))) fun _ _ => ⟨rfl, h⟩
  · exact reads_fail hs _

/-- A token is taken if it is there. -/
theorem reads_got (hw : setup.Suits all) (hs : s.At all) {t : Token} (ht : t ≠ .eof) :
    Reads setup all (got t) s fun _ xs b => (b = true ∧ ∃ x, xs = [x] ∧ x.token = t) ∨ (b = false ∧ xs = []) := by
  unfold got
  rw [reads_token_bind]
  split
  · next h =>
    refine reads_next_bind hw hs (h ▸ ht) fun s' ht' hs' => .pure fun m _ => ?_
    exact .inl ⟨rfl, _, rfl, h⟩
  · exact .pure fun m _ => .inr ⟨rfl, rfl⟩

end Tokens

/-! ## Locations -/

section Locations

variable {setup : Setup} {all : List Lexeme} {s s' : State}

/-- From the current token to the last one taken. -/
theorem spanFrom_eq_extent (hw : setup.Suits all) (hs : s.At all) {x : Lexeme} {xs : List Lexeme}
    (ht : s.Takes (x :: xs) s') : s'.spanFrom x.location = extent (x :: xs) := by
  have hord := hs.ordered hw.ordered
  rw [ht.rest] at hord
  have hlast : s'.last = some (xs.getLastD x) := by
    rw [ht.last, List.getLast?_cons, Option.some_or, List.getLastD_eq_getLast?]
  have hlt : x.location.span.start < (xs.getLastD x).location.span.stop := by
    have hx := hord.nonempty x (by simp)
    rcases List.eq_nil_or_concat xs with rfl | ⟨ys, y, rfl⟩
    · simpa using hx
    · have hy := hord.nonempty y (by simp)
      have hxy := (List.pairwise_cons.1 hord.sorted).1 y (by simp)
      simp only [List.concat_eq_append, List.getLastD_concat]
      omega
  simp only [State.spanFrom, hlast, if_neg (Int.not_le.2 hlt), extent]

/-- Nothing taken: the empty location before the current token. -/
theorem spanFrom_eq_atStart (hw : setup.Suits all) (hs : s.At all) (ht : s.Takes [] s') :
    s'.spanFrom (s.current setup).location = (s.current setup).location.atStart := by
  have hlast : s'.last = s.last := by simpa using ht.last
  cases hl : s.last with
  | none => simp only [State.spanFrom, hlast, hl]
  | some l =>
    have hle : l.location.span.stop ≤ (s.current setup).location.span.start := by
      cases hr : s.rest with
      | nil => simpa [State.current, hr] using hw.before l (hs.mem_of_last hl)
      | cons x r => simpa [State.current, hr] using hs.last_le hw.ordered hl (x := x) (by simp [hr])
    simp only [State.spanFrom, hlast, hl, if_pos hle]

theorem current_eq_of_takes {x : Lexeme} {xs : List Lexeme} (ht : s.Takes (x :: xs) s') : s.current setup = x := by
  simp [State.current, ht.rest]

/-- From the current token on: its start if nothing is taken, or the extent of what is. -/
theorem spanFrom_current (hw : setup.Suits all) (hs : s.At all) {xs : List Lexeme} (ht : s.Takes xs s') :
    s'.spanFrom (s.current setup).location
      = if xs = [] then (s.current setup).location.atStart else extent xs := by
  cases xs with
  | nil => exact spanFrom_eq_atStart hw hs ht
  | cons x xs =>
    rw [current_eq_of_takes ht, if_neg (List.cons_ne_nil _ _)]
    exact spanFrom_eq_extent hw hs ht

end Locations

/-! ## Repetition -/

section Repetition

variable {α : Type} {setup : Setup} {all : List Lexeme} {s : State} {step : α → Parser (ForInStep α)}
  {I Q : Mode → List Lexeme → α → Prop}

/-- What a step of a loop has to do, after the tokens `zs` have been taken: go on, having taken a token, with the
invariant, or be done with the result. -/
def StepPost (I Q : Mode → List Lexeme → α → Prop) (zs : List Lexeme) (a : α) (m : Mode) (ys : List Lexeme) :
    ForInStep α → Prop
  | .yield b => ys ≠ [] ∧ (I m zs a → I m (zs ++ ys) b)
  | .done b => I m zs a → Q m (zs ++ ys) b

theorem loopWithin_error {a : α} {b : Bailout} {s' : State} (bound : List Lexeme)
    (h : step a setup s = .error b s') : loopWithin step bound a setup s = .error b s' := by
  rw [loopWithin, bind_error _ h]

theorem loopWithin_done {a b : α} {s' : State} (bound : List Lexeme) (h : step a setup s = .ok (.done b) s') :
    loopWithin step bound a setup s = .ok b s' := by
  rw [loopWithin, bind_ok _ h]
  rfl

theorem loopWithin_yield {a b : α} {s' : State} {x : Lexeme} (bound : List Lexeme)
    (h : step a setup s = .ok (.yield b) s') :
    loopWithin step (x :: bound) a setup s = loopWithin step bound b setup s' := by
  rw [loopWithin, bind_ok _ h]

/-- A step that goes on leaves fewer tokens. -/
theorem length_rest_lt {s' : State} {ys : List Lexeme} (ht : s.Takes ys s') (hne : ys ≠ []) :
    s'.rest.length < s.rest.length := by
  have := List.length_pos_iff.2 hne
  rw [ht.rest, List.length_append]
  omega

/-- The tokens left bound the number of steps, since each step but the last takes one. -/
theorem reads_loopWithin
    (hstep : ∀ zs s' a, s.Takes zs s' → s'.At all → Reads setup all (step a) s' (StepPost I Q zs a))
    (bound zs : List Lexeme) (s' : State) (a : α) (ht : s.Takes zs s') (hs' : s'.At all)
    (hb : s'.rest.length ≤ bound.length) :
    Reads setup all (loopWithin step bound a) s' fun m ys b => I m zs a → Q m (zs ++ ys) b := by
  induction bound generalizing zs s' a with
  | nil =>
    cases hr : step a setup s' with
    | error b s'' =>
      obtain ⟨⟨ys, ht'⟩, hst, hbl⟩ := (hstep zs s' a ht hs').error hr
      exact .of_error (loopWithin_error _ hr) ht' hst hbl
    | ok r s'' =>
      obtain ⟨ys, ht', hq⟩ := (hstep zs s' a ht hs').ok hr
      cases r with
      | done b => exact .of_ok (loopWithin_done _ hr) ht' hq
      | yield b =>
        -- a step that goes on has taken a token, but there was none left
        have hlt := length_rest_lt ht' (hq .lenient Mode.admits_lenient).1
        simp only [List.length_nil] at hb
        omega
  | cons x bound ih =>
    cases hr : step a setup s' with
    | error b s'' =>
      obtain ⟨⟨ys, ht'⟩, hst, hbl⟩ := (hstep zs s' a ht hs').error hr
      exact .of_error (loopWithin_error _ hr) ht' hst hbl
    | ok r s'' =>
      obtain ⟨ys, ht', hq⟩ := (hstep zs s' a ht hs').ok hr
      cases r with
      | done b => exact .of_ok (loopWithin_done _ hr) ht' hq
      | yield b =>
        have hlt := length_rest_lt ht' (hq .lenient Mode.admits_lenient).1
        simp only [List.length_cons] at hb
        have hrec := ih (zs ++ ys) s'' b (ht.trans ht') (hs'.takes ht') (by omega)
        cases hr' : loopWithin step bound b setup s'' with
        | error e s₃ =>
          obtain ⟨⟨ws, ht₃⟩, hst, hbl⟩ := hrec.error hr'
          exact .of_error ((loopWithin_yield _ hr).trans hr') (ht'.trans ht₃) hst hbl
        | ok c s₃ =>
          obtain ⟨ws, ht₃, hq₃⟩ := hrec.ok hr'
          refine .of_ok ((loopWithin_yield _ hr).trans hr') (ht'.trans ht₃) fun m hm hI => ?_
          rw [← List.append_assoc]
          exact hq₃ m hm ((hq m (hm.of_takes ht₃)).2 hI)

/-- **Loops.** An invariant that every step keeps holds at the end. Since every step that goes on takes a token, the
loop does not stall. -/
theorem reads_loop {a : α} (hs : s.At all) (ha : ∀ m, I m [] a)
    (hstep : ∀ zs s' a, s.Takes zs s' → s'.At all → Reads setup all (step a) s' (StepPost I Q zs a)) :
    Reads setup all (loop a step) s Q := by
  unfold loop
  rw [reads_get_bind]
  exact (reads_loopWithin hstep s.rest [] s a (.refl s) hs (Nat.le_refl _)).mono fun m xs b h => h (ha m)

/-- A loop whose steps do not bail out does not bail out. -/
theorem loop_succeeds {a : α} (hs : s.At all)
    (hstep : ∀ zs s' a, s.Takes zs s' → s'.At all → Reads setup all (step a) s' (StepPost I Q zs a))
    (hok : ∀ s' a, s'.At all → ∃ r s'', step a setup s' = .ok r s'') :
    ∃ b s', loop a step setup s = .ok b s' := by
  suffices h : ∀ (bound zs : List Lexeme) (s' : State) (a : α), s.Takes zs s' → s'.At all →
      s'.rest.length ≤ bound.length → ∃ b s'', loopWithin step bound a setup s' = .ok b s'' from
    h s.rest [] s a (.refl s) hs (Nat.le_refl _)
  intro bound
  induction bound with
  | nil =>
    intro zs s' a ht hs' hb
    obtain ⟨r, s'', hr⟩ := hok s' a hs'
    obtain ⟨ys, ht', hq⟩ := (hstep zs s' a ht hs').ok hr
    cases r with
    | done b => exact ⟨b, s'', loopWithin_done _ hr⟩
    | yield b =>
      have hlt := length_rest_lt ht' (hq .lenient Mode.admits_lenient).1
      simp only [List.length_nil] at hb
      omega
  | cons x bound ih =>
    intro zs s' a ht hs' hb
    obtain ⟨r, s'', hr⟩ := hok s' a hs'
    obtain ⟨ys, ht', hq⟩ := (hstep zs s' a ht hs').ok hr
    cases r with
    | done b => exact ⟨b, s'', loopWithin_done _ hr⟩
    | yield b =>
      have hlt := length_rest_lt ht' (hq .lenient Mode.admits_lenient).1
      simp only [List.length_cons] at hb
      rw [loopWithin_yield _ hr]
      exact ih (zs ++ ys) s'' b (ht.trans ht') (hs'.takes ht') (by omega)

end Repetition

/-! ## Recovery -/

section Recovery

variable {setup : Setup} {all : List Lexeme} {s s' : State}

theorem takes_synchronize (s : State) : ∃ xs, s.Takes xs (s.synchronize setup) :=
  ⟨_, (State.Takes.skip s _).trans (.note _ _)⟩

theorem current_eq_of_takes_nil (setup : Setup) (ht : s.Takes [] s') : s'.current setup = s.current setup := by
  simp [State.current, ht.rest]

/-- Giving up a statement takes its first token, if it is still there. -/
theorem takes_abandon (hw : setup.Suits all) (s : State) (start : Lexeme) (sync : Bool) :
    ∃ xs, s.Takes xs (s.abandon setup start sync) ∧
      (s.current setup = start → start.token ≠ .eof → xs ≠ []) := by
  obtain ⟨xs, hx⟩ : ∃ xs, s.Takes xs (if sync then s.synchronize setup else s) := by
    split
    · exact takes_synchronize s
    · exact ⟨[], .refl s⟩
  unfold State.abandon
  simp only
  generalize (if sync then s.synchronize setup else s) = s₁ at hx ⊢
  split
  · next h =>
    have hrest := rest_eq_of_token hw h.2
    exact ⟨xs ++ s₁.rest.take 1, hx.trans (.skip s₁ 1), fun _ _ => by rw [hrest]; simp⟩
  · next h =>
    refine ⟨xs, hx, ?_⟩
    rintro hstart heof rfl
    have hcur := current_eq_of_takes_nil setup hx
    exact h ⟨by rw [hcur, hstart], by rwa [hcur, hstart]⟩

theorem recoverStmt_ok {p : Parser Stmt} {t : Stmt} (h : p setup s = .ok t s') :
    recoverStmt p setup s = .ok t s' := tryCatch_ok _ h

/-- What is given up is a bad statement over the tokens discarded. -/
theorem recoverStmt_error {p : Parser Stmt} {b : Bailout} (h : p setup s = .error b s') (hb : b ≠ .stalled) :
    recoverStmt p setup s
      = .ok (.bad ((s'.abandon setup (s.current setup) (b = .resync)).spanFrom (s.current setup).location))
          (s'.abandon setup (s.current setup) (b = .resync)) := by
  refine (tryCatch_error _ h).trans ?_
  rw [abandonStmt, if_neg hb]
  rfl

/-- **A statement that recovers is always read.** If it can be read at all, it is read as it stands; otherwise it is
the text discarded. In any case a token is taken. -/
theorem reads_recoverStmt {p : Parser Stmt} {P : Mode → List Lexeme → Stmt → Prop} (hw : setup.Suits all)
    (hs : s.At all) (h : (s.current setup).token ≠ .eof)
    (hp : Reads setup all p s fun m xs t => xs ≠ [] ∧ P m xs t) :
    Reads setup all (recoverStmt p) s fun m xs t =>
      xs ≠ [] ∧ (P m xs t ∨ m.errors ∧ t = .bad (extent xs)) := by
  cases hr : p setup s with
  | ok t s' =>
    obtain ⟨xs, ht, hq⟩ := hp.ok hr
    exact .of_ok (recoverStmt_ok hr) ht fun m hm => (hq m hm).imp_right .inl
  | error b s' =>
    obtain ⟨⟨xs, ht⟩, hb, hbl⟩ := hp.error hr
    obtain ⟨ys, ht', hys⟩ := takes_abandon hw s' (s.current setup) (b = .resync)
    have hne : xs ++ ys ≠ [] := by
      intro hnil
      obtain ⟨rfl, rfl⟩ := List.append_eq_nil_iff.1 hnil
      exact hys (current_eq_of_takes_nil setup ht) h rfl
    refine .of_ok (recoverStmt_error hr hb) (ht.trans ht') fun m hm => ⟨hne, .inr ⟨?_, ?_⟩⟩
    · exact hm.errors_of_blamed (hs.takes ht) hbl ht'
    · rw [spanFrom_current hw hs (ht.trans ht'), if_neg hne]

/-- **A statement that recovers always gives a value.** -/
theorem recoverStmt_succeeds {p : Parser Stmt} {P : Mode → List Lexeme → Stmt → Prop}
    (hp : Reads setup all p s P) : ∃ t s', recoverStmt p setup s = .ok t s' := by
  cases hr : p setup s with
  | ok t s' => exact ⟨t, s', recoverStmt_ok hr⟩
  | error b s' => exact ⟨_, _, recoverStmt_error hr (hp.error hr).2.1⟩

theorem reads_upToCloser {p : Parser Expr} {P : Mode → List Lexeme → Expr → Prop} (hs : s.At all)
    (hp : Reads setup all p s P) : Reads setup all (upToCloser p) s P := by
  refine .bind hs hp fun xs x s' ht hs' => ?_
  rw [reads_current_bind]
  split
  · refine .pure fun m _ hq => ?_
    rwa [List.append_nil]
  · exact reads_fail hs' _

/-- An expression that fails is the text discarded. -/
theorem recoverExpr_error {p : Parser Expr} (h : upToCloser p setup s = .error .resync s') (hs' : s'.halted = false) :
    recoverExpr p setup s
      = .ok (.bad (s'.skipToCloser.spanFrom (s.current setup).location)) s'.skipToCloser := by
  refine (tryCatch_error _ h).trans ?_
  unfold abandonExpr
  show (if Bailout.resync ≠ .resync ∨ s'.halted = true then _ else _ : Parser Expr) setup s' = _
  rw [if_neg (by simp [hs'])]
  rfl

/-- Other failures, and those of a parse that has been halted, are passed on. -/
theorem recoverExpr_throw {p : Parser Expr} {b : Bailout} (h : upToCloser p setup s = .error b s')
    (hthrow : b ≠ .resync ∨ s'.halted = true) : recoverExpr p setup s = .error b s' := by
  refine (tryCatch_error _ h).trans ?_
  unfold abandonExpr
  show (if b ≠ .resync ∨ s'.halted = true then _ else _ : Parser Expr) setup s' = _
  rw [if_pos hthrow]
  rfl

/-- An expression up to a closing parenthesis is read as it stands, or it is the text discarded, which may be
nothing. -/
theorem reads_recoverExpr {p : Parser Expr} {P : Mode → List Lexeme → Expr → Prop} (hw : setup.Suits all)
    (hs : s.At all) (hp : Reads setup all p s P) :
    Reads setup all (recoverExpr p) s fun m xs x =>
      P m xs x ∨ m.errors ∧ x = .bad (if xs = [] then (s.current setup).location.atStart else extent xs) := by
  have hcloser : Reads setup all (upToCloser p) s P := reads_upToCloser hs hp
  cases hr : upToCloser p setup s with
  | ok x s' =>
    obtain ⟨xs, ht, hq⟩ := hcloser.ok hr
    exact .of_ok (tryCatch_ok _ hr) ht fun m hm => .inl (hq m hm)
  | error b s' =>
    obtain ⟨⟨xs, ht⟩, hb, hbl⟩ := hcloser.error hr
    by_cases hthrow : b ≠ .resync ∨ s'.halted = true
    · exact .of_error (recoverExpr_throw hr hthrow) ht hb hbl
    · obtain ⟨rfl, hrunning⟩ : b = .resync ∧ s'.halted = false := by simpa using hthrow
      obtain ⟨ys, ht'⟩ : ∃ ys, s'.Takes ys s'.skipToCloser := ⟨_, .skip s' _⟩
      refine .of_ok (recoverExpr_error hr hrunning) (ht.trans ht') fun m hm => .inr ⟨?_, ?_⟩
      · exact hm.errors_of_blamed (hs.takes ht) hbl ht'
      · rw [spanFrom_current hw hs (ht.trans ht')]

end Recovery

end Parser

end SmallJava
