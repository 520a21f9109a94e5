import SmallJava.Proofs.Accounting.Marks
import SmallJava.Proofs.Spans
import SmallJava.Proofs.Steps

/-!
# Accounting for problems

What a parser reports is compared with the marks of the tree that it gives. A faulty node is reported where it stands.
The other way round, such a report belongs to a faulty node of the tree; or the parser bailed out later on, and then the
text that was read is discarded and covered by a bad node. All other problems are reported at a token.

* `Row` — the tokens of a parse, and `Row.Reported`, what is known of every problem;
* `Row.Account` — the problems reported since some state, and the marks that account for them;
* `Row.Tells` — what a parser does to an account, with a rule for each way to put parsers together;
* `Row.Counts` — the parser accounts for the marks of what it gives.
-/

namespace SmallJava

open SmallJava.Parser

/-- **The tokens of a parse.** The marker behind them does not end before it starts. -/
structure Row where
  setup : Setup
  all : List Lexeme
  suits : setup.Suits all
  closed : setup.endMarker.location.span.start ≤ setup.endMarker.location.span.stop

/-! ## Places -/

/-- The location lies within another one. -/
def Location.Within (loc outer : Location) : Prop :=
  outer.span.start ≤ loc.span.start ∧ loc.span.stop ≤ outer.span.stop

/-- The location is that of some of the tokens, which stand next to each other. -/
def RunOf (xs : List Lexeme) (loc : Location) : Prop := ∃ ys, ys <:+: xs ∧ ys ≠ [] ∧ loc = extent ys

/-- Tokens next to each other are so among more tokens. -/
theorem RunOf.mono {xs ys : List Lexeme} {loc : Location} (h : RunOf xs loc) (hx : xs <:+: ys) : RunOf ys loc := by
  obtain ⟨zs, hz, hne, hloc⟩ := h
  exact ⟨zs, hz.trans hx, hne, hloc⟩

/-- Some of the tokens lie within all of them. -/
theorem RunOf.within {xs : List Lexeme} {loc : Location} (h : RunOf xs loc) (ho : Ordered xs) :
    loc.Within (extent xs) := by
  obtain ⟨ys, hys, hne, rfl⟩ := h
  obtain ⟨a, ha, b, hb, hends⟩ := extent_ends hne
  rw [hends]
  exact ⟨(ho.within_extent a (hys.subset ha)).1, (ho.within_extent b (hys.subset hb)).2⟩

/-! ## Matching -/

/-- **The marks match the problems.** Every fault is reported, and every problem of a node is a fault or lies within
text that was not understood. -/
structure Matches (K : Set Mark) (ds : Diagnostics) : Prop where
  told : ∀ code loc, .fault code loc ∈ K → ∃ d ∈ ds, d.code = code ∧ d.location = loc
  meant : ∀ d ∈ ds, d.code.isStructural = true →
    .fault d.code d.location ∈ K ∨ ∃ loc, .bad loc ∈ K ∧ d.location.Within loc

/-- Marks for some problems, and marks for others. -/
theorem Matches.append {K K' : Set Mark} {ds es : Diagnostics} (h : Matches K ds) (h' : Matches K' es) :
    Matches (K ∪ K') (ds ++ es) := by
  constructor
  · rintro code loc (hk | hk)
    · obtain ⟨d, hd, hcode⟩ := h.told code loc hk
      exact ⟨d, List.mem_append_left _ hd, hcode⟩
    · obtain ⟨d, hd, hcode⟩ := h'.told code loc hk
      exact ⟨d, List.mem_append_right _ hd, hcode⟩
  · intro d hd hstructural
    rcases List.mem_append.1 hd with hd | hd
    · rcases h.meant d hd hstructural with hk | ⟨loc, hk, hwithin⟩
      · exact .inl (.inl hk)
      · exact .inr ⟨loc, .inl hk, hwithin⟩
    · rcases h'.meant d hd hstructural with hk | ⟨loc, hk, hwithin⟩
      · exact .inl (.inr hk)
      · exact .inr ⟨loc, .inr hk, hwithin⟩

namespace Row

variable {R : Row} {s₀ s s' t : State} {xs ys : List Lexeme} {ds es : Diagnostics} {K K' : Set Mark}
  {loc : Location}

/-- The token is one of the row, or the marker behind it. -/
def Has (R : Row) (x : Lexeme) : Prop := x ∈ R.all ++ [R.setup.endMarker]

/-- The location goes from the start of a token to the end of a token. -/
def Spans (R : Row) (loc : Location) : Prop := ∃ x y, R.Has x ∧ R.Has y ∧ loc = x.location.through y.location

/-- The current token is one of the row. -/
theorem has_current (R : Row) (hs : s.At R.all) : R.Has (s.current R.setup) := by
  unfold State.current
  cases hrest : s.rest with
  | nil => exact List.mem_append_right _ (List.mem_singleton.2 rfl)
  | cons x r => exact List.mem_append_left _ (hs.mem_of_rest (by simp [hrest]))

/-! ## Accounts -/

/-- **What is known of a problem** that was reported while the tokens `xs` were taken. It is one of the parser. It is
located at some of the tokens taken, or, if it is not one of a node, at any token. -/
structure Reported (R : Row) (xs : List Lexeme) (d : Diagnostic) : Prop where
  code : d.code.isLexical = false
  place : RunOf xs d.location ∨ d.code.isStructural = false ∧ ∃ x, R.Has x ∧ d.location = x.location

theorem Reported.mono {d : Diagnostic} (h : R.Reported xs d) (hx : xs <:+: ys) : R.Reported ys d :=
  ⟨h.code, h.place.imp_left (·.mono hx)⟩

/-- A problem of a node is located at tokens that have been taken. -/
theorem Reported.runOf {d : Diagnostic} (h : R.Reported xs d) (hd : d.code.isStructural = true) :
    RunOf xs d.location := by
  rcases h.place with hrun | ⟨hcode, -⟩
  · exact hrun
  · rw [hd] at hcode
    cases hcode

/-- Problems go from token to token. -/
theorem Reported.spans {d : Diagnostic} (h : R.Reported R.all d) : R.Spans d.location := by
  rcases h.place with ⟨ys, hys, hne, hloc⟩ | ⟨-, x, hx, hloc⟩
  · obtain ⟨x, hx, y, hy, hends⟩ := extent_ends hne
    exact ⟨x, y, List.mem_append_left _ (hys.subset hx), List.mem_append_left _ (hys.subset hy), hloc.trans hends⟩
  · exact ⟨x, x, hx, hx, hloc⟩

/-- Each problem has a span in the right order. -/
theorem Reported.start_le_stop {d : Diagnostic} (h : R.Reported R.all d) :
    d.location.span.start ≤ d.location.span.stop := by
  rcases h.place with ⟨ys, hys, hne, hloc⟩ | ⟨-, x, hx, hloc⟩
  · rw [hloc]
    exact Int.le_of_lt ((R.suits.ordered.sublist hys.sublist).extent_lt hne)
  · rw [hloc]
    rcases List.mem_append.1 hx with hx | hx
    · exact Int.le_of_lt (R.suits.ordered.nonempty x hx)
    · rw [List.mem_singleton.1 hx]
      exact R.closed

/-- Since `s₀` the tokens `xs` have been taken and the problems `ds` reported. -/
structure Since (R : Row) (s₀ s : State) (xs : List Lexeme) (ds : Diagnostics) : Prop where
  rest : s₀.rest = xs ++ s.rest
  problems : s.problems = s₀.problems ++ ds
  halted : s₀.halted = true → s.halted = true
  reported : ∀ d ∈ ds, R.Reported xs d

/-- What was taken and reported, and what was taken and reported after that. -/
theorem Since.trans (h : R.Since s₀ s xs ds) (h' : R.Since s t ys es) : R.Since s₀ t (xs ++ ys) (ds ++ es) where
  rest := by rw [h.rest, h'.rest, List.append_assoc]
  problems := by rw [h'.problems, h.problems, List.append_assoc]
  halted hs := h'.halted (h.halted hs)
  reported d hd := by
    rcases List.mem_append.1 hd with hd | hd
    · exact (h.reported d hd).mono (List.prefix_append _ _).isInfix
    · exact (h'.reported d hd).mono (List.suffix_append _ _).isInfix

/-- Tokens are taken and nothing is reported. -/
theorem since_takes (ht : s.Takes xs t) (hproblems : t.problems = s.problems) (hhalted : t.halted = s.halted) :
    R.Since s t xs [] where
  rest := ht.rest
  problems := by rw [hproblems, List.append_nil]
  halted hs := by rw [hhalted, hs]
  reported d hd := nomatch hd

/-- All that is left when a parser bails out: what was reported is known, but there may be no marks for it. -/
def Lost (R : Row) (s₀ s : State) : Prop := ∃ xs ds, R.Since s₀ s xs ds

/-- **An account.** The marks `K` match what has been reported since `s₀`, unless the parse was halted. -/
structure Account (R : Row) (K : Set Mark) (s₀ s : State) : Prop where
  place : s.At R.all
  since : ∃ xs ds, R.Since s₀ s xs ds ∧ (s.halted = false → Matches K ds)

namespace Account

theorem refl (hs : s.At R.all) : R.Account ∅ s s := by
  refine ⟨hs, [], [], since_takes (.refl s) rfl rfl, fun _ => ?_⟩
  constructor
  · intro code loc hk
    cases hk
  · intro d hd
    cases hd

/-- An account goes on with another one that was opened where it was closed. -/
theorem trans (h : R.Account K s₀ s) (h' : R.Account K' s t) : R.Account (K ∪ K') s₀ t := by
  obtain ⟨xs, ds, hsince, hmatch⟩ := h.since
  obtain ⟨ys, es, hsince', hmatch'⟩ := h'.since
  refine ⟨h'.place, _, _, hsince.trans hsince', fun hgoes => ?_⟩
  have hgoes' : s.halted = false := by
    by_contra hhalted
    rw [hsince'.halted (by simpa using hhalted)] at hgoes
    cases hgoes
  exact (hmatch hgoes').append (hmatch' hgoes)

/-- An account can be given up. -/
theorem lost (h : R.Account K s₀ s) : R.Lost s₀ s := by
  obtain ⟨xs, ds, hsince, -⟩ := h.since
  exact ⟨xs, ds, hsince⟩

/-- What was accounted for is lost if the rest is. -/
theorem trans_lost (h : R.Account K s₀ s) (h' : R.Lost s t) : R.Lost s₀ t := by
  obtain ⟨xs, ds, hsince, -⟩ := h.since
  obtain ⟨ys, es, hsince'⟩ := h'
  exact ⟨_, _, hsince.trans hsince'⟩

/-- Taking tokens does not change an account. -/
theorem takes (h : R.Account K s₀ s) (ht : s.Takes xs t) (hproblems : t.problems = s.problems)
    (hhalted : t.halted = s.halted) : R.Account K s₀ t := by
  obtain ⟨zs, ds, hsince, hmatch⟩ := h.since
  refine ⟨h.place.takes ht, _, _, hsince.trans (since_takes ht hproblems hhalted), fun hgoes => ?_⟩
  rw [List.append_nil]
  exact hmatch (hhalted ▸ hgoes)

/-- Before the first of several nodes. -/
theorem none (h : R.Account K s₀ s) : R.Account (K ∪ Node.marksOf []) s₀ s := by
  rwa [Node.marksOf_nil, Set.union_empty]

/-- Bad nodes do no harm. -/
theorem bad (h : R.Account K s₀ s) (loc : Location) : R.Account (K ∪ {.bad loc}) s₀ s := by
  obtain ⟨xs, ds, hsince, hmatch⟩ := h.since
  refine ⟨h.place, xs, ds, hsince, fun hgoes => ?_⟩
  have hempty : Matches {.bad loc} [] := ⟨fun code loc hk => (nomatch hk), fun d hd => nomatch hd⟩
  simpa only [List.append_nil] using (hmatch hgoes).append hempty

/-- **Discarded text accounts for all that was reported in it.** -/
theorem discard (hs : s.At R.all) (hlost : R.Lost s s') (ht : s.Takes xs t) (hproblems : t.problems = s'.problems)
    (hhalted : t.halted = s'.halted) (hrest : t.rest <:+ s'.rest)
    (hloc : xs ≠ [] → loc = extent xs) : R.Account {.bad loc} s t := by
  obtain ⟨ys, ds, hsince⟩ := hlost
  obtain ⟨zs, hzs⟩ := hrest
  obtain rfl : xs = ys ++ zs := by
    have htaken : xs ++ t.rest = ys ++ zs ++ t.rest := by
      rw [← ht.rest, hsince.rest, ← hzs, List.append_assoc]
    exact List.append_cancel_right htaken
  have hreported : ∀ d ∈ ds, R.Reported (ys ++ zs) d := fun d hd =>
    (hsince.reported d hd).mono (List.prefix_append _ _).isInfix
  refine ⟨hs.takes ht, ys ++ zs, ds, ?_, fun _ => ?_⟩
  · exact ⟨ht.rest, hproblems.trans hsince.problems, fun hh => by rw [hhalted, hsince.halted hh], hreported⟩
  · refine ⟨fun code loc hk => (nomatch hk), fun d hd hstructural => .inr ⟨loc, rfl, ?_⟩⟩
    have hrun := (hreported d hd).runOf hstructural
    have hne : ys ++ zs ≠ [] := by
      rintro hnil
      obtain ⟨ws, hws, hne, -⟩ := hrun
      rw [hnil] at hws
      exact hne (List.infix_nil.1 hws)
    have hordered : Ordered (ys ++ zs) := by
      have hall := hs.ordered R.suits.ordered
      rw [ht.rest] at hall
      exact hall.sublist (List.sublist_append_left _ _)
    rw [hloc hne]
    exact hrun.within hordered

/-- **A report is entered.** A problem of a node is located at tokens taken since `s₀`, and is a new mark; any other
one may stand at a token. -/
theorem report {p : Problem} (h : R.Account K s₀ s) (hp : p.code.isLexical = false)
    (hloc : (∃ xs, s₀.rest = xs ++ s.rest ∧ RunOf xs loc) ∨
      p.code.isStructural = false ∧ ∃ x, R.Has x ∧ loc = x.location) :
    R.Account (K ∪ if p.code.isStructural then {.fault p.code loc} else ∅) s₀ (s.report R.setup p loc) := by
  obtain ⟨xs, ds, hsince, hmatch⟩ := h.since
  obtain ⟨zs, ht⟩ := takes_report R.setup h.place p loc
  cases hhalted : s.halted with
  | true =>
    -- nothing is reported any more, and nothing is promised
    rw [State.report_of_halted hhalted]
    exact ⟨h.place, xs, ds, hsince, fun hgoes => by rw [hhalted] at hgoes; cases hgoes⟩
  | false =>
    obtain ⟨more, hproblems, hmore⟩ := @State.problems_report R.setup s hhalted p loc
    have hplace : RunOf (xs ++ zs) loc ∨ p.code.isStructural = false ∧ ∃ x, R.Has x ∧ loc = x.location := by
      refine hloc.imp_left ?_
      rintro ⟨xs', hxs', hrun⟩
      obtain rfl : xs' = xs := List.append_cancel_right (hxs'.symm.trans hsince.rest)
      exact hrun.mono (List.prefix_append _ _).isInfix
    have hentered : R.Since s₀ (s.report R.setup p loc) (xs ++ zs)
        (ds ++ { problem := p, location := loc, source := R.setup.name } :: more) := by
      constructor
      · rw [hsince.rest, ht.rest, List.append_assoc]
      · rw [hproblems, hsince.problems, List.append_assoc]
      · intro hs
        rw [hsince.halted hs] at hhalted
        cases hhalted
      · intro d hd
        rcases List.mem_append.1 hd with hd | hd
        · exact (hsince.reported d hd).mono (List.prefix_append _ _).isInfix
        rcases List.mem_cons.1 hd with rfl | hd
        · exact ⟨hp, hplace⟩
        · rw [hmore d hd]
          exact ⟨rfl, hplace.imp_right fun hat => ⟨rfl, hat.2⟩⟩
    have hnew : Matches (if p.code.isStructural then {.fault p.code loc} else ∅)
        ({ problem := p, location := loc, source := R.setup.name } :: more) := by
      constructor
      · intro code loc' hk
        split at hk
        · cases hk
          exact ⟨_, List.mem_cons_self, rfl, rfl⟩
        · cases hk
      · intro d hd hstructural
        rcases List.mem_cons.1 hd with rfl | hd
        · refine .inl ?_
          rw [show p.code.isStructural = true from hstructural]
          exact rfl
        · rw [hmore d hd] at hstructural
          cases hstructural
    exact ⟨h.place.takes ht, _, _, hentered, fun _ => (hmatch hhalted).append hnew⟩

/-- A problem at the current token. -/
theorem report_current {p : Problem} (h : R.Account K s₀ s) (hp : p.code.isLexical = false)
    (hstructural : p.code.isStructural = false) :
    R.Account K s₀ (s.report R.setup p (s.current R.setup).location) := by
  have hreport := h.report hp (.inr ⟨hstructural, _, R.has_current h.place, rfl⟩)
  rwa [hstructural, if_neg Bool.false_ne_true, Set.union_empty] at hreport

/-- A faulty node. -/
theorem report_fault {p : Problem} (h : R.Account K s₀ s) (hp : p.code.isLexical = false)
    (hstructural : p.code.isStructural = true) (hrest : s₀.rest = xs ++ s.rest) (hrun : RunOf xs loc) :
    R.Account (K ∪ {.fault p.code loc}) s₀ (s.report R.setup p loc) := by
  have hreport := h.report hp (.inl ⟨xs, hrest, hrun⟩)
  rwa [if_pos hstructural] at hreport

end Account

/-! ## Parsers -/

section Rules

variable {α β : Type} {p : Parser α} {f : α → Parser β} {N : α → Set Mark} {M : β → Set Mark}

/-- **What a parser does to an account** that was opened in `s₀`. Started in `s`, it gives a value and then the marks are
`N` of the value, or it bails out and there is no account. -/
def Tells (R : Row) (s₀ : State) (p : Parser α) (s : State) (N : α → Set Mark) : Prop :=
  match p R.setup s with
  | .ok a t => R.Account (N a) s₀ t
  | .error _ t => R.Lost s₀ t

/-- The parser accounts for the marks of the nodes in what it gives. -/
def Counts (R : Row) (p : Parser α) (nodes : α → List Node) : Prop :=
  ∀ K s₀ s, R.Account K s₀ s → R.Tells s₀ p s fun a => K ∪ Node.marksOf (nodes a)

theorem Tells.ok {a : α} (h : R.Tells s₀ p s N) (hr : p R.setup s = .ok a t) : R.Account (N a) s₀ t := by
  simpa only [Tells, hr] using h

theorem Tells.error {b : Bailout} (h : R.Tells s₀ p s N) (hr : p R.setup s = .error b t) : R.Lost s₀ t := by
  simpa only [Tells, hr] using h

theorem Tells.of_ok {a : α} (hr : p R.setup s = .ok a t) (h : R.Account (N a) s₀ t) : R.Tells s₀ p s N := by
  simpa only [Tells, hr] using h

theorem Tells.of_error {b : Bailout} (hr : p R.setup s = .error b t) (h : R.Lost s₀ t) : R.Tells s₀ p s N := by
  simpa only [Tells, hr] using h

theorem Tells.pure {a : α} (h : R.Account K s₀ s) (hN : N a = K) : R.Tells s₀ (pure a) s N :=
  .of_ok rfl (hN ▸ h)

/-- One parser after another, where it matters how the first one ran. -/
theorem Tells.bind_run (hp : R.Tells s₀ p s N)
    (hf : ∀ a t, p R.setup s = .ok a t → R.Account (N a) s₀ t → R.Tells s₀ (f a) t M) : R.Tells s₀ (p >>= f) s M := by
  cases hr : p R.setup s with
  | ok a t =>
    have hrest := hf a t hr (hp.ok hr)
    unfold Tells
    rwa [bind_ok f hr]
  | error b t => exact .of_error (bind_error f hr) (hp.error hr)

/-- One parser after another: the account of the first is open for the second. -/
theorem Tells.bind (hp : R.Tells s₀ p s N) (hf : ∀ a t, R.Account (N a) s₀ t → R.Tells s₀ (f a) t M) :
    R.Tells s₀ (p >>= f) s M :=
  hp.bind_run fun a t _ => hf a t

/-- What only looks at the state. -/
theorem tells_get_bind {f : State → Parser β} : R.Tells s₀ (get >>= f) s M ↔ R.Tells s₀ (f s) s M := Iff.rfl

theorem tells_current_bind {f : Lexeme → Parser β} :
    R.Tells s₀ (current >>= f) s M ↔ R.Tells s₀ (f (s.current R.setup)) s M := Iff.rfl

theorem tells_token_bind {f : Token → Parser β} :
    R.Tells s₀ (token >>= f) s M ↔ R.Tells s₀ (f (s.current R.setup).token) s M := Iff.rfl

theorem tells_spanFrom_bind {f : Location → Parser β} :
    R.Tells s₀ (spanFrom loc >>= f) s M ↔ R.Tells s₀ (f (s.spanFrom loc)) s M := Iff.rfl

/-! ## Tokens and problems -/

/-- A token that is taken leaves the account as it is. -/
theorem tells_next_cons {x : Lexeme} {r : List Lexeme} {f : Lexeme → Parser β} (h : R.Account K s₀ s)
    (hrest : s.rest = x :: r) (hf : ∀ t, t.rest = r → R.Account K s₀ t → R.Tells s₀ (f x) t M) :
    R.Tells s₀ (next >>= f) s M := by
  have hnext := hf _ rfl (h.takes (.next hrest) rfl rfl)
  have hrun : (next >>= f) R.setup s = f x R.setup { s with rest := r, last := some x } := by
    show f (s.current R.setup) R.setup { s with rest := s.rest.tail, last := some (s.current R.setup) } = _
    simp [State.current, hrest]
  unfold Tells
  rwa [hrun]

/-- A token that is there is taken. -/
theorem tells_next_bind {f : Lexeme → Parser β} (h : R.Account K s₀ s) (hne : (s.current R.setup).token ≠ .eof)
    (hf : ∀ t, R.Account K s₀ t → R.Tells s₀ (f (s.current R.setup)) t M) : R.Tells s₀ (next >>= f) s M :=
  tells_next_cons h (rest_eq_of_token R.suits hne) fun t _ ht => hf t ht

/-- Two tokens that are looked at, and taken if they are the right ones. -/
theorem tells_pair {x y : Lexeme} {r : List Lexeme} {c : Prop} [Decidable c] {a : α} {g : Lexeme → α}
    (h : R.Account K s₀ s) (hrest : s.rest = x :: y :: r) :
    R.Tells s₀ (if c then next >>= fun _ => next >>= fun z => pure (g z) else pure a) s fun _ => K := by
  split
  · exact tells_next_cons h hrest fun s₁ hrest₁ h₁ => tells_next_cons h₁ hrest₁ fun s₂ _ h₂ => .pure h₂ rfl
  · exact .pure h rfl

/-- A report with a problem that the account has marks for. -/
theorem tells_report_bind {q : Problem} {f : Unit → Parser β} (h : R.Account K s₀ (s.report R.setup q loc))
    (hf : ∀ t, R.Account K s₀ t → R.Tells s₀ (f ()) t M) : R.Tells s₀ (Parser.report q loc >>= f) s M :=
  hf _ h

/-- Something unexpected is reported, and the account is lost. -/
theorem tells_fail {p : Problem} (h : R.Account K s₀ s) (hp : p.code = .unexpectedToken) :
    R.Tells s₀ (fail p : Parser α) s N := by
  unfold fail
  rw [tells_current_bind, tells_get_bind]
  split
  · exact .of_error rfl (h.takes (.note s _) rfl rfl).lost
  · exact .of_error rfl (h.report_current (by rw [hp]; rfl) (by rw [hp]; rfl)).lost

/-- Where there is no level left, everything is lost. -/
theorem tells_nested {ι : Type} {inner : Option ι} {p : ι → Parser α} (h : R.Account K s₀ s)
    (hp : ∀ i, inner = some i → R.Tells s₀ (p i) s N) : R.Tells s₀ (nested inner p) s N := by
  cases inner with
  | some i => exact hp i rfl
  | none =>
    have hrun : nested none p R.setup s = .error .resync
        ((s.report R.setup (.nestedTooDeeply R.setup.maxDepth) (s.current R.setup).location).stop R.setup) := rfl
    have hreport : R.Account K s₀ (s.report R.setup (.nestedTooDeeply R.setup.maxDepth) (s.current R.setup).location) :=
      h.report_current rfl rfl
    obtain ⟨xs, ht⟩ := State.Takes.stop R.setup
      (report_cases R.setup h.place (.nestedTooDeeply R.setup.maxDepth) (s.current R.setup).location).1
    refine .of_error hrun (hreport.trans_lost ⟨xs, [], ht.rest, ?_, fun _ => State.halted_stop _, fun d hd => nomatch hd⟩)
    rw [State.stop_problems, List.append_nil]

/-- A token that is wanted is taken, or the account is lost. -/
theorem tells_want {x : Token} (h : R.Account K s₀ s) (hx : x ≠ .eof) : R.Tells s₀ (want x) s fun _ => K := by
  unfold want
  rw [tells_current_bind]
  split
  · next htoken => exact .of_ok rfl (h.takes (.next (rest_eq_of_token R.suits (htoken ▸ hx))) rfl rfl)
  · exact tells_fail h rfl

theorem tells_got {x : Token} (h : R.Account K s₀ s) (hx : x ≠ .eof) : R.Tells s₀ (got x) s fun _ => K := by
  unfold got
  rw [tells_token_bind]
  split
  · next htoken => exact tells_next_bind h (htoken ▸ hx) fun t ht => .pure ht rfl
  · exact .pure h rfl

/-! ## Repetition -/

section Loops

variable {step : α → Parser (ForInStep α)} {I : α → Set Mark}

/-- The marks after a step of a loop, which goes on or is done. -/
def stepMarks (I N : α → Set Mark) : ForInStep α → Set Mark
  | .yield a => I a
  | .done a => N a

/-- An account that each step keeps is kept by the loop. -/
theorem tells_loopWithin (hstep : ∀ a s, R.Account (I a) s₀ s → R.Tells s₀ (step a) s (stepMarks I N))
    (bound : List Lexeme) (a : α) (h : R.Account (I a) s₀ s) : R.Tells s₀ (loopWithin step bound a) s N := by
  induction bound generalizing a s with
  | nil =>
    rw [loopWithin]
    refine (hstep a s h).bind fun r t ht => ?_
    cases r with
    | done b => exact .pure ht rfl
    | yield b => exact .of_error rfl ht.lost
  | cons x bound ih =>
    rw [loopWithin]
    refine (hstep a s h).bind fun r t ht => ?_
    cases r with
    | done b => exact .pure ht rfl
    | yield b => exact ih b ht

/-- **Loops.** While a loop goes on, its steps keep up with the marks. -/
theorem tells_loop_until {a : α} (h : R.Account (I a) s₀ s)
    (hstep : ∀ a s, R.Account (I a) s₀ s → R.Tells s₀ (step a) s (stepMarks I N)) : R.Tells s₀ (loop a step) s N := by
  unfold loop
  rw [tells_get_bind]
  exact tells_loopWithin hstep s.rest a h

/-- A loop whose last step is like the others. -/
theorem tells_loop {a : α} (h : R.Account (I a) s₀ s)
    (hstep : ∀ a s, R.Account (I a) s₀ s → R.Tells s₀ (step a) s fun r => I r.value) :
    R.Tells s₀ (loop a step) s I := by
  have hmarks : stepMarks I I = fun r => I r.value := by
    funext r
    cases r with
    | yield b => rfl
    | done b => rfl
  exact tells_loop_until h (hmarks ▸ hstep)

end Loops

/-- Each item adds its marks. -/
theorem tells_itemStep {item : Parser α} {nodes : α → List Node} (hitem : R.Counts item nodes) (as : List α)
    (h : R.Account (K ∪ Node.marksOf (as.flatMap nodes)) s₀ s) :
    R.Tells s₀ (itemStep item as) s fun r => K ∪ Node.marksOf (r.value.flatMap nodes) := by
  refine (hitem _ _ _ h).bind fun a t ht => (tells_got ht (by decide)).bind fun more t' ht' => ?_
  split
  · exact .pure ht' (by simp [Set.union_assoc])
  · exact .pure ht' (by simp [Set.union_assoc])

/-- A list accounts for its items. -/
theorem counts_separatedUntil {item : Parser α} {nodes : α → List Node} (hitem : R.Counts item nodes)
    (ending : Token) : R.Counts (separatedUntil ending item) fun as => as.flatMap nodes := by
  intro K s₀ s h
  unfold separatedUntil
  rw [tells_token_bind]
  split
  · exact .pure h.none rfl
  · exact tells_loop h.none fun as t ht => tells_itemStep hitem as ht

theorem counts_optionalAfter {p : Parser α} {nodes : α → List Node} (hp : R.Counts p nodes) {x : Token}
    (hx : x ≠ .eof) : R.Counts (optionalAfter x p) fun o => o.toList.flatMap nodes := by
  intro K s₀ s h
  refine (tells_got h hx).bind fun more t ht => ?_
  split
  · exact (hp _ _ _ ht).bind fun a t' ht' => .pure ht' (by simp)
  · exact .pure ht.none rfl

end Rules

/-! ## Recovery -/

section Recovery

/-- The marks of an expression. -/
abbrev CountsExpr (R : Row) (p : Parser Expr) : Prop := R.Counts p fun x => [.expr x]

/-- The marks of a statement. -/
abbrev CountsStmt (R : Row) (p : Parser Stmt) : Prop := R.Counts p fun s => [.stmt s]

/-- **A statement that recovers** accounts for everything: what was reported in text that is discarded lies within the
bad node. -/
theorem counts_recoverStmt {p : Parser Stmt} {Q : Grammar.Mode → List Lexeme → Stmt → Prop} (hp : R.CountsStmt p)
    (hreads : ∀ s, s.At R.all → Reads R.setup R.all p s Q) : R.CountsStmt (recoverStmt p) := by
  intro K s₀ s h
  have htells := hp ∅ s s (.refl h.place)
  cases hr : p R.setup s with
  | ok x t =>
    refine .of_ok (recoverStmt_ok hr) (h.trans ?_)
    simpa using htells.ok hr
  | error b t =>
    obtain ⟨⟨xs, ht⟩, hb, -⟩ := (hreads s h.place).error hr
    obtain ⟨ys, ht', -⟩ := takes_abandon R.suits t (s.current R.setup) (b = .resync)
    obtain ⟨hproblems, hhalted⟩ := @abandon_silent R.setup t (s.current R.setup) (b = .resync)
    refine .of_ok (recoverStmt_error hr hb) (h.trans ?_)
    simp only [Node.marksOf_cons, Node.marks_badStmt, Node.marksOf_nil, Set.union_empty]
    refine .discard h.place (htells.error hr) (ht.trans ht') hproblems hhalted ⟨ys, ht'.rest.symm⟩ fun hnonempty => ?_
    rw [spanFrom_current R.suits h.place (ht.trans ht'), if_neg hnonempty]

theorem counts_upToCloser {p : Parser Expr} (hp : R.CountsExpr p) : R.CountsExpr (upToCloser p) := by
  intro K s₀ s h
  refine (hp _ _ _ h).bind fun x t ht => ?_
  rw [tells_current_bind]
  split
  · exact .pure ht rfl
  · exact tells_fail ht rfl

/-- The same of an expression up to a closing parenthesis. -/
theorem counts_recoverExpr {p : Parser Expr} {Q : Grammar.Mode → List Lexeme → Expr → Prop} (hp : R.CountsExpr p)
    (hreads : ∀ s, s.At R.all → Reads R.setup R.all p s Q) : R.CountsExpr (recoverExpr p) := by
  intro K s₀ s h
  have htells := counts_upToCloser hp ∅ s s (.refl h.place)
  cases hr : upToCloser p R.setup s with
  | ok x t =>
    refine .of_ok (tryCatch_ok _ hr) (h.trans ?_)
    simpa using htells.ok hr
  | error b t =>
    obtain ⟨⟨xs, ht⟩, -, -⟩ := (reads_upToCloser h.place (hreads s h.place)).error hr
    by_cases hthrow : b ≠ .resync ∨ t.halted = true
    · exact .of_error (recoverExpr_throw hr hthrow) (h.trans_lost (htells.error hr))
    · obtain ⟨rfl, hrunning⟩ : b = .resync ∧ t.halted = false := by simpa using hthrow
      obtain ⟨ys, ht'⟩ : ∃ ys, t.Takes ys t.skipToCloser := ⟨_, .skip t _⟩
      refine .of_ok (recoverExpr_error hr hrunning) (h.trans ?_)
      simp only [Node.marksOf_cons, Node.marks_badExpr, Node.marksOf_nil, Set.union_empty]
      refine .discard h.place (htells.error hr) (ht.trans ht') rfl rfl ⟨ys, ht'.rest.symm⟩ fun hnonempty => ?_
      rw [spanFrom_current R.suits h.place (ht.trans ht'), if_neg hnonempty]

end Recovery

end Row

end SmallJava
