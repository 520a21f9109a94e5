import SmallJava.Proofs.Accounting.Program
import SmallJava.Proofs.Comments
import SmallJava.Proofs.Reporting
import SmallJava.Proofs.Stability

/-!
# Limits on errors

A limit on errors only cuts the report short. A parse with a limit and one without go the same way as long as fewer
problems have been reported than the limit allows. At the last one the limited parse adds that there are too many errors
and is halted. From there on the two parses differ: the limited one still has to leave the constructs that it is in, and
may bail out elsewhere. But it reports nothing more, and the other one takes nothing back.

* `State.Cut` — what the two parses have come to when the limit has been reached, which any steps keep;
* `Parser.LockStep` — two parses that go the same way or are cut, which holds of all parsers (`Parser.lockStep`).
-/

namespace SmallJava

/-- The same text, with a limit on errors. -/
def Setup.limited (setup : Setup) (k : Nat) : Setup := { setup with maxErrors := some k }

/-- What is reported when there are too many errors, of which `d` is the last. -/
def Diagnostic.tooMany (d : Diagnostic) : Diagnostic :=
  { problem := .tooManyErrors, location := d.location, source := d.source }

namespace State

variable {setup : Setup} {s s' t t' u u' : State} {k : Nat}

/-- Behind a limit: `t` is the state of a parse without a limit, and `t'` that of one that was halted after `k`
problems. -/
structure Cut (k : Nat) (t t' : State) : Prop where
  reached : k ≤ t.problems.length
  halted : t'.halted = true
  problems : ∃ d, t.problems[k - 1]? = some d ∧ t'.problems = t.problems.take k ++ [d.tooMany]

/-- Nothing more is reported when the parse has been halted. -/
theorem Steps.of_halted (h : Steps setup s s') (hs : s.halted = true) :
    s'.halted = true ∧ s'.problems = s.problems := by
  refine h.keeps (I := fun t => t.halted = true ∧ t.problems = s.problems) ?_ ⟨hs, rfl⟩
  rintro t t' hstep ⟨hhalted, hproblems⟩
  cases hstep with
  | next | skip | note => exact ⟨hhalted, hproblems⟩
  | report p loc =>
    rw [report_of_halted hhalted]
    exact ⟨hhalted, hproblems⟩
  | halt =>
    rw [report_of_halted hhalted, stop_of_halted hhalted]
    exact ⟨hhalted, hproblems⟩

/-- Without a limit there are never too many errors. -/
theorem Steps.not_tooMany (hnone : setup.maxErrors = none) (h : Steps setup s s')
    (hs : ∀ d ∈ s.problems, d.code ≠ .tooManyErrors) : ∀ d ∈ s'.problems, d.code ≠ .tooManyErrors := by
  refine h.keeps (I := fun t => ∀ d ∈ t.problems, d.code ≠ .tooManyErrors) ?_ hs
  intro t t' hstep ht
  have hreport : ∀ p loc, p.code ≠ .tooManyErrors →
      ∀ d ∈ (t.report setup p loc).problems, d.code ≠ .tooManyErrors := by
    intro p loc hp d hd
    simp only [report, hnone] at hd
    split at hd
    · exact ht d hd
    · rcases List.mem_append.1 hd with hd | hd
      · exact ht d hd
      · rw [List.mem_singleton.1 hd]
        exact hp
  cases hstep with
  | next | skip | note => exact ht
  | report p loc hp => exact hreport p loc hp.2
  | halt =>
    rw [stop_problems]
    exact hreport _ _ (by simp [Problem.code])

/-- **Steps do not undo a cut.** -/
theorem Cut.steps {setup' : Setup} (h : Cut k t t') (hu : Steps setup t u) (hu' : Steps setup' t' u') : Cut k u u' := by
  obtain ⟨more, hmore⟩ := hu.prefix_problems
  obtain ⟨hhalted, hsame⟩ := hu'.of_halted h.halted
  obtain ⟨d, hd, hproblems⟩ := h.problems
  have hlt := (List.getElem?_eq_some_iff.1 hd).1
  have hreached := h.reached
  refine ⟨?_, hhalted, d, ?_, ?_⟩
  · rw [← hmore, List.length_append]
    omega
  · rw [← hmore, List.getElem?_append_left hlt, hd]
  · rw [hsame, hproblems, ← hmore, List.take_append_of_le_length hreached]

theorem Cut.stop {setup' : Setup} (h : Cut k t t') : Cut k (t.stop setup) (t'.stop setup') := by
  rw [State.stop_of_halted h.halted]
  exact ⟨by simpa using h.reached, h.halted, by simpa using h.problems⟩

/-- **Reporting below a limit**: the problem is reported in both parses, and the last one cuts the limited parse. -/
theorem report_limited (hnone : setup.maxErrors = none) (hs : s.problems.length < k) (p : Problem) (loc : Location) :
    (s.report (setup.limited k) p loc = s.report setup p loc ∧ (s.report setup p loc).problems.length < k) ∨
      Cut k (s.report setup p loc) (s.report (setup.limited k) p loc) := by
  by_cases hhalted : s.halted = true
  · rw [report_of_halted hhalted, report_of_halted hhalted]
    exact .inl ⟨rfl, hs⟩
  · have hfree : s.report setup p loc = s.addProblem setup p loc := by
      simp only [report, hhalted, hnone, Bool.false_eq_true, if_false]
    have hlimited : s.report (setup.limited k) p loc
        = if k ≤ s.problems.length + 1
          then ((s.addProblem setup p loc).stop (setup.limited k)).addProblem setup .tooManyErrors loc
          else s.addProblem setup p loc := by
      simp only [report, hhalted, Bool.false_eq_true, if_false, Setup.limited, addProblem, List.length_append,
        List.length_singleton]
    have hlength : (s.addProblem setup p loc).problems.length = s.problems.length + 1 := by simp [addProblem]
    rw [hfree, hlimited]
    split
    · next hle =>
      refine .inr ⟨by omega, ?_, { problem := p, location := loc, source := setup.name }, ?_, ?_⟩
      · simp [addProblem, State.stop, hhalted]
      · rw [show k - 1 = s.problems.length by omega]
        simp [addProblem]
      · rw [List.take_of_length_le (by omega)]
        simp [addProblem, Diagnostic.tooMany]
    · next hle => exact .inl ⟨rfl, by omega⟩

end State

namespace Parser

open State

variable {α β : Type} {setup : Setup} {k : Nat}

/-- **Lock step.** The parser goes the same way with a limit as without one, and reports fewer problems than the limit
allows; or the limited parse is cut. -/
structure LockStep (setup : Setup) (k : Nat) (p : Parser α) : Prop where
  free : Walks setup p
  limited : Walks (setup.limited k) p
  together : ∀ s : State, s.problems.length < k →
    (p (setup.limited k) s = p setup s ∧ (endOfRun (p setup s)).problems.length < k) ∨
      State.Cut k (endOfRun (p setup s)) (endOfRun (p (setup.limited k) s))

/-- A parser that reports nothing and does not look at the limit. -/
theorem LockStep.of_silent {p : Parser α} (hfree : Walks setup p) (hlimited : Walks (setup.limited k) p)
    (hsame : ∀ s, p (setup.limited k) s = p setup s) (hsilent : ∀ s, (endOfRun (p setup s)).problems = s.problems) :
    LockStep setup k p :=
  ⟨hfree, hlimited, fun s hs => .inl ⟨hsame s, by rwa [hsilent s]⟩⟩

theorem LockStep.bind {p : Parser α} {f : α → Parser β} (hp : LockStep setup k p) (hf : ∀ a, LockStep setup k (f a)) :
    LockStep setup k (p >>= f) := by
  refine ⟨walks.bind hp.free fun a => (hf a).free, walks.bind hp.limited fun a => (hf a).limited, fun s hs => ?_⟩
  rcases hp.together s hs with ⟨hsame, hlt⟩ | hcut
  · cases hr : p setup s with
    | ok a s₁ =>
      rw [hr] at hsame hlt
      rw [bind_ok f hr, bind_ok f hsame]
      exact (hf a).together s₁ hlt
    | error b s₁ =>
      rw [hr] at hsame hlt
      rw [bind_error f hr, bind_error f hsame]
      exact .inl ⟨rfl, hlt⟩
  · -- whether the second part runs at all may differ, but both parses only take steps
    exact .inr (hcut.steps (PassesThrough.bind .refl fun a => (hf a).free)
      (PassesThrough.bind .refl fun a => (hf a).limited))

theorem LockStep.tryCatch {p : Parser α} {handler : Bailout → Parser α} (hp : LockStep setup k p)
    (hh : ∀ b, LockStep setup k (handler b)) : LockStep setup k (tryCatch p handler) := by
  refine ⟨walks.tryCatch hp.free fun b => (hh b).free, walks.tryCatch hp.limited fun b => (hh b).limited,
    fun s hs => ?_⟩
  rcases hp.together s hs with ⟨hsame, hlt⟩ | hcut
  · cases hr : p setup s with
    | ok a s₁ =>
      rw [hr] at hsame hlt
      rw [tryCatch_ok handler hr, tryCatch_ok handler hsame]
      exact .inl ⟨rfl, hlt⟩
    | error b s₁ =>
      rw [hr] at hsame hlt
      rw [tryCatch_error handler hr, tryCatch_error handler hsame]
      exact (hh b).together s₁ hlt
  · exact .inr (hcut.steps (PassesThrough.tryCatch .refl fun b => (hh b).free)
      (PassesThrough.tryCatch .refl fun b => (hh b).limited))

/-- **All parsers go in lock step** with a limit and without one. -/
theorem lockStep (hnone : setup.maxErrors = none) : Compositional (LockStep setup k) where
  pure := .of_silent walks.pure walks.pure (fun _ => rfl) fun _ => rfl
  throw := .of_silent walks.throw walks.throw (fun _ => rfl) fun _ => rfl
  bind := .bind
  tryCatch := .tryCatch
  get := .of_silent walks.get walks.get (fun _ => rfl) fun _ => rfl
  current := .of_silent walks.current walks.current (fun _ => rfl) fun _ => rfl
  next := .of_silent walks.next walks.next (fun _ => rfl) fun _ => rfl
  note e := .of_silent (walks.note e) (walks.note e) (fun _ => rfl) fun _ => rfl
  skip n := .of_silent (walks.skip n) (walks.skip n) (fun _ => rfl) fun _ => rfl
  report {p} hp loc := by
    refine ⟨walks.report hp loc, walks.report hp loc, fun s hs => ?_⟩
    rcases report_limited hnone hs p loc with ⟨hsame, hlt⟩ | hcut
    · exact .inl ⟨congrArg (EStateM.Result.ok ()) hsame, hlt⟩
    · exact .inr hcut
  tooDeep {ι α p} := by
    refine ⟨walks.tooDeep, walks.tooDeep, fun s hs => ?_⟩
    -- the parse without a limit is stopped here too, but not for too many errors
    rcases report_limited hnone hs (.nestedTooDeeply setup.maxDepth) (s.current setup).location with ⟨hsame, hlt⟩ | hcut
    · refine .inl ⟨congrArg (fun t => EStateM.Result.error Bailout.resync (State.stop setup t)) hsame, ?_⟩
      show ((s.report setup _ _).stop setup).problems.length < k
      rwa [stop_problems]
    · exact .inr hcut.stop
  abandon start sync :=
    .of_silent (walks.abandon start sync) (walks.abandon start sync) (fun _ => rfl) fun s =>
      (abandon_silent s start sync).1

end Parser

/-! ## Whole texts -/

theorem readStatements_snd (o : Options) (s : Source) :
    (readStatements o s).2
      = Parser.endOfRun (Parser.topStmts o.depthLimit (o.setup s) { rest := s.tokens }) := by
  unfold readStatements
  cases Parser.topStmts o.depthLimit (o.setup s) { rest := s.tokens } with
  | ok stmts final => rfl
  | error b final => rfl

/-- **A limit cuts the problems of a text.** -/
theorem readStatements_limited (o : Options) (s : Source) {k : Nat} (hk : 0 < k) :
    let free := (readStatements { o with maxErrors := 0 } s).2
    let limited := (readStatements { o with maxErrors := k } s).2
    (limited.problems = free.problems ∧ free.problems.length < k) ∨ free.Cut k limited := by
  intro free limited
  have hsetup : ({ o with maxErrors := k } : Options).setup s
      = (({ o with maxErrors := 0 } : Options).setup s).limited k := by
    have hlimit : ({ o with maxErrors := k } : Options).errorLimit? = some k := by
      simp only [Options.errorLimit?]
      rw [if_neg (by omega), Int.toNat_natCast]
    rw [Options.setup, hlimit]
    rfl
  have hfree : free = _ := readStatements_snd { o with maxErrors := 0 } s
  have hlimited : limited = _ := readStatements_snd { o with maxErrors := k } s
  rw [hsetup] at hlimited
  rw [hfree, hlimited]
  have hnone : (({ o with maxErrors := 0 } : Options).setup s).maxErrors = none := rfl
  rcases ((Parser.lockStep hnone).topStmts o.depthLimit).together { rest := s.tokens } hk with ⟨hsame, hlt⟩ | hcut
  · exact .inl ⟨congrArg (fun r => (Parser.endOfRun r).problems) hsame, hlt⟩
  · exact .inr hcut

/-- What is reported about a text starts in it. -/
theorem start_within (o : Options) (s : Source) :
    ∀ d ∈ [s.faults, (readStatements o s).2.problems].flatten, 0 ≤ d.start ∧ d.start ≤ s.size := by
  intro d hd
  obtain ⟨hstart, hle, hstop, -⟩ := located_of_mem_diagnostics (mem_diagnostics_iff.2 (by simpa using hd))
  exact ⟨hstart, Int.le_trans hle hstop⟩

/-- **A limit on errors only cuts the report short.** Take the problems that a parse reports, in the order in which it
comes to them. With no limit none of them is that there are too many errors. With a limit of `k` they are the same if
there are fewer than `k`, and else the first `k` of them and, at the place of the last of these, that there are too
many. With any limit the whole text is read, so that the scanner reports the same lexical problems. The diagnostics are
these and the others in the order of their places, and with equal places in the order in which they were found, lexical
ones first. -/
theorem parse_limited (o : Options) (s : Source) {k : Nat} (hk : 0 < k) :
    let problems := fun limit : Int => (readStatements { o with maxErrors := limit } s).2.problems
    (∀ d ∈ problems 0, d.code ≠ .tooManyErrors) ∧
    ((problems 0).length < k → problems k = problems 0) ∧
    (k ≤ (problems 0).length → ∃ d, (problems 0)[k - 1]? = some d ∧
      problems k = (problems 0).take k ++ [{ problem := .tooManyErrors, location := d.location, source := s.name }]) ∧
    ∀ limit : Int,
      (∀ calls : List Stream.Call, (∀ call ∈ calls, call.sets = false) →
        s.tokens.length ≤ calls.count .next + (readStatements { o with maxErrors := limit } s).2.rest.length →
        (((Stream.ofSource s).listen o.keepComments).run (calls ++ [.token])).2.scanner.diagnostics = s.faults) ∧
      (parse { o with maxErrors := limit } s).diagnostics = Diagnostics.merge [s.faults, problems limit] ∧
      (s.size < 0x8000000000000000 → StableSort.Orders Diagnostic.start (s.faults ++ problems limit)
        (parse { o with maxErrors := limit } s).diagnostics) := by
  intro problems
  have hcut := readStatements_limited o s hk
  obtain ⟨hsteps, -⟩ := readStatements_steps { o with maxErrors := 0 } s
  refine ⟨?_, fun hlt => ?_, fun hle => ?_, fun limit => ⟨fun calls hcalls hcount => ?_, rfl, fun hsize => ?_⟩⟩
  · exact hsteps.not_tooMany rfl fun d hd => nomatch hd
  · rcases hcut with ⟨hsame, -⟩ | hcut
    · exact hsame
    · exact absurd hcut.reached (Nat.not_le.2 hlt)
  · -- the report of too many errors has the name of the source, as the last problem has
    rcases hcut with ⟨-, hlt⟩ | hcut
    · exact absurd hlt (Nat.not_lt.2 hle)
    · obtain ⟨d, hd, hproblems⟩ := hcut.problems
      refine ⟨d, hd, ?_⟩
      have hsource : d.source = s.name :=
        (hsteps.keeps (fun _ _ => State.Step.reportsErrors) (fun d hd => nomatch hd) d (List.mem_of_getElem? hd)).2
      rw [← hsource]
      exact hproblems
  · -- whatever the limit is, nothing is left when the parse ends
    exact (stream_after { o with maxErrors := limit } s hcalls hcount).2
  · have hrange : ∀ d ∈ [s.faults, problems limit].flatten, 0 ≤ d.start ∧ d.start < 0x8000000000000000 := by
      intro d hd
      have := start_within { o with maxErrors := limit } s d hd
      omega
    have horders := Diagnostics.merge_orders hrange
    rwa [List.flatten_cons, List.flatten_cons, List.flatten_nil, List.append_nil] at horders

/-- Two expressions are missing, with a character that is not expected between them; a call is assigned to, and a block
is left open. -/
def troubledSource : Source :=
  { name := "", text := utf8 "a = ;\n# b = ;\nf() = 1;\n\x7b c;", wellFormed := by decide +kernel }

theorem parse_limited_troubled :
    let problems := fun limit : Int => (readStatements { maxErrors := limit } troubledSource).2.problems
    (problems 0).length = 4 ∧ 2 ≤ (problems 0).length ∧ troubledSource.faults.length = 1 ∧
    (∃ d, (problems 0)[1]? = some d ∧
      problems 2 = (problems 0).take 2 ++ [{ problem := .tooManyErrors, location := d.location, source := "" }]) ∧
    troubledSource.size < 0x8000000000000000 ∧
    StableSort.Orders Diagnostic.start (troubledSource.faults ++ problems 2)
      (parse { maxErrors := 2 } troubledSource).diagnostics := by
  intro problems
  have hlength : 2 ≤ (problems 0).length := by decide +kernel
  have hsize : troubledSource.size < 0x8000000000000000 := by decide +kernel
  obtain ⟨-, -, hcut, hmerged⟩ := parse_limited {} troubledSource (k := 2) (by decide)
  exact ⟨by decide +kernel, hlength, by decide +kernel, hcut hlength, hsize, (hmerged 2).2.2 hsize⟩

end SmallJava
