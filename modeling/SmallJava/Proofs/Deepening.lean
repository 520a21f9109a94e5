import SmallJava.Proofs.Depth
import SmallJava.Proofs.Relational

/-!
# A greater nesting limit

A nesting limit that a parse stays within does not show: a parse that may go deeper goes the same way, and gives and
reports the same. But a parse that was halted by the limit on errors may go beyond its nesting limit without a report,
on the way out of the constructs it is in. It bails out there, and so does the other one, perhaps for another reason,
because there are no tokens left. So the two parses are compared up to the reasons for which they bail out when they have
been halted, and up to their logs.

* `State.Exceeded` — too deep nesting has been reported, and then nothing is said about the other parse;
* `Parser.Deepens` — a parser and one with more levels to spend, which holds of all parsers (`Parser.deepens`).
-/

namespace SmallJava

/-- The same text, with another nesting limit. -/
def Setup.deepened (setup : Setup) (n : Nat) : Setup := { setup with maxDepth := n }

namespace State

variable {setup : Setup} {n : Nat} {s s' s'' : State}

/-- Too deep nesting has been reported. -/
def Exceeded (s : State) : Prop := ∃ d ∈ s.problems, d.code = .maxNestingDepthExceeded

/-- A halted parse has no tokens left. -/
def Emptied (s : State) : Prop := s.halted = true → s.rest = []

/-- What has been reported stays reported. -/
theorem Steps.exceeded (h : Steps setup s s') (hs : s.Exceeded) : s'.Exceeded := by
  obtain ⟨d, hd, hcode⟩ := hs
  exact ⟨d, h.prefix_problems.subset hd, hcode⟩

/-- To give up the rest of the text is to take all of it. -/
theorem emptied_stop (hs : s.Emptied) : (s.stop setup).Emptied := by
  unfold stop
  split
  · exact hs
  · intro _
    exact List.drop_length

/-- A report that halts the parse discards what is left. -/
theorem emptied_report (hs : s.Emptied) (p : Problem) (loc : Location) : (s.report setup p loc).Emptied := by
  have hadd : (s.addProblem setup p loc).Emptied := hs
  unfold report
  split
  · exact hs
  · dsimp only
    split
    · split
      · exact emptied_stop hadd
      · exact hadd
    · exact hadd

/-- No step takes tokens back into a halted parse. -/
theorem Step.emptied (h : Step setup s s') (hs : s.Emptied) : s'.Emptied := by
  cases h with
  | next =>
    intro hhalted
    show s.rest.tail = []
    rw [hs hhalted]
    rfl
  | skip n =>
    intro hhalted
    show s.rest.drop n = []
    rw [hs hhalted, List.drop_nil]
  | note e => exact hs
  | report p loc => exact emptied_report hs p loc
  | halt => exact emptied_stop (emptied_report hs _ _)

namespace Alike

theorem refl (s : State) : s.Alike s := ⟨rfl, rfl, rfl, rfl⟩

theorem symm (h : s.Alike s') : s'.Alike s := ⟨h.rest.symm, h.last.symm, h.problems.symm, h.halted.symm⟩

theorem trans (h : s.Alike s') (h' : s'.Alike s'') : s.Alike s'' :=
  ⟨h.rest.trans h'.rest, h.last.trans h'.last, h.problems.trans h'.problems, h.halted.trans h'.halted⟩

/-- Alike states stand before the same token, whatever the limit is. -/
theorem current (h : s.Alike s') : s.current setup = s'.current (setup.deepened n) := by
  unfold State.current
  rw [h.rest]
  rfl

theorem skip (h : s.Alike s') (k : Nat) : (s.skip k).Alike (s'.skip k) := by
  unfold State.skip
  rw [h.rest, h.last]
  exact ⟨rfl, rfl, h.problems, h.halted⟩

theorem note (h : s.Alike s') (e e' : Event) : (s.note e).Alike (s'.note e') :=
  ⟨h.rest, h.last, h.problems, h.halted⟩

theorem next (h : s.Alike s') :
    State.Alike { s with rest := s.rest.tail, last := some (s.current setup) }
      { s' with rest := s'.rest.tail, last := some (s'.current (setup.deepened n)) } := by
  have hcurrent : s.current setup = s'.current (setup.deepened n) := h.current
  rw [h.rest, hcurrent]
  exact ⟨rfl, rfl, h.problems, h.halted⟩

/-- Alike states report the same problem. -/
theorem addProblem (h : s.Alike s') (p : Problem) (loc : Location) :
    (s.addProblem setup p loc).Alike (s'.addProblem (setup.deepened n) p loc) := by
  refine ⟨h.rest, h.last, ?_, h.halted⟩
  show s.problems ++ _ = s'.problems ++ _
  rw [h.problems]
  rfl

/-- Alike states are halted in the same way. -/
theorem stop (h : s.Alike s') : (s.stop setup).Alike (s'.stop (setup.deepened n)) := by
  unfold State.stop
  rw [h.halted]
  split
  · exact h
  · have hskip := h.skip s.rest.length
    refine ⟨hskip.rest.trans ?_, hskip.last.trans ?_, h.problems, rfl⟩
    · rw [h.rest]
      rfl
    · rw [h.rest]
      rfl

/-- The limit on errors is the same for both, so both are halted or neither is. -/
theorem report (h : s.Alike s') (p : Problem) (loc : Location) :
    (s.report setup p loc).Alike (s'.report (setup.deepened n) p loc) := by
  have hadd : (s.addProblem setup p loc).Alike (s'.addProblem (setup.deepened n) p loc) := h.addProblem p loc
  have hlength : (s.addProblem setup p loc).problems.length = (s'.addProblem (setup.deepened n) p loc).problems.length := by
    rw [hadd.problems]
  have hlimit : (setup.deepened n).maxErrors = setup.maxErrors := rfl
  by_cases hhalted : s'.halted = true
  · rw [report_of_halted (h.halted.trans hhalted), report_of_halted hhalted]
    exact h
  rw [State.report, State.report, if_neg (by rwa [h.halted]), if_neg hhalted, hlimit]
  cases setup.maxErrors with
  | none => exact hadd
  | some k =>
    dsimp only
    rw [hlength]
    split
    · exact hadd.stop.addProblem _ _
    · exact hadd

/-- Alike states discard as many tokens. -/
theorem synchronize (h : s.Alike s') : (s.synchronize setup).Alike (s'.synchronize (setup.deepened n)) := by
  unfold State.synchronize
  rw [h.rest, h.last]
  exact (h.skip _).note _ _

/-- Behind all tokens there is nothing to discard. -/
theorem synchronize_of_nil (hs : s.rest = []) : s.Alike (s.synchronize setup) := by
  constructor <;> simp [State.synchronize, State.skip, State.note, boundaryDistance, hs]

/-- Giving up a statement, in ways that make no difference if there are no tokens left. -/
theorem abandon (h : s.Alike s') {sync sync' : Bool} (hsync : sync = sync' ∨ s.rest = []) (start : Lexeme) :
    (s.abandon setup start sync).Alike (s'.abandon (setup.deepened n) start sync') := by
  have hfirst : (if sync then s.synchronize setup else s).Alike
      (if sync' then s'.synchronize (setup.deepened n) else s') := by
    rcases hsync with rfl | hnil
    · split
      · exact h.synchronize
      · exact h
    · have hleft : s.Alike (if sync then s.synchronize setup else s) := by
        split
        · exact synchronize_of_nil hnil
        · exact refl s
      have hright : s'.Alike (if sync' then s'.synchronize (setup.deepened n) else s') := by
        split
        · exact synchronize_of_nil (h.rest.symm.trans hnil)
        · exact refl s'
      exact hleft.symm.trans (h.trans hright)
  unfold State.abandon
  generalize (if sync then s.synchronize setup else s) = t at hfirst
  generalize (if sync' then s'.synchronize (setup.deepened n) else s') = t' at hfirst
  dsimp only
  rw [← hfirst.current]
  split
  · exact hfirst.skip 1
  · exact hfirst

theorem spanFrom (h : s.Alike s') (start : Location) : s.spanFrom start = s'.spanFrom start := by
  rw [State.spanFrom, State.spanFrom, h.last]

end Alike

end State

namespace Parser

open State

variable {α β : Type} {setup : Setup} {n : Nat} {A : Prop}

/-! ## Outcomes -/

/-- How a run ends, and how one ends that may go deeper. Both give the same, or both bail out, unless too deep nesting
has been reported. A parse that has been halted may bail out in one way or another. -/
inductive Outcome : EStateM.Result Bailout State α → EStateM.Result Bailout State α → Prop
  | ok {a : α} {s s' : State} : s.Alike s' → Outcome (.ok a s) (.ok a s')
  | error {b b' : Bailout} {s s' : State} : s.Alike s' →
      b = b' ∨ s.halted = true ∧ b ≠ .stalled ∧ b' ≠ .stalled → Outcome (.error b s) (.error b' s')
  | exceeded {r r' : EStateM.Result Bailout State α} : (endOfRun r).Exceeded → Outcome r r'

/-- **A parser, and one that may go deeper**, from states that differ in their logs at most; if `A` holds, from those
with a token left. -/
structure Deepens (setup : Setup) (n : Nat) (A : Prop) (p p' : Parser α) : Prop where
  walks : Walks setup p
  outcome : ∀ s s' : State, s.Alike s' → s.Emptied → (A → s.rest ≠ []) →
    Outcome (p setup s) (p' (setup.deepened n) s')

namespace Deepens

/-- One parser after another; once too deep nesting has been reported, nothing more is asked. -/
theorem bind {p p' : Parser α} {f f' : α → Parser β} (hp : Deepens setup n A p p')
    (hf : ∀ a, Deepens setup n False (f a) (f' a)) : Deepens setup n A (p >>= f) (p' >>= f') := by
  refine ⟨Parser.walks.bind hp.walks fun a => (hf a).walks, fun s s' halike hs hA => ?_⟩
  have hout := hp.outcome s s' halike hs hA
  generalize hr : p setup s = r at hout
  generalize hr' : p' (setup.deepened n) s' = r' at hout
  cases hout with
  | @ok a t t' hsame =>
    rw [bind_ok f hr, bind_ok f' hr']
    have ht : t.Emptied := (hp.walks.ok hr).keeps (fun _ _ => Step.emptied) hs
    exact (hf a).outcome t t' hsame ht fun hfalse => hfalse.elim
  | error hsame hb =>
    rw [bind_error f hr, bind_error f' hr']
    exact .error hsame hb
  | exceeded hexceeded =>
    have hpasses : PassesThrough setup (p >>= f) s (endOfRun (p setup s)) := .bind .refl fun a => (hf a).walks
    rw [hr] at hpasses
    exact .exceeded (Steps.exceeded hpasses hexceeded)

/-- A parser that looks at the current token first. -/
theorem look (hend : setup.endMarker.token = .eof) {f f' : Lexeme → Parser α}
    (hf : ∀ x, Deepens setup n (x.token ≠ .eof) (f x) (f' x)) :
    Deepens setup n A (current >>= f) (current >>= f') := by
  refine ⟨Parser.walks.bind Parser.walks.current fun x => (hf x).walks, fun s s' halike hs _ => ?_⟩
  show Outcome (f (s.current setup) setup s) (f' (s'.current (setup.deepened n)) (setup.deepened n) s')
  rw [← halike.current]
  refine (hf (s.current setup)).outcome s s' halike hs fun hx hnil => hx ?_
  rw [State.current, hnil]
  exact hend

/-- A parser that changes the state in the same way. -/
theorem of_ok {p : Parser α} {v : State → α} {g g' : State → State} (hwalks : Walks setup p)
    (hrun : ∀ s, p setup s = .ok (v s) (g s)) (hrun' : ∀ s, p (setup.deepened n) s = .ok (v s) (g' s))
    (hv : ∀ s s' : State, s.Alike s' → v s = v s' ∧ (g s).Alike (g' s')) : Deepens setup n A p p := by
  refine ⟨hwalks, fun s s' halike _ _ => ?_⟩
  obtain ⟨hsame, hg⟩ := hv s s' halike
  rw [hrun, hrun', hsame]
  exact .ok hg

/-- Giving up a statement. -/
theorem catchStmt {p p' : Parser Stmt} (start : Lexeme) (hp : Deepens setup n A p p') :
    Deepens setup n A (tryCatch p (abandonStmt start)) (tryCatch p' (abandonStmt start)) := by
  have habandon : ∀ (setup : Setup) (t : State) (b : Bailout), b ≠ .stalled →
      abandonStmt start b setup t
        = .ok (.bad ((t.abandon setup start (b = .resync)).spanFrom start.location))
            (t.abandon setup start (b = .resync)) := by
    intro setup t b hb
    rw [abandonStmt, if_neg hb]
    rfl
  refine ⟨Parser.walks.tryCatch hp.walks (Parser.walks.abandonStmt start), fun s s' halike hs hA => ?_⟩
  have hout := hp.outcome s s' halike hs hA
  generalize hr : p setup s = r at hout
  generalize hr' : p' (setup.deepened n) s' = r' at hout
  cases hout with
  | ok hsame =>
    rw [tryCatch_ok _ hr, tryCatch_ok _ hr']
    exact .ok hsame
  | @error b b' t t' hsame hb =>
    rw [tryCatch_error _ hr, tryCatch_error _ hr']
    have ht : t.Emptied := (hp.walks.error hr).keeps (fun _ _ => Step.emptied) hs
    by_cases hstalled : b = .stalled
    · -- only one parse that stalls is followed by another one that does
      have hsame' : b' = .stalled := by
        rcases hb with rfl | ⟨-, hne, -⟩
        · exact hstalled
        · exact absurd hstalled hne
      subst hstalled hsame'
      exact .error hsame (.inl rfl)
    · have hne : b' ≠ .stalled := by
        rcases hb with rfl | ⟨-, -, hne⟩
        · exact hstalled
        · exact hne
      -- the two parses may give up for different reasons, but then there is nothing left to skip
      have hsync : decide (b = .resync) = decide (b' = .resync) ∨ t.rest = [] := by
        rcases hb with rfl | ⟨hhalted, -, -⟩
        · exact .inl rfl
        · exact .inr (ht hhalted)
      have hafter : (t.abandon setup start _).Alike (t'.abandon (setup.deepened n) start _) :=
        hsame.abandon hsync start
      rw [habandon _ _ _ hstalled, habandon _ _ _ hne, hafter.spanFrom]
      exact .ok hafter
  | exceeded hexceeded =>
    have hpasses : PassesThrough setup (tryCatch p (abandonStmt start)) s (endOfRun (p setup s)) :=
      .tryCatch .refl (Parser.walks.abandonStmt start)
    rw [hr] at hpasses
    exact .exceeded (Steps.exceeded hpasses hexceeded)

/-- Giving up an expression: a halted parse bails out again. -/
theorem catchExpr {p p' : Parser Expr} (start : Lexeme) (hp : Deepens setup n A p p') :
    Deepens setup n A (tryCatch p (abandonExpr start)) (tryCatch p' (abandonExpr start)) := by
  have habandon : ∀ (setup : Setup) (t : State) (b : Bailout),
      abandonExpr start b setup t = if b ≠ .resync ∨ t.halted = true then .error b t
        else .ok (.bad (t.skipToCloser.spanFrom start.location)) t.skipToCloser := by
    intro setup t b
    show (if b ≠ .resync ∨ t.halted = true then throw b else _ : Parser Expr) setup t = _
    split <;> rfl
  refine ⟨Parser.walks.tryCatch hp.walks (Parser.walks.abandonExpr start), fun s s' halike hs hA => ?_⟩
  have hout := hp.outcome s s' halike hs hA
  generalize hr : p setup s = r at hout
  generalize hr' : p' (setup.deepened n) s' = r' at hout
  cases hout with
  | ok hsame =>
    rw [tryCatch_ok _ hr, tryCatch_ok _ hr']
    exact .ok hsame
  | @error b b' t t' hsame hb =>
    rw [tryCatch_error _ hr, tryCatch_error _ hr', habandon, habandon, ← hsame.halted]
    rcases hb with rfl | ⟨hhalted, hne, hne'⟩
    · split
      · exact .error hsame (.inl rfl)
      · have hafter : t.skipToCloser.Alike t'.skipToCloser := by
          rw [State.skipToCloser, State.skipToCloser, hsame.rest]
          exact hsame.skip _
        rw [hafter.spanFrom]
        exact .ok hafter
    · rw [if_pos (.inr hhalted), if_pos (.inr hhalted)]
      exact .error hsame (.inr ⟨hhalted, hne, hne'⟩)
  | exceeded hexceeded =>
    have hpasses : PassesThrough setup (tryCatch p (abandonExpr start)) s (endOfRun (p setup s)) :=
      .tryCatch .refl (Parser.walks.abandonExpr start)
    rw [hr] at hpasses
    exact .exceeded (Steps.exceeded hpasses hexceeded)

/-- **No level left.** That is reported, unless the parse has been halted; and then there is no token left, and the other
parser gives up too. -/
theorem tooDeep (hend : setup.endMarker.token = .eof) {ι : Type} {p : ι → Parser α} {q : Parser α}
    (h : A ∨ GivesUp q) : Deepens setup n A (nested none p) q := by
  refine ⟨Parser.walks.tooDeep, fun s s' halike hs hA => ?_⟩
  have hrun : nested none p setup s = .error .resync
      ((s.report setup (.nestedTooDeeply setup.maxDepth) (s.current setup).location).stop setup) := rfl
  rw [hrun]
  cases hhalted : s.halted with
  | false =>
    -- the report is made, and no more is asked of the other parser
    apply Outcome.exceeded
    obtain ⟨more, hproblems, -⟩ :=
      @problems_report setup s hhalted (.nestedTooDeeply setup.maxDepth) (s.current setup).location
    simp only [State.Exceeded, endOfRun, stop_problems, hproblems]
    exact ⟨_, List.mem_append_right _ List.mem_cons_self, rfl⟩
  | true =>
    have hnil : s.rest = [] := hs hhalted
    obtain ⟨b, t, hq, hb, hsame⟩ := (h.resolve_left fun ha => hA ha hnil) (setup.deepened n) s' hend
      (halike.rest.symm.trans hnil) (halike.halted.symm.trans hhalted)
    rw [hq, report_of_halted hhalted, stop_of_halted hhalted]
    exact .error (halike.trans hsame) (.inr ⟨hhalted, by decide, hb⟩)

end Deepens

/-- **All parsers that may go deeper go the same way** as those that may not, unless too deep nesting is reported. -/
theorem deepens (hend : setup.endMarker.token = .eof) (n : Nat) : Relational (Deepens setup n) where
  pure := .of_ok Parser.walks.pure (fun _ => rfl) (fun _ => rfl) fun _ _ h => ⟨rfl, h⟩
  throw := ⟨Parser.walks.throw, fun _ _ h _ _ => .error h (.inl rfl)⟩
  bind := .bind
  always h := ⟨h.walks, fun s s' halike hs _ => h.outcome s s' halike hs False.elim⟩
  look := .look hend
  get hf := ⟨Parser.walks.bind Parser.walks.get fun s => (hf s s (.refl s)).walks,
    fun s s' halike hs _ => (hf s s' halike).outcome s s' halike hs False.elim⟩
  next := .of_ok Parser.walks.next (fun _ => rfl) (fun _ => rfl) fun _ _ h => ⟨h.current (n := n), h.next⟩
  note e := .of_ok (Parser.walks.note e) (fun _ => rfl) (fun _ => rfl) fun _ _ h => ⟨rfl, h.note e e⟩
  skip k := .of_ok (Parser.walks.skip fun _ => k) (fun _ => rfl) (fun _ => rfl) fun _ _ h => ⟨rfl, h.skip k⟩
  report hp loc := .of_ok (Parser.walks.report hp loc) (fun _ => rfl) (fun _ => rfl) fun _ _ h => ⟨rfl, h.report _ loc⟩
  catchStmt := .catchStmt
  catchExpr := .catchExpr
  tooDeep := .tooDeep hend

end Parser

/-- What is read with a greater limit, if too deep nesting was not reported. -/
theorem readStatements_deepens (o o' : Options) (s : Source) (hsetup : o'.setup s = (o.setup s).deepened o'.depthLimit)
    (hle : o.depthLimit ≤ o'.depthLimit) (h : ¬ (readStatements o s).2.Exceeded) :
    (readStatements o' s).1 = (readStatements o s).1 ∧
      (readStatements o' s).2.problems = (readStatements o s).2.problems := by
  obtain ⟨final, hrun, -⟩ := parse_reads o s
  have hstart : State.Emptied { rest := s.tokens } := fun hhalted => nomatch hhalted
  have hall : Parser.Relational (Parser.Deepens (o.setup s) o'.depthLimit) := Parser.deepens rfl o'.depthLimit
  have hdeepens := hall.topStmts (A := False) hle
  have hout := hdeepens.outcome _ _ (.refl { rest := s.tokens }) hstart False.elim
  rw [← hsetup] at hout
  rw [readStatements, hrun] at h
  generalize hrun' : Parser.topStmts o'.depthLimit (o'.setup s) { rest := s.tokens } = r' at hout
  rw [hrun] at hout
  cases hout with
  | ok halike =>
    rw [readStatements, readStatements, hrun, hrun']
    exact ⟨rfl, halike.problems.symm⟩
  | exceeded hexceeded => exact absurd hexceeded h

/-- **The nesting limit is monotone.** If a parse reports no too deep nesting, then a parse with a greater limit gives the
same tree, with its locations and comments, and the same diagnostics. That holds whatever the limit on errors is, and so
of parses that were halted. -/
theorem parse_deepens (o : Options) (s : Source) (d d' : Int) (hd : 1 ≤ d) (hle : d ≤ d')
    (h : ∀ x ∈ (parse { o with maxDepth := d } s).diagnostics, x.code ≠ .maxNestingDepthExceeded) :
    (parse { o with maxDepth := d' } s).program = (parse { o with maxDepth := d } s).program ∧
      (parse { o with maxDepth := d' } s).diagnostics = (parse { o with maxDepth := d } s).diagnostics := by
  have hlimits : Options.depthLimit { o with maxDepth := d } ≤ Options.depthLimit { o with maxDepth := d' } := by
    simp only [Options.depthLimit]
    rw [if_neg (by omega), if_neg (by omega)]
    omega
  have hwithin : ¬ (readStatements { o with maxDepth := d } s).2.Exceeded := by
    rintro ⟨x, hx, hcode⟩
    refine h x ?_ hcode
    simp [parse, hx]
  obtain ⟨hbody, hproblems⟩ := readStatements_deepens { o with maxDepth := d } { o with maxDepth := d' } s rfl
    hlimits hwithin
  constructor
  · simp only [parse, hbody]
  · simp only [parse, hproblems]

/-- An assignment to a call, at which a parse that reports one problem is halted: on the way out of it there is no level
left for the value. Behind the last token, which is malformed, a new line starts. -/
def brokenAssignment : Source := { name := "", text := utf8 "f() = \"x\n", wellFormed := by decide +kernel }

theorem parse_deepens_halted :
    (readStatements { maxDepth := 1, maxErrors := 1 } brokenAssignment).2.log
        ≠ (readStatements { maxDepth := 2, maxErrors := 1 } brokenAssignment).2.log ∧
      (∀ x ∈ (parse { maxDepth := 1, maxErrors := 1 } brokenAssignment).diagnostics,
        x.code ≠ .maxNestingDepthExceeded) ∧
      (parse { maxDepth := 2, maxErrors := 1 } brokenAssignment).program
        = (parse { maxDepth := 1, maxErrors := 1 } brokenAssignment).program ∧
      (parse { maxDepth := 2, maxErrors := 1 } brokenAssignment).diagnostics
        = (parse { maxDepth := 1, maxErrors := 1 } brokenAssignment).diagnostics := by
  have hwithin : ∀ x ∈ (parse { maxDepth := 1, maxErrors := 1 } brokenAssignment).diagnostics,
      x.code ≠ .maxNestingDepthExceeded := by
    decide +kernel
  have hdeeper := parse_deepens { maxErrors := 1 } brokenAssignment 1 2 (by decide) (by decide) hwithin
  exact ⟨by decide +kernel, hwithin, hdeeper⟩

end SmallJava
