import SmallJava.Proofs.Balancing.Stmt
import SmallJava.Proofs.Composition

/-!
# An error stays in its statement

Tokens in front of a semicolon that are no statement are given up together with the semicolon, and the parse goes on
behind it as if it started there.

* `boundaryDistance_semi` — on one line, and without any other boundary, the next boundary is the semicolon;
* `topStep_isolates` — the step that gives up the tokens and the semicolon;
* `parse_isolated` — what the parse gives for the line and for everything below it.
-/

namespace SmallJava

open Grammar

/-! ## The next boundary -/

/-- The token is no boundary, and it stands on the line `n`. -/
structure Lexeme.Inner (n : Int) (x : Lexeme) : Prop where
  boundary : isBoundary x.token = false
  first : x.location.first.line = n
  last : x.location.last.line = n

variable {setup : Setup} {all xs back : List Lexeme} {semi : Lexeme} {n : Int}

/-- On one line there is no boundary in front of the semicolon. -/
theorem boundaryDistance_semi (hxs : ∀ x ∈ xs, x.Inner n) (hsemi : semi.token = .semi) {last : Option Lexeme}
    (hlast : ∀ l ∈ last, l.location.last.line = n) : boundaryDistance last (xs ++ semi :: back) = xs.length := by
  induction xs generalizing last with
  | nil => simp [boundaryDistance, hsemi, isBoundary]
  | cons x xs ih =>
    have hx := hxs x (by simp)
    have hline : startsLine last x (xs ++ semi :: back) = false := by
      unfold startsLine
      cases last with
      | none => simp
      | some l => simp [hlast l rfl, hx.first]
    have hmore : boundaryDistance (some x) (xs ++ semi :: back) = xs.length := by
      refine ih (fun y hy => hxs y (by simp [hy])) fun l hl => ?_
      rw [← Option.mem_some.1 hl]
      exact hx.last
    simp [boundaryDistance, hx.boundary, hline, hmore]

namespace State

variable {s : State}

theorem synchronize_semi (setup : Setup) (hrest : s.rest = xs ++ semi :: back) (hxs : ∀ x ∈ xs, x.Inner n)
    (hsemi : semi.token = .semi) (hlast : ∀ l ∈ s.last, l.location.last.line = n) :
    ∃ log, s.synchronize setup
      = { rest := back, last := some semi, problems := s.problems, halted := s.halted, log := log } := by
  have hdistance : boundaryDistance s.last s.rest = xs.length := by rw [hrest, boundaryDistance_semi hxs hsemi hlast]
  have hall : s.rest = (xs ++ [semi]) ++ back := by rw [hrest, List.append_assoc, List.singleton_append]
  have hlength : xs.length + 1 = (xs ++ [semi]).length := by simp
  have hskip : s.skip (xs.length + 1) = { s with rest := back, last := some semi } := by
    unfold skip
    rw [hall, hlength, List.take_left, List.drop_left]
    simp
  unfold synchronize
  simp only [hdistance]
  rw [if_pos (by simp [hrest, hsemi]), hskip]
  exact ⟨_, rfl⟩

/-- **Giving up the tokens up to the semicolon.** What comes next stands behind the start, so it is not given up. -/
theorem abandon_semi (hrest : s.rest = xs ++ semi :: back) (hxs : ∀ x ∈ xs, x.Inner n)
    (hsemi : semi.token = .semi) (hlast : ∀ l ∈ s.last, l.location.last.line = n) {start : Lexeme}
    (hstart : start.location.span.start < (back.headD setup.endMarker).location.span.start) :
    ∃ log, s.abandon setup start true
      = { rest := back, last := some semi, problems := s.problems, halted := s.halted, log := log } := by
  obtain ⟨log, hsync⟩ := synchronize_semi setup hrest hxs hsemi hlast
  refine ⟨log, ?_⟩
  unfold abandon
  simp only [if_true, hsync]
  rw [if_neg]
  rintro ⟨hsame, -⟩
  simp only [current] at hsame
  omega

end State

/-- A token stands in front of all that comes behind it. -/
theorem Setup.Suits.start_lt {x : Lexeme} (hw : setup.Suits (x :: xs ++ back)) :
    x.location.span.start < (back.headD setup.endMarker).location.span.start := by
  have hnonempty := hw.ordered.nonempty x (by simp)
  cases back with
  | nil =>
    have hbefore := hw.before x (by simp)
    simp only [List.headD_nil]
    omega
  | cons y back =>
    have hsorted := (List.pairwise_cons.1 hw.ordered.sorted).1 y (by simp)
    simp only [List.headD_cons]
    omega

namespace Parser

/-! ## The step -/

section Step

variable {x : Lexeme} (hw : setup.Suits (x :: xs ++ semi :: back)) (hsemi : semi.token = .semi)

include hw hsemi

/-- **A statement that fails in front of the semicolon** is the text up to it. -/
theorem recoverStmt_semi {p : Parser Stmt} {s' : State} {ys : List Lexeme} (hxs : ∀ y ∈ x :: xs, y.Inner n)
    (hrun : p setup { rest := x :: xs ++ semi :: back } = .error .resync s')
    (htakes : State.Takes { rest := x :: xs ++ semi :: back } ys s') (hrunning : s'.halted = false)
    {zs : List Lexeme} (hsplit : x :: xs = ys ++ zs) :
    ∃ log, recoverStmt p setup { rest := x :: xs ++ semi :: back } = .ok (.bad (extent (x :: xs ++ [semi])))
      { rest := back, last := some semi, problems := s'.problems, log := log } := by
  let s : State := { rest := x :: xs ++ semi :: back }
  have hat : s.At (x :: xs ++ semi :: back) := ⟨⟨[], rfl, rfl⟩, fun h => nomatch h⟩
  have hrest : s'.rest = zs ++ semi :: back := by
    have h := htakes.rest
    rw [hsplit, List.append_assoc] at h
    exact (List.append_cancel_left h).symm
  -- recovery looks at the lines of tokens, and the last one taken is on the same line as the others
  have hlast : ∀ l ∈ s'.last, l.location.last.line = n := by
    intro l hl
    rw [htakes.last, Option.or_none] at hl
    refine (hxs l ?_).last
    rw [hsplit]
    exact List.mem_append_left _ (List.mem_of_getLast? hl)
  have hwhole : setup.Suits (x :: (xs ++ [semi]) ++ back) := by simpa using hw
  obtain ⟨log, habandon⟩ := State.abandon_semi hrest
    (fun y hy => hxs y (by rw [hsplit]; exact List.mem_append_right _ hy)) hsemi hlast hwhole.start_lt
  have hcovers : State.Takes s (x :: xs ++ [semi]) (s'.abandon setup x true) := by
    rw [habandon]
    refine ⟨by simp [s], ?_, htakes.problems, fun h => by simp [hrunning] at h⟩
    rw [List.getLast?_concat]
    rfl
  have hspan : (s'.abandon setup x true).spanFrom x.location = extent (x :: xs ++ [semi]) :=
    spanFrom_eq_extent hw hat hcovers
  refine ⟨log, ?_⟩
  rw [recoverStmt_error hrun (by simp)]
  show EStateM.Result.ok (Stmt.bad ((s'.abandon setup x (decide (Bailout.resync = .resync))).spanFrom x.location))
    (s'.abandon setup x (decide (Bailout.resync = .resync))) = _
  rw [decide_eq_true rfl, hspan, habandon, hrunning]

/-- **Tokens that are no statement are given up with the semicolon behind them.** One of them, or the semicolon, has
been reported as unexpected, and else only improper targets of assignments have been. -/
theorem topStep_isolates (hmax : setup.maxErrors = none) (hxs : ∀ y ∈ x :: xs, y.Inner n ∧ y.token ≠ .invalid)
    {d : Nat} (hstmt : ¬ ∃ t, DerivesStmt .plain (.item .top) (x :: xs ++ [semi]) [t])
    (hdepth : ∀ t, PassesThrough setup (topStmts d) { rest := x :: xs ++ semi :: back } t → ¬ t.TooDeep) :
    ∃ (ms : Diagnostics) (u : Diagnostic) (s : State),
      topStep d [] setup { rest := x :: xs ++ semi :: back } = .ok (.yield [.bad (extent (x :: xs ++ [semi]))]) s ∧
        s.rest = back ∧ s.last = some semi ∧ s.halted = false ∧ s.problems = ms ++ [u] ∧
        (∀ m ∈ ms, Misassigned (x :: xs) m) ∧ u.code = .unexpectedToken ∧
        ∃ y ∈ x :: xs ++ [semi], u.location = y.location := by
  let s : State := { rest := x :: xs ++ semi :: back }
  have hat : s.At (x :: xs ++ semi :: back) := ⟨⟨[], rfl, rfl⟩, fun h => nomatch h⟩
  have hfront : ∀ y ∈ x :: xs, isBoundary y.token = false ∧ y.token ≠ .invalid :=
    fun y hy => ⟨(hxs y hy).1.boundary, (hxs y hy).2⟩
  have hheads : s.Heads (x :: xs ++ semi :: back) := by
    refine ⟨rfl, [], x :: xs, semi, back, rfl, rfl, rfl, hsemi, fun y hy => ⟨?_, (hfront y hy).2⟩⟩
    intro hy'
    simpa [hy', isBoundary] using (hfront y hy).1
  have heof : (s.current setup).token ≠ .eof := hw.tokens x (by simp)
  obtain ⟨b, s₁, hrun, hstops⟩ := bailsOut_topStmt hmax hw hheads rfl hsemi hfront d rfl hstmt
  have hstalled : b ≠ .stalled := ((reads_topStmt hw d s hat).error hrun).2.1
  have hshallow : ¬ s₁.TooDeep := hdepth s₁ ((PassesThrough.of_error hrun).topStmts heof)
  obtain ⟨rfl, ys, t, τ, p, hreach, hp, rfl⟩ := (hstops.resolve_left hstalled).resolve_left hshallow
  -- the parser has got stuck in the line or at the semicolon
  have hline : s.rest = x :: xs ++ semi :: back := rfl
  obtain ⟨zs, hsplit, hrest⟩ := hreach.takes.front hreach.leads.semis hline hsemi
  obtain ⟨ms, hms, hmisassigned⟩ := hreach.problems
  have htakes := hreach.takes.trans (.addProblem setup t p (t.current setup).location)
  rw [List.append_nil] at htakes
  obtain ⟨log, hrecover⟩ := recoverStmt_semi hw hsemi (fun y hy => (hxs y hy).1) hrun htakes hreach.running hsplit
  have hproblems : (t.addProblem setup p (t.current setup).location).problems
      = ms ++ [{ problem := p, location := (t.current setup).location, source := setup.name }] := congrArg (· ++ _) hms
  refine ⟨ms, _, { rest := back, last := some semi, problems := _, log := log }, ?_, rfl, rfl, rfl, hproblems, ?_, hp,
    ?_⟩
  · show (if (s.current setup).token = .eof then _ else _ : Parser (ForInStep (List Stmt))) setup s = _
    rw [if_neg heof, bind_ok _ hrecover]
    rfl
  · intro m hm
    rw [hsplit]
    exact (hmisassigned m hm).append [] zs
  · refine ⟨t.current setup, ?_, rfl⟩
    rw [hsplit]
    cases zs with
    | nil => simp [State.current, hrest]
    | cons z zs => simp [State.current, hrest]

end Step

end Parser

/-! ## The whole text -/

/-- In a text on one line all tokens are on that line. -/
theorem Source.inner_of_mem {s : Source} (h : byte '\n' ∉ s.text) {x : Lexeme} (hx : x ∈ s.tokens)
    (hboundary : isBoundary x.token = false) : x.Inner 1 := by
  have hholds := s.holds_of_mem_tokens hx
  have hstop : 0 ≤ x.location.span.stop := Int.le_of_lt (Int.lt_of_le_of_lt hholds.start_nonneg hholds.nonempty)
  refine ⟨hboundary, ?_, ?_⟩
  · rw [hholds.located]
    simp [location, lineCol_of_notMem h hholds.start_nonneg]
  · rw [hholds.located]
    simp [location, lineCol_of_notMem h hstop]

/-- Where everything goes that is written below a line and a semicolon. -/
theorem Source.below_semi {s e : Source} (he : e.text = s.text ++ [byte ';']) (h : byte '\n' ∉ e.text) :
    e.below = .down (s.size + 2) 1 := by
  have hsize : (e.size : Int) + 1 = s.size + 2 := by
    simp only [size, he, List.length_append, List.length_singleton]
    omega
  rw [below, hsize, lineCount_of_notMem h]
  rfl

/-- **An error stays in its statement.** A line `s` of tokens that are no statement boundaries, a semicolon behind it,
and any text `b` below it: if the line is no statement, the parse gives one bad statement for all of it, and then what
it gives for the text below. Besides what is found in that text, there is one token of the line that is not expected,
and possibly there are improper targets of assignments in front of it. -/
theorem parse_isolated {o : Options} (hmax : o.maxErrors ≤ 0) {s e b c : Source} (hbreaks : byte '\n' ∉ s.text)
    (hcomments : s.comments = []) (hfaults : s.faults = []) (hboundary : ∀ x ∈ s.tokens, isBoundary x.token = false)
    (he : e.text = s.text ++ [byte ';']) (hstmt : ¬ ∃ t, DerivesStmt .plain (.item .top) e.tokens [t])
    (hc : c.text = e.text ++ byte '\n' :: b.text) (hname : c.name = b.name)
    (hdepth : ∀ d ∈ (parse o c).diagnostics, d.code ≠ .maxNestingDepthExceeded) :
    (parse o c).program.body
        = .bad (extent e.tokens) :: (parse o b).program.body.map (Stmt.relocate (.down (s.size + 2) 1)) ∧
      ∃ (ms : Diagnostics) (u : Diagnostic),
        (parse o c).diagnostics.Perm
          (ms ++ u :: (parse o b).diagnostics.map (Diagnostic.relocate (.down (s.size + 2) 1))) ∧
        (u.code = .unexpectedToken ∧ ∃ x ∈ e.tokens, u.location = x.location) ∧
        ∀ m ∈ ms, Misassigned s.tokens m := by
  have hlimit : o.errorLimit? = none := if_pos hmax
  obtain ⟨hquiet, semi, hsemi, htokens⟩ := Source.tokens_semi he hfaults hcomments
  have hline : byte '\n' ∉ e.text := by
    rw [he, List.mem_append, not_or]
    exact ⟨hbreaks, by decide⟩
  -- a semicolon alone would be a statement, so there is a first token
  obtain ⟨x, xs, hxs⟩ : ∃ x xs, s.tokens = x :: xs := by
    refine List.exists_cons_of_ne_nil fun hnil => hstmt ⟨.empty semi.location, ?_⟩
    rw [htokens, hnil]
    exact .stmt (.empty hsemi)
  rw [hxs] at htokens hboundary
  have hall : c.tokens = x :: xs ++ semi :: b.tokens.map (Lexeme.relocate e.below) := by
    rw [Source.tokens_below hc hquiet, htokens, List.append_assoc, List.singleton_append]
  have hinner : ∀ y ∈ x :: xs, y.Inner 1 ∧ y.token ≠ .invalid := by
    intro y hy
    have hmem : y ∈ e.tokens := by
      rw [htokens]
      exact List.mem_append_left _ hy
    exact ⟨Source.inner_of_mem hline hmem (hboundary y hy), Source.token_ne_invalid hquiet hmem⟩
  have hw := c.suits o
  have hshallow := fun t ht => State.not_tooDeep (o := o) (c := c) (t := t) ht hdepth
  rw [hall] at hw hshallow
  rw [htokens] at hstmt
  obtain ⟨ms, u, s₁, hstep, hrest, hlast, hrunning, hproblems, hms, hu⟩ :=
    Parser.topStep_isolates hw hsemi hlimit hinner hstmt hshallow
  have hyields : Parser.Yields (o.setup c) (Parser.topStep o.depthLimit) [] { rest := c.tokens }
      [.bad (extent (x :: xs ++ [semi]))] s₁ := by
    rw [hall]
    refine .step (.refl _ _) hstep ?_
    simp only [hrest, List.length_append, List.length_cons]
    omega
  have hlast' : s₁.last = e.tokens.getLast? := by rw [hlast, htokens, List.getLast?_concat]
  -- from there on, the parse is that of the text below
  obtain ⟨hbody, ps, hlower, hdiagnostics⟩ :=
    parse_below hname hc hquiet hyields hrest hlast' hrunning (.inr hlimit)
  rw [Source.below_semi he hline] at hbody hdiagnostics
  rw [hxs, htokens]
  refine ⟨hbody, ms, u, ?_, hu, hms⟩
  rw [hdiagnostics, hproblems, hlower]
  simpa using Diagnostics.merge_append_map_perm (Diagnostic.relocate (.down (s.size + 2) 1)) (ms ++ [u]) b.faults ps

/-- A call as a target, and a number too much. -/
def strayLine : Source := { name := "", text := utf8 "f(a) = 1 2", wellFormed := by decide +kernel }

/-- The line with a semicolon. -/
def strayStatement : Source := { name := "", text := utf8 "f(a) = 1 2;", wellFormed := by decide +kernel }

/-- An expression is missing, and a method follows. -/
def textBelow : Source := { name := "", text := utf8 "x = ;\nint m() \x7b \x7d", wellFormed := by decide +kernel }

/-- The line and the text below it. -/
def strayText : Source :=
  { name := "", text := utf8 "f(a) = 1 2;\nx = ;\nint m() \x7b \x7d", wellFormed := by decide +kernel }

theorem parse_isolated_stray :
    (¬ ∃ t, DerivesStmt .plain (.item .top) strayStatement.tokens [t]) ∧
      (parse {} strayText).diagnostics.map (·.code) = [.invalidAssignmentTarget, .unexpectedToken, .unexpectedToken] ∧
      (parse {} strayText).program.body
        = .bad (extent strayStatement.tokens) :: (parse {} textBelow).program.body.map (Stmt.relocate (.down 12 1)) ∧
      ∃ (ms : Diagnostics) (u : Diagnostic),
        (parse {} strayText).diagnostics.Perm
          (ms ++ u :: (parse {} textBelow).diagnostics.map (Diagnostic.relocate (.down 12 1))) ∧
        (u.code = .unexpectedToken ∧ ∃ x ∈ strayStatement.tokens, u.location = x.location) ∧
        ∀ m ∈ ms, Misassigned strayLine.tokens m := by
  have hstmt : ¬ ∃ t, DerivesStmt .plain (.item .top) strayStatement.tokens [t] := by
    obtain ⟨d, hd, hmild⟩ : ∃ d ∈ (parse {} strayStatement).diagnostics, d.problem.isMild = false := by decide +kernel
    exact not_derives_of_parse rfl (by decide +kernel) (by decide +kernel) hd hmild
  have hisolated := parse_isolated (o := {}) (s := strayLine) (e := strayStatement) (b := textBelow) (c := strayText)
    (by decide) (by decide +kernel) (by decide +kernel) (by decide +kernel) (by decide +kernel) (by decide +kernel)
    hstmt (by decide +kernel) rfl (by decide +kernel)
  exact ⟨hstmt, by decide +kernel, hisolated⟩

end SmallJava
