import SmallJava.Proofs.Accepting.Program
import SmallJava.Proofs.Balancing.Stmt
import SmallJava.Proofs.Grammar.Relocated
import SmallJava.Proofs.Lexical.Joined

/-!
# Malformed conditions

When an expression in parentheses gets stuck, tokens are discarded up to the closing parenthesis, which is found by
counting brackets from the token that was not expected. Brackets that have been opened in front of that token are not
counted, so the parenthesis found is the right one exactly if there are none.

* `closerDistance_closed`, `closerDistance_open` — where the count ends;
* `upToCloser_stuck` — an expression that gets stuck between parentheses;
* `parse_condition` — what becomes of a loop whose condition is malformed.
-/

namespace SmallJava

open Grammar

/-! ## Counting brackets -/

section Counting

variable {σ τ : List Token} {x r : Lexeme} {zs back : List Lexeme}

theorem openAfter_cons (σ : List Token) (x : Lexeme) (zs : List Lexeme) :
    openAfter σ (x :: zs) = (openBehind σ x.token).bind (openAfter · zs) := rfl

/-- A parenthesis that closes nothing. -/
theorem openBehind_nil_rParen : openBehind [] .rParen = none := rfl

/-- A bracket that closes something closes what was opened last. -/
theorem eq_of_openBehind_closer {t : Token} (ht : t.isCloser = true) (h : openBehind σ t = some τ) : σ = t :: τ := by
  have hopens : t.closer? = none := by
    revert ht
    cases t <;> simp [Token.isCloser, Token.closer?]
  cases σ with
  | nil => simp [openBehind, hopens, ht] at h
  | cons u σ =>
    obtain ⟨rfl, rfl⟩ : u = t ∧ σ = τ := by simpa [openBehind, hopens, ht] using h
    rfl

/-- The token does not stop the search for a closing parenthesis. -/
def Token.Searched (t : Token) : Prop := t ≠ .semi ∧ t ≠ .lBrace ∧ t ≠ .rBrace

instance (t : Token) : Decidable t.Searched := inferInstanceAs (Decidable (t ≠ .semi ∧ t ≠ .lBrace ∧ t ≠ .rBrace))

/-- **The count goes along with the open brackets**, up to a parenthesis that it takes for the closing one. -/
theorem closerDistance_cons (hx : x.token.Searched) (h : openBehind σ x.token = some τ) (n : Int) (zs : List Lexeme) :
    closerDistance n (x :: zs)
      = if x.token = .rParen ∧ n = 0 then 0 else closerDistance (n + τ.length - σ.length) zs + 1 := by
  obtain ⟨hsemi, hleft, hright⟩ := hx
  have hclosed : (n + τ.length - (τ.length + 1) : Int) = n - 1 := by omega
  have hopened : (n + (σ.length + 1) - σ.length : Int) = n + 1 := by omega
  rw [closerDistance]
  split
  · contradiction
  · contradiction
  · contradiction
  · next hparen =>
    rw [hparen] at h
    obtain rfl := eq_of_openBehind_closer rfl h
    simp [hparen, hclosed]
  · next hparen =>
    rw [hparen] at h
    obtain rfl := Option.some.inj h
    simp [hparen, hopened]
  · next hsquare =>
    rw [hsquare] at h
    obtain rfl := Option.some.inj h
    simp [hsquare, hopened]
  · next hsquare =>
    rw [hsquare] at h
    obtain rfl := eq_of_openBehind_closer rfl h
    simp [hsquare, hclosed]
  · -- any other token neither opens nor closes anything
    next hr hl hls hrs =>
    have hopens : x.token.closer? = none := by
      unfold Token.closer?
      split <;> simp_all
    have hcloses : x.token.isCloser = false := by
      unfold Token.isCloser
      split <;> simp_all
    obtain rfl : σ = τ := by simpa [openBehind, hopens, hcloses] using h
    rw [if_neg fun hx => hr hx.1]
    simp

/-- From outside all brackets, the count ends at the closing parenthesis. -/
theorem closerDistance_closed (hr : r.token = .rParen) (hzs : ∀ z ∈ zs, z.token.Searched)
    (h : openAfter σ zs = some []) : closerDistance σ.length (zs ++ r :: back) = zs.length := by
  induction zs generalizing σ with
  | nil =>
    obtain rfl : σ = [] := Option.some.inj h
    simp [closerDistance, hr]
  | cons z zs ih =>
    rw [openAfter_cons] at h
    obtain ⟨τ, hz, hrest⟩ := Option.bind_eq_some_iff.1 h
    have hgo : ¬ (z.token = .rParen ∧ (σ.length : Int) = 0) := by
      rintro ⟨hparen, hnone⟩
      rw [hparen] at hz
      rw [eq_of_openBehind_closer rfl hz, List.length_cons] at hnone
      omega
    have hcount : (σ.length + τ.length - σ.length : Int) = τ.length := by omega
    rw [List.cons_append, closerDistance_cons (hzs z (by simp)) hz, if_neg hgo, hcount,
      ih (fun y hy => hzs y (by simp [hy])) hrest, List.length_cons]

/-- From inside some brackets, the count ends at a parenthesis that closes one of them, or it misses the closing
parenthesis and ends at the brace behind it. -/
theorem closerDistance_open {brace : Lexeme} (hr : r.token = .rParen) (hbrace : brace.token = .lBrace)
    (hzs : ∀ z ∈ zs, z.token.Searched) (h : openAfter σ zs = some []) {n : Int} (hn : n < σ.length) :
    (∃ us z vs, zs = us ++ z :: vs ∧ z.token = .rParen ∧
        closerDistance n (zs ++ r :: brace :: back) = us.length) ∨
      closerDistance n (zs ++ r :: brace :: back) = zs.length + 1 := by
  induction zs generalizing σ n with
  | nil =>
    obtain rfl : σ = [] := Option.some.inj h
    have hne : n ≠ 0 := by
      rintro rfl
      simp at hn
    exact .inr (by simp [closerDistance, hr, hbrace, hne])
  | cons z zs ih =>
    rw [openAfter_cons] at h
    obtain ⟨τ, hz, hrest⟩ := Option.bind_eq_some_iff.1 h
    rw [List.cons_append, closerDistance_cons (hzs z (by simp)) hz]
    split
    · next hstop => exact .inl ⟨[], z, zs, rfl, hstop.1, rfl⟩
    · rcases ih (fun y hy => hzs y (by simp [hy])) hrest (n := n + τ.length - σ.length) (by omega) with
        ⟨us, y, vs, rfl, hy, hdistance⟩ | hdistance
      · exact .inl ⟨z :: us, y, vs, rfl, hy, by rw [hdistance, List.length_cons]⟩
      · exact .inr (by rw [hdistance, List.length_cons])

end Counting

/-! ## Between parentheses -/

/-- Tokens between parentheses: they close the brackets that they open, there is no token among them at which the search
for the closing parenthesis ends early, nothing is assigned, and nothing is malformed. -/
structure Enclosed (cs : List Lexeme) : Prop where
  brackets : openAfter [] cs = some []
  searched : ∀ x ∈ cs, x.token.Searched
  unassigned : ∀ x ∈ cs, x.token.isAssign = false
  valid : ∀ x ∈ cs, x.token ≠ .invalid

variable {setup : Setup} {all cs back : List Lexeme} {r : Lexeme} {s s' : State}

/-- What closes the brackets that it opens does not go beyond the closing parenthesis. -/
theorem Enclosed.within (hc : Enclosed cs) (hr : r.token = .rParen) {ys rest : List Lexeme} {τ : List Token}
    (hys : openAfter [] ys = some τ) (hsplit : cs ++ r :: back = ys ++ rest) :
    ∃ zs, cs = ys ++ zs ∧ rest = zs ++ r :: back := by
  rcases List.append_eq_append_iff.1 hsplit with ⟨zs, rfl, hzs⟩ | ⟨zs, hcs, hzs⟩
  · cases zs with
    | nil => exact ⟨[], by simp, by simpa using hzs.symm⟩
    | cons z zs =>
      obtain ⟨rfl, -⟩ := List.cons.inj hzs
      -- the parenthesis would close nothing
      rw [openAfter_append, hc.brackets, Option.bind_some, openAfter_cons, hr, openBehind_nil_rParen] at hys
      cases hys
  · exact ⟨zs, hcs, hzs⟩

/-- **Getting stuck between parentheses.** The tokens `ys` have been taken, and the one behind them has been reported as
unexpected; it is one of `cs` or the closing parenthesis. -/
structure State.StuckIn (setup : Setup) (s : State) (cs back ys : List Lexeme) (s' : State) : Prop where
  takes : s.Takes ys s'
  running : s'.halted = false
  ahead : ∃ zs, cs = ys ++ zs ∧ s'.rest = zs ++ back
  reported : ∃ u, s'.problems = s.problems ++ [u] ∧ u.code = .unexpectedToken ∧
    u.location = (s'.current setup).location

namespace Parser

section Stuck

variable (hmax : setup.maxErrors = none) (hw : setup.Suits all) (hs : s.Heads all) (hrest : s.rest = cs ++ r :: back)
  (hc : Enclosed cs) (hr : r.token = .rParen) (hexpr : ¬ ∃ x, DerivesExpr .plain .expr cs [x])

include hmax hw hs hrest hc hr hexpr

/-- Tokens between parentheses that are no expression are not read as one. -/
theorem bailsOut_upToCloser (d : Nat) : BailsOut setup (upToCloser (level d).expr) s [] := by
  have htracks : Tracks setup (level d).expr s [] [] := (innerTracks hmax hw d).1 s [] hs
  unfold Tracks at htracks
  cases hrun : (level d).expr setup s with
  | error b s₁ =>
    rw [hrun] at htracks
    exact ⟨b, s₁, bind_error _ hrun, htracks⟩
  | ok x s₁ =>
    rw [hrun] at htracks
    obtain ⟨ys, hreach⟩ := htracks
    obtain ⟨zs, rfl, hrest₁⟩ := hc.within hr hreach.leads.brackets (hrest.symm.trans hreach.takes.rest)
    -- what is read is not all of the condition, and no parenthesis follows it, since that would close nothing
    have hcur : (s₁.current setup).token ≠ .rParen := by
      cases zs with
      | nil =>
        obtain ⟨xs, htakes, hderives⟩ := ((levelReads hw d).expr s hs.place).ok hrun
        obtain rfl : xs = ys := List.append_cancel_right (htakes.rest.symm.trans hreach.takes.rest)
        have hx := (hderives .lenient Mode.admits_lenient).1.to_plain fun y hy => hc.valid y (by simpa using hy)
        exact absurd ⟨x, by simpa using hx⟩ hexpr
      | cons z zs =>
        intro hz
        have hz' : z.token = .rParen := by simpa [State.current, hrest₁] using hz
        have hclosed := hc.brackets
        rw [openAfter_append, hreach.leads.brackets, Option.bind_some, openAfter_cons, hz', openBehind_nil_rParen]
          at hclosed
        cases hclosed
    have hs₁ : s₁.Heads all := hs.reaches hreach
    obtain ⟨b, s₂, hfail, hstops⟩ :=
      bailsOut_fail (α := Expr) (q := .expectedToken [.rParen] (s₁.current setup)) hmax hs₁ rfl
    refine ⟨b, s₂, (bind_ok _ hrun).trans ?_, .after hreach hstops⟩
    show (if (s₁.current setup).token = .rParen then _ else _ : Parser Expr) setup s₁ = _
    rw [if_neg hcur]
    exact hfail

/-- **An expression that gets stuck**, unless it is nested too deeply. -/
theorem upToCloser_stuck {d : Nat}
    (hdepth : ∀ b s', upToCloser (level d).expr setup s = .error b s' → ¬ s'.TooDeep) :
    ∃ ys τ s', openAfter [] ys = some τ ∧ s.StuckIn setup cs (r :: back) ys s' ∧
      upToCloser (level d).expr setup s = .error .resync s' := by
  obtain ⟨b, s', hrun, hstops⟩ := bailsOut_upToCloser hmax hw hs hrest hc hr hexpr d
  have hstalled : b ≠ .stalled := ((reads_upToCloser hs.place ((levelReads hw d).expr s hs.place)).error hrun).2.1
  obtain ⟨rfl, ys, t, τ, p, hreach, hp, rfl⟩ := (hstops.resolve_left hstalled).resolve_left (hdepth b s' hrun)
  obtain ⟨zs, hcs, hzs⟩ := hc.within hr hreach.leads.brackets (hrest.symm.trans hreach.takes.rest)
  -- nothing is assigned, so there are no other problems
  obtain ⟨ms, hms, hmisassigned⟩ := hreach.problems
  obtain rfl : ms = [] := by
    refine List.eq_nil_iff_forall_not_mem.2 fun m hm => ?_
    obtain ⟨us, ts, op, vs, hsplit, -, hop, -⟩ := (hmisassigned m hm).target
    have hnone := hc.unassigned op (by simp [hcs, hsplit])
    simp [hop] at hnone
  have htakes := hreach.takes.trans (.addProblem setup t p (t.current setup).location)
  rw [List.append_nil] at htakes
  have hproblems : (t.addProblem setup p (t.current setup).location).problems
      = s.problems ++ [{ problem := p, location := (t.current setup).location, source := setup.name }] := by
    simp [State.addProblem, hms]
  exact ⟨ys, τ, _, hreach.leads.brackets, ⟨htakes, hreach.running, ⟨zs, hcs, hzs⟩, ⟨_, hproblems, hp, rfl⟩⟩, hrun⟩

end Stuck

/-! ## After the search -/

/-- What is read behind the condition `x` of a loop. -/
def afterCondition (l : Level) (kw : Lexeme) (x : Expr) : Parser Stmt := do
  let _ ← want .rParen
  let body ← block l
  return .whileLoop (← spanFrom kw.location) x body

/-- A `while`, up to its condition and from there on. -/
theorem whileStmt_eq (l : Level) :
    whileStmt l = (do
      let kw ← want .kwWhile
      let _ ← want .lParen
      let x ← recoverExpr l.expr
      afterCondition l kw x) := by
  simp only [whileStmt, condition, afterCondition, bind_assoc, pure_bind]

end Parser

/-- Outside all brackets, what is discarded is the rest of the condition. -/
theorem State.StuckIn.skip_closed {ys : List Lexeme} (hc : Enclosed cs) (hr : r.token = .rParen)
    (h : s.StuckIn setup cs (r :: back) ys s') (hys : openAfter [] ys = some []) :
    s.Takes cs s'.skipToCloser ∧ s'.skipToCloser.rest = r :: back := by
  obtain ⟨zs, rfl, hzs⟩ := h.ahead
  have hclosed : openAfter [] zs = some [] := by simpa [openAfter_append, hys] using hc.brackets
  have hdistance : closerDistance 0 s'.rest = zs.length := by
    rw [hzs]
    exact closerDistance_closed hr (fun z hz => hc.searched z (by simp [hz])) hclosed
  have hskip := h.takes.trans (.skip s' zs.length)
  rw [hzs, List.take_left] at hskip
  rw [skipToCloser, hdistance]
  exact ⟨hskip, by simp [skip, hzs]⟩

/-- Inside some brackets, the parse goes on in front of one of their parentheses, or in front of the brace behind the
condition. -/
theorem State.StuckIn.skip_open {ys : List Lexeme} {τ : List Token} {brace : Lexeme} (hc : Enclosed cs)
    (hr : r.token = .rParen) (hbrace : brace.token = .lBrace) (h : s.StuckIn setup cs (r :: brace :: back) ys s')
    (hys : openAfter [] ys = some τ) (hτ : τ ≠ []) :
    ∃ xs, s.Takes xs s'.skipToCloser ∧ (∀ x ∈ xs, x.token ≠ .semi) ∧
      (s'.skipToCloser.rest = brace :: back ∨
        ∃ z vs, z.token = .rParen ∧ (∀ v ∈ vs, v.token ≠ .lBrace) ∧
          s'.skipToCloser.rest = z :: (vs ++ r :: brace :: back)) := by
  obtain ⟨zs, rfl, hzs⟩ := h.ahead
  have hclosed : openAfter τ zs = some [] := by simpa [openAfter_append, hys] using hc.brackets
  have hsearched : ∀ z ∈ zs, z.token.Searched := fun z hz => hc.searched z (by simp [hz])
  have hpos : (0 : Int) < τ.length := Int.natCast_pos.2 (List.length_pos_iff.2 hτ)
  rw [skipToCloser, hzs]
  rcases closerDistance_open hr hbrace hsearched hclosed hpos with ⟨us, z, vs, rfl, hz, hdistance⟩ | hdistance
  · -- the search stops at a parenthesis of the condition itself
    have hskip := h.takes.trans (.skip s' us.length)
    rw [hzs, List.append_assoc, List.take_left] at hskip
    refine ⟨ys ++ us, by rwa [hdistance], fun x hx => (hc.searched x ?_).1, .inr ⟨z, vs, hz, ?_, ?_⟩⟩
    · rw [← List.append_assoc]
      exact List.mem_append_left _ hx
    · exact fun v hv => (hsearched v (by simp [hv])).2.1
    · rw [hdistance]
      simp [skip, hzs]
  · -- it passes the closing parenthesis too
    have hskip := h.takes.trans (.skip s' (zs.length + 1))
    have hlength : zs.length + 1 = (zs ++ [r]).length := by simp
    have hall : zs ++ r :: brace :: back = (zs ++ [r]) ++ brace :: back := by simp
    rw [hzs, hall, hlength, List.take_left] at hskip
    refine ⟨ys ++ (zs ++ [r]), ?_, fun x hx => ?_, .inl ?_⟩
    · rwa [hdistance, hlength]
    · rw [← List.append_assoc, List.mem_append, List.mem_singleton] at hx
      rcases hx with hx | rfl
      · exact (hc.searched x hx).1
      · simp [hr]
    · rw [hdistance, hlength]
      simp [skip, hzs]

/-- Getting stuck is reported, unless the parse was halted as too deep. -/
theorem State.Stops.problems_lt {σ : List Token} {b : Bailout} (h : s.Stops setup σ b s') (hb : b ≠ .stalled)
    (hdeep : ¬ s'.TooDeep) : s.problems.length < s'.problems.length := by
  obtain ⟨-, ys, t, τ, p, hreach, -, rfl⟩ := (h.resolve_left hb).resolve_left hdeep
  obtain ⟨ms, hms, -⟩ := hreach.problems
  simp only [State.addProblem, hms, List.length_append, List.length_singleton]
  omega

namespace Parser

variable {kw l brace : Lexeme} {bs rest : List Lexeme} {d : Nat}

theorem want_cons {x : Lexeme} {t : Token} (h : s.rest = x :: rest) (hx : x.token = t) :
    want t setup s = .ok x { s with rest := rest, last := some x } := by
  have hcurrent : s.current setup = x := by simp [State.current, h]
  show (if (s.current setup).token = t then _ else _ : Parser Lexeme) setup s = _
  rw [hcurrent, if_pos hx]
  show EStateM.Result.ok (s.current setup) { s with rest := s.rest.tail, last := some (s.current setup) } = _
  rw [hcurrent, h, List.tail_cons]

/-- A `while` comes to its condition with two tokens taken. -/
theorem whileStmt_run (hrest : s.rest = kw :: l :: rest) (hk : kw.token = .kwWhile) (hl : l.token = .lParen)
    (v : Level) :
    whileStmt v setup s
      = (recoverExpr v.expr >>= afterCondition v kw) setup { s with rest := rest, last := some l } := by
  rw [whileStmt_eq, bind_ok _ (want_cons hrest hk), bind_ok _ (want_cons rfl hl)]

/-- In front of the closing parenthesis, the loop is read to its end. -/
theorem afterCondition_ok (hs : s.Ready all (r :: (bs ++ rest))) (hr : r.token = .rParen) {m : Mode} {b : Block}
    (hblock : AcceptsBlock setup m all d bs b) (kw : Lexeme) (x : Expr) :
    ∃ loc s', afterCondition (level d) kw x setup s = .ok (.whileLoop loc x b) s' ∧ s.Passes m (r :: bs) s' := by
  have haccepts : Accepts setup m (want .rParen) s [r] r := accepts_want hs hr
  obtain ⟨s₁, hwant, hpass⟩ := haccepts
  obtain ⟨s₂, hrun, hpass'⟩ := hblock s₁ rest (hs.passes hpass) trivial
  refine ⟨s₂.spanFrom kw.location, s₂, ?_, hpass.trans hpass'⟩
  rw [afterCondition, bind_ok _ hwant, bind_ok _ hrun]
  rfl

/-- In front of the brace, or of another parenthesis, a token is missing. -/
theorem bailsOut_afterCondition (hmax : setup.maxErrors = none) (hs : s.Heads all) (hr : r.token = .rParen)
    (hbrace : brace.token = .lBrace) (kw : Lexeme) (x : Expr)
    (h : s.rest = brace :: back ∨
      ∃ z vs, z.token = .rParen ∧ (∀ v ∈ vs, v.token ≠ .lBrace) ∧ s.rest = z :: (vs ++ r :: brace :: back)) :
    BailsOut setup (afterCondition (level d) kw x) s [.rParen] := by
  rcases h with hrest | ⟨z, vs, hz, hvs, hrest⟩
  · exact (bailsOut_want hmax hs (by simp [State.current, hrest, hbrace])).bind _
  · refine Tracks.bailsOut hs (tracks_want (τ := []) hmax hs rfl (by decide)) fun _ s₁ hrun hs₁ => ?_
    refine (bailsOut_block hmax hs₁ ?_).bind _
    rw [want_cons hrest hz] at hrun
    cases hrun
    cases vs with
    | nil => simp [State.current, hr]
    | cons v vs => simpa [State.current] using hvs v (by simp)

/-- A loop of the text is read as a loop. -/
theorem topStmt_while (hrest : s.rest = kw :: rest) (hk : kw.token = .kwWhile) (d : Nat) :
    topStmt d setup s = whileStmt (level d) setup s := by
  have hcurrent : s.current setup = kw := by simp [State.current, hrest]
  have hmethod : startsMethodDecl s.rest = false := by
    rw [hrest]
    simp [startsMethodDecl, afterTypeName?, hk]
  show (if (s.current setup).token.isModifier || (s.current setup).token = .kwClass || startsMethodDecl s.rest
    then _ else _ : Parser Stmt) setup s = _
  rw [hcurrent, hk, hmethod, if_neg (by decide), stmt_eq_stmtAt]
  have htoken : token setup s = .ok .kwWhile s := by
    show EStateM.Result.ok (s.current setup).token s = _
    rw [hcurrent, hk]
  rw [stmtAt, bind_ok _ htoken]

/-! ## The loop -/

/-- The state between the parentheses of a condition. -/
def insideOf (s : State) (l : Lexeme) (rest : List Lexeme) : State := { s with rest := rest, last := some l }

section Loop

variable (hrest : s.rest = kw :: l :: (cs ++ r :: brace :: back)) (hk : kw.token = .kwWhile) (hl : l.token = .lParen)

include hrest hk hl

/-- A parse before a `while` comes to its condition with two tokens taken. -/
theorem topStmt_run (d : Nat) :
    topStmt d setup s = (recoverExpr (level d).expr >>= afterCondition (level d) kw) setup
      (insideOf s l (cs ++ r :: brace :: back)) :=
  (topStmt_while hrest hk d).trans (whileStmt_run hrest hk hl (level d))

theorem heads_insideOf (hs : s.Heads all) : (insideOf s l (cs ++ r :: brace :: back)).Heads all := by
  have htakes : s.Takes [kw, l] (insideOf s l (cs ++ r :: brace :: back)) :=
    ⟨hrest, rfl, List.prefix_refl _, .inl⟩
  refine hs.takes htakes ?_ hs.running
  simp [hk, hl]

/-- A parse of the loop passes through what happens in its condition. -/
theorem passesThrough_condition {t : State}
    (h : PassesThrough setup (upToCloser (level d).expr) (insideOf s l (cs ++ r :: brace :: back)) t) :
    PassesThrough setup (topStmts d) s t := by
  have heof : (s.current setup).token ≠ .eof := by simp [State.current, hrest, hk]
  refine .topStmts heof (.congr (topStmt_run hrest hk hl d) (.bind ?_ fun x => ?_))
  · exact .tryCatch h (walks.abandonExpr _)
  · exact .bind (walks.want _) fun _ => .bind (walks.block (walks.level d)) fun _ =>
      .bind (walks.spanFrom _) fun _ => .pure

variable {ys : List Lexeme}
  (hstuck : (insideOf s l (cs ++ r :: brace :: back)).StuckIn setup cs (r :: brace :: back) ys s')
  (hrun : upToCloser (level d).expr setup (insideOf s l (cs ++ r :: brace :: back)) = .error .resync s')

include hstuck hrun

/-- A condition that gets stuck is a bad expression, and the loop goes on after the search for its end. -/
theorem topStmt_stuck : ∃ cond, topStmt d setup s = afterCondition (level d) kw (.bad cond) setup s'.skipToCloser :=
  ⟨_, (topStmt_run hrest hk hl d).trans (bind_ok _ (recoverExpr_error hrun hstuck.running))⟩

variable (hc : Enclosed cs) (hr : r.token = .rParen)

include hc hr

/-- **Stuck outside all brackets**, the parse of the loop goes on behind its condition. -/
theorem topStmt_recovers (hs : s.Heads all) (hys : openAfter [] ys = some []) {b : Block}
    (hblock : AcceptsBlock setup .tight all d (brace :: back) b) :
    ∃ loc cond t, topStmt d setup s = .ok (.whileLoop loc (.bad cond) b) t ∧ t.rest = [] ∧
      t.problems = s'.problems := by
  obtain ⟨cond, hstmt⟩ := topStmt_stuck hrest hk hl hstuck hrun
  obtain ⟨htakes, hrest'⟩ := hstuck.skip_closed hc hr hys
  have hready : s'.skipToCloser.Ready all (r :: (brace :: back ++ [])) :=
    ⟨(heads_insideOf hrest hk hl hs).place.takes htakes, hstuck.running, by rw [hrest', List.append_nil]⟩
  obtain ⟨loc, t, hafter, hpass⟩ := afterCondition_ok hready hr hblock kw (.bad cond)
  exact ⟨loc, cond, t, hstmt.trans hafter, (hready.passes hpass).rest, hpass.problems_eq id⟩

/-- **Stuck inside some brackets**, the parse of the loop gets stuck again. -/
theorem topStmt_derails (hmax : setup.maxErrors = none) (hs : s.Heads all) (hbrace : brace.token = .lBrace)
    {τ : List Token} (hys : openAfter [] ys = some τ) (hτ : τ ≠ []) :
    ∃ b t, topStmt d setup s = .error b t ∧ s'.skipToCloser.Stops setup [.rParen] b t := by
  obtain ⟨cond, hstmt⟩ := topStmt_stuck hrest hk hl hstuck hrun
  obtain ⟨xs, htakes, hxs, hahead⟩ := hstuck.skip_open hc hr hbrace hys hτ
  have hheads := (heads_insideOf hrest hk hl hs).takes htakes hxs hstuck.running
  obtain ⟨b, t, hafter, hstops⟩ := bailsOut_afterCondition (d := d) hmax hheads hr hbrace kw (.bad cond) hahead
  exact ⟨b, t, hstmt.trans hafter, hstops⟩

end Loop

end Parser

/-! ## The text -/

/-- What is open does not depend on where the tokens stand. -/
theorem openAfter_relocate (m : Relocation) (σ : List Token) (xs : List Lexeme) :
    openAfter σ (xs.map (Lexeme.relocate m)) = openAfter σ xs := by
  rw [openAfter, List.foldlM_map]
  rfl

theorem Lexeme.relocate_right_neg (x : Lexeme) (n : Int) : (x.relocate (.right n)).relocate (.right (-n)) = x := by
  simp only [Lexeme.relocate, Location.relocate, Relocation.right, Int.add_neg_cancel_right]

/-- Tokens that are no expression are none to the right either. -/
theorem not_derives_right {xs : List Lexeme} (n : Int) (h : ¬ ∃ x, DerivesExpr .plain .expr xs [x]) :
    ¬ ∃ x, DerivesExpr .plain .expr (xs.map (Lexeme.relocate (.right n))) [x] := by
  rintro ⟨x, hx⟩
  have hback : (xs.map (Lexeme.relocate (.right n))).map (Lexeme.relocate (.right (-n))) = xs := by
    rw [List.map_map]
    exact (List.map_congr_left fun y _ => y.relocate_right_neg n).trans (List.map_id xs)
  have hmoved := hx.relocate (r := .right (-n))
  rw [hback] at hmoved
  exact h ⟨_, hmoved⟩

/-- The text before the condition is cut into two tokens and a blank. -/
theorem piecesFrom_while (k : Bytes) :
    piecesFrom 0 0 (utf8 "while (" ++ k)
      = [{ start := 0, text := utf8 "while", token := some .kwWhile, fault := none },
         { start := 5, text := utf8 " ", token := none, fault := none },
         { start := 6, text := utf8 "(", token := some .lParen, fault := none }] ++ piecesFrom 7 0 k := rfl

/-- The text behind the condition is cut into its tokens and blanks. -/
theorem piecesFrom_body (n : Nat) :
    piecesFrom n 0 (utf8 ") \x7b c; \x7d")
      = [{ start := n, text := utf8 ")", token := some .rParen, fault := none },
         { start := n + 1, text := utf8 " ", token := none, fault := none },
         { start := n + 2, text := utf8 "\x7b", token := some .lBrace, fault := none },
         { start := n + 3, text := utf8 " ", token := none, fault := none },
         { start := n + 4, text := utf8 "c", token := some .ident, fault := none },
         { start := n + 5, text := utf8 ";", token := some .semi, fault := none },
         { start := n + 6, text := utf8 " ", token := none, fault := none },
         { start := n + 7, text := utf8 "\x7d", token := some .rBrace, fault := none }] := rfl

/-- A loop around a condition, in tokens. -/
structure LoopOf (cs : List Lexeme) (kw l r brace i semi close : Lexeme) (xs : List Lexeme) : Prop where
  tokens : xs = kw :: l :: (cs ++ r :: brace :: [i, semi, close])
  keyword : kw.token = .kwWhile
  opener : l.token = .lParen
  closer : r.token = .rParen
  openBrace : brace.token = .lBrace
  name : i.token = .ident
  ends : semi.token = .semi
  closeBrace : close.token = .rBrace

namespace Source

variable {c w : Source}

/-- Tokens that may stand in a condition may do so at another place. -/
theorem enclosed_relocate (m : Relocation) (hfaults : c.faults = []) (hbrackets : openAfter [] c.tokens = some [])
    (htokens : ∀ x ∈ c.tokens, x.token.Searched ∧ x.token.isAssign = false) :
    Enclosed (c.tokens.map (Lexeme.relocate m)) where
  brackets := by rw [openAfter_relocate, hbrackets]
  searched := List.forall_mem_map.2 fun x hx => (htokens x hx).1
  unassigned := List.forall_mem_map.2 fun x hx => (htokens x hx).2
  valid := List.forall_mem_map.2 fun _ hx hi => c.faults_ne_nil hx hi hfaults

/-- The tokens of the loop are those of the condition, with those of the frame around them. -/
theorem tokens_loop (hline : byte '\n' ∉ c.text) (hfaults : c.faults = []) (hcomments : c.comments = [])
    (hw : w.text = utf8 "while (" ++ (c.text ++ utf8 ") \x7b c; \x7d")) :
    w.faults = [] ∧ ∃ kw l r brace i semi close,
      LoopOf (c.tokens.map (Lexeme.relocate (.right 7))) kw l r brace i semi close w.tokens := by
  have hparts : Parts (utf8 ") \x7b c; \x7d") := fun x hx => .inr (.inr (.inl (Option.mem_some.1 hx).symm))
  have hlong : byte '\n' ∉ w.text := by
    simp only [hw, List.mem_append, not_or]
    exact ⟨by decide, hline, by decide⟩
  have htokens := tokens_between hw (piecesFrom_while _) hparts hfaults hcomments hlong hline
  rw [piecesFrom_body] at htokens
  constructor
  · rw [faults_between hw (piecesFrom_while _) hparts hfaults hcomments, piecesFrom_body]
    rfl
  · exact ⟨_, _, _, _, _, _, _, htokens, rfl, rfl, rfl, rfl, rfl, rfl, rfl⟩

end Source

namespace LoopOf

variable {kw l brace i semi close : Lexeme} {xs : List Lexeme}

theorem heads (h : LoopOf cs kw l r brace i semi close xs) (hc : Enclosed cs) (hxs : ∀ x ∈ xs, x.token ≠ .invalid) :
    ({ rest := xs } : State).Heads xs := by
  have hsplit : xs = kw :: l :: (cs ++ [r, brace, i]) ++ semi :: [close] := by simp [h.tokens]
  refine ⟨rfl, [], kw :: l :: (cs ++ [r, brace, i]), semi, [close], rfl, hsplit, rfl, h.ends, fun x hx => ⟨?_, ?_⟩⟩
  · simp only [List.nil_append, List.mem_cons, List.mem_append, List.not_mem_nil, or_false] at hx
    rcases hx with rfl | rfl | hx | rfl | rfl | rfl
    · simp [h.keyword]
    · simp [h.opener]
    · exact (hc.searched x hx).1
    · simp [h.closer]
    · simp [h.openBrace]
    · simp [h.name]
  · refine hxs x ?_
    rw [hsplit]
    exact List.mem_append_left _ hx

/-- The body of the loop is a block with one statement. -/
theorem derives_block (h : LoopOf cs kw l r brace i semi close xs) :
    ∃ loc t, DerivesStmt .tight .block [brace, i, semi, close] [.block (.mk loc [t])] ∧
      (Block.mk loc [t]).nesting = 2 := by
  have hunary : DerivesExpr .tight .unary [i] [.ident i.ident] := .unsigned (.start (.ident h.name))
  have hbinary : ∀ p ≤ 6, DerivesExpr .tight (.binary (7 - p)) [i] [.ident i.ident] := by
    intro p hp
    induction p with
    | zero => exact .term hunary
    | succ p ih =>
      have hnext : 7 - (p + 1) + 1 = 7 - p := by omega
      exact .tighter (by omega) (hnext ▸ ih (by omega))
  have hstmt : DerivesStmt .tight (.item .inside) [i, semi] [.expr (extent [i, semi]) (.ident i.ident)] :=
    .expr (.value (hbinary 6 (Nat.le_refl 6))) (by simp [h.name]) h.ends
  exact ⟨_, _, .block h.openBrace (.cons hstmt .nil) h.closeBrace, rfl⟩

end LoopOf

/-- A text that is one statement. -/
theorem readStatements_single {o : Options} {w : Source} {t : Stmt} (hne : w.tokens ≠ [])
    (h : Parser.topStmt o.depthLimit (o.setup w) { rest := w.tokens } = .ok t s') (hrest : s'.rest = []) :
    readStatements o w = ([t], s') := by
  let s : State := { rest := w.tokens }
  obtain ⟨x, xs, hxs⟩ := List.exists_cons_of_ne_nil hne
  have heof : (s.current (o.setup w)).token ≠ .eof := by
    have hx := (w.suits o).tokens x (by simp [hxs])
    simpa [s, State.current, hxs] using hx
  have hrecover : Parser.recoverStmt (Parser.topStmt o.depthLimit) (o.setup w) s = .ok t s' := Parser.tryCatch_ok _ h
  have hstep : Parser.topStep o.depthLimit [] (o.setup w) s = .ok (.yield [t]) s' := by
    show (if (s.current (o.setup w)).token = .eof then _ else _ : Parser (ForInStep (List Stmt))) (o.setup w) s = _
    rw [if_neg heof, Parser.bind_ok _ hrecover]
    rfl
  have hdone : Parser.topStep o.depthLimit [t] (o.setup w) s' = .ok (.done [t]) s' := by
    have heof' : (s'.current (o.setup w)).token = .eof := by
      simp only [State.current, hrest, List.headD_nil]
      exact (w.suits o).eof
    show (if (s'.current (o.setup w)).token = .eof then _ else _ : Parser (ForInStep (List Stmt))) (o.setup w) s' = _
    rw [if_pos heof']
    rfl
  have hloop : Parser.topStmts o.depthLimit (o.setup w) { rest := w.tokens } = .ok [t] s' := by
    refine Parser.Yields.loop (.step (.refl [] s) hstep ?_) hdone
    simp [s, hrest, hxs]
  unfold readStatements
  rw [hloop]

section Recovered

variable {o : Options} {w : Source} {kw l brace i semi close : Lexeme} {ys : List Lexeme}
  (hloop : LoopOf cs kw l r brace i semi close w.tokens) (hfaults : w.faults = []) (hc : Enclosed cs)

include hloop hfaults hc

theorem heads_loop : ({ rest := w.tokens } : State).Heads w.tokens :=
  hloop.heads hc fun _ hx hi => w.faults_ne_nil hx hi hfaults

/-- A condition that is no expression gets the parse stuck. -/
theorem exists_stuck (hexpr : ¬ ∃ x, DerivesExpr .plain .expr cs [x]) (hmax : o.errorLimit? = none)
    (hdepth : ∀ d ∈ (parse o w).diagnostics, d.code ≠ .maxNestingDepthExceeded) :
    ∃ ys τ s', openAfter [] ys = some τ ∧
      (Parser.insideOf { rest := w.tokens } l (cs ++ r :: brace :: [i, semi, close])).StuckIn (o.setup w) cs
        (r :: brace :: [i, semi, close]) ys s' ∧
      Parser.upToCloser (Parser.level o.depthLimit).expr (o.setup w)
        (Parser.insideOf { rest := w.tokens } l (cs ++ r :: brace :: [i, semi, close])) = .error .resync s' ∧
      s'.problems <+: (readStatements o w).2.problems := by
  have hinside := Parser.heads_insideOf hloop.tokens hloop.keyword hloop.opener (heads_loop hloop hfaults hc)
  have hpasses : ∀ b t, Parser.upToCloser (Parser.level o.depthLimit).expr (o.setup w)
        (Parser.insideOf { rest := w.tokens } l (cs ++ r :: brace :: [i, semi, close])) = .error b t →
      Parser.PassesThrough (o.setup w) (Parser.topStmts o.depthLimit) { rest := w.tokens } t :=
    fun b t ht => Parser.passesThrough_condition hloop.tokens hloop.keyword hloop.opener (.of_error ht)
  obtain ⟨ys, τ, s', hys, hstuck, hrun⟩ := Parser.upToCloser_stuck hmax (w.suits o) hinside rfl hc hloop.closer hexpr
    fun b t ht => State.not_tooDeep (hpasses b t ht) hdepth
  exact ⟨ys, τ, s', hys, hstuck, hrun, State.problems_prefix_readStatements (hpasses _ s' hrun)⟩

variable
  (hstuck : (Parser.insideOf { rest := w.tokens } l (cs ++ r :: brace :: [i, semi, close])).StuckIn (o.setup w) cs
    (r :: brace :: [i, semi, close]) ys s')
  (hrun : Parser.upToCloser (Parser.level o.depthLimit).expr (o.setup w)
    (Parser.insideOf { rest := w.tokens } l (cs ++ r :: brace :: [i, semi, close])) = .error .resync s')

include hstuck hrun

/-- Outside all brackets, nothing else is wrong. -/
theorem readStatements_closed (hlevels : 2 ≤ o.depthLimit) (hys : openAfter [] ys = some []) :
    ∃ loc cond body t final, readStatements o w = ([.whileLoop loc (.bad cond) (.mk body [t])], final) ∧
      final.problems = s'.problems := by
  obtain ⟨body, t, hblock, hnesting⟩ := hloop.derives_block
  have haccepts := Parser.acceptedStmt (w.suits o) ⟨id, id, id⟩ (.inr id) hblock o.depthLimit (by omega)
  obtain ⟨loc, cond, final, hstmt, hrest, hproblems⟩ := Parser.topStmt_recovers hloop.tokens hloop.keyword
    hloop.opener hstuck hrun hc hloop.closer (heads_loop hloop hfaults hc) hys haccepts
  have hne : w.tokens ≠ [] := by simp [hloop.tokens]
  exact ⟨loc, cond, body, t, final, readStatements_single hne hstmt hrest, hproblems⟩

/-- Inside some brackets, there is a second problem. -/
theorem readStatements_open (hmax : o.errorLimit? = none)
    (hdepth : ∀ d ∈ (parse o w).diagnostics, d.code ≠ .maxNestingDepthExceeded) {τ : List Token}
    (hys : openAfter [] ys = some τ) (hτ : τ ≠ []) :
    s'.problems.length < (readStatements o w).2.problems.length := by
  obtain ⟨b, t, hstmt, hstops⟩ := Parser.topStmt_derails hloop.tokens hloop.keyword hloop.opener hstuck hrun hc
    hloop.closer hmax (heads_loop hloop hfaults hc) hloop.openBrace hys hτ
  have hstalled : b ≠ .stalled := ((Parser.reads_topStmt (w.suits o) _ _ w.at_start).error hstmt).2.1
  have heof : (State.current (o.setup w) { rest := w.tokens }).token ≠ .eof := by
    simp [State.current, hloop.tokens, hloop.keyword]
  have hpasses := (Parser.PassesThrough.of_error hstmt).topStmts heof
  have hlt := hstops.problems_lt hstalled (State.not_tooDeep hpasses hdepth)
  exact Nat.lt_of_lt_of_le hlt (State.problems_prefix_readStatements hpasses).length_le

end Recovered

/-- A parse of the text as a statement tells whether it is an expression. -/
theorem not_derivesExpr_of_parse {c e : Source} (he : e.text = c.text ++ [byte ';']) (hfaults : c.faults = [])
    (hcomments : c.comments = []) (hbraces : ∀ x ∈ c.tokens, x.token.Searched)
    (hlimit : e.tokens.length ≤ Options.depthLimit {})
    (hproblem : ∃ d ∈ (parse {} e).diagnostics, d.problem.isMild = false) :
    ¬ ∃ x, DerivesExpr .plain .expr c.tokens [x] := by
  obtain ⟨hquiet, semi, hsemi, htokens⟩ := Source.tokens_semi he hfaults hcomments
  obtain ⟨d, hd, hmild⟩ := hproblem
  rintro ⟨x, hx⟩
  refine not_derives_of_parse rfl hlimit hquiet hd hmild ⟨.expr (extent e.tokens) x, ?_⟩
  obtain ⟨y, ys, hys⟩ := List.exists_cons_of_ne_nil hx.ne_nil
  rw [htokens, hys]
  rw [hys] at hx hbraces
  exact .stmt (.expr hx (hbraces y (by simp)).2.1 hsemi)

/-- The parse gives one loop with a bad condition and one statement in its body, and one diagnostic. -/
def Parsed.IsRecovered (p : Parsed) : Prop :=
  (∃ loc cond body t, p.program.body = [.whileLoop loc (.bad cond) (.mk body [t])]) ∧ p.diagnostics.length = 1

/-- **A malformed condition is recovered from exactly if the error is outside its brackets.** The text `c`, on one line,
is no expression, it closes the brackets that it opens, and nothing is assigned in it. As the condition of a loop, it
gets the parser stuck at a token `x`, which is reported first. If all brackets that are opened in front of `x` are closed
there, the condition becomes a bad expression, nothing else is wrong, and the loop has its body. If not, there are other
problems. -/
theorem parse_condition {c w : Source} (hline : byte '\n' ∉ c.text) (hfaults : c.faults = [])
    (hcomments : c.comments = []) (hbrackets : openAfter [] c.tokens = some [])
    (htokens : ∀ x ∈ c.tokens, x.token.Searched ∧ x.token.isAssign = false)
    (hexpr : ¬ ∃ x, DerivesExpr .plain .expr c.tokens [x])
    (hw : w.text = utf8 "while (" ++ (c.text ++ utf8 ") \x7b c; \x7d"))
    (hdepth : ∀ d ∈ (parse {} w).diagnostics, d.code ≠ .maxNestingDepthExceeded) :
    ∃ kw l ys x zs u, w.tokens = kw :: l :: (ys ++ x :: zs) ∧ ys.length ≤ c.tokens.length ∧
      (readStatements {} w).2.problems.head? = some u ∧ u.code = .unexpectedToken ∧ u.location = x.location ∧
      ((parse {} w).IsRecovered ↔ openAfter [] ys = some []) := by
  obtain ⟨hquiet, kw, l, r, brace, i, semi, close, hloop⟩ := Source.tokens_loop hline hfaults hcomments hw
  have hc := Source.enclosed_relocate (.right 7) hfaults hbrackets htokens
  obtain ⟨ys, τ, s', hys, hstuck, hrun, more, hmore⟩ :=
    exists_stuck hloop hquiet hc (not_derives_right 7 hexpr) (o := {}) rfl hdepth
  obtain ⟨zs, hcs, hzs⟩ := hstuck.ahead
  obtain ⟨u, hu, hcode, hlocation⟩ := hstuck.reported
  -- the token at which the parser is stuck is one of the condition, or the parenthesis behind it
  obtain ⟨x, post, hpost⟩ : ∃ x post, s'.rest = x :: post := by
    rw [hzs]
    exact List.exists_cons_of_ne_nil (by simp)
  have hcount : (parse {} w).diagnostics.length = (readStatements {} w).2.problems.length := by
    simp [parse, (Diagnostics.merge_perm _).length_eq, hquiet]
  refine ⟨kw, l, ys, x, post, u, ?_, ?_, ?_, hcode, ?_, fun hrecovered => ?_, fun hclosed => ?_⟩
  · rw [hloop.tokens, hcs, List.append_assoc, ← hzs, hpost]
  · have hlength := congrArg List.length hcs
    rw [List.length_map, List.length_append] at hlength
    omega
  · rw [← hmore, hu]
    rfl
  · rw [hlocation, State.current, hpost, List.headD_cons]
  · -- inside some brackets there would be a second problem
    by_contra hopen
    have hlt := readStatements_open hloop hquiet hc hstuck hrun rfl hdepth hys fun hnil => hopen (hnil ▸ hys)
    rw [hu, ← hcount, hrecovered.2] at hlt
    simp at hlt
  · obtain ⟨loc, cond, body, t, final, hread, hfinal⟩ :=
      readStatements_closed hloop hquiet hc hstuck hrun (by decide) hclosed
    refine ⟨⟨loc, cond, body, t, by simp [parse, hread]⟩, ?_⟩
    rw [hcount, hread, hfinal, hu]
    rfl

/-- A number too much, behind all brackets. -/
def outerError : Source := { name := "", text := utf8 "f(1)[2] 3", wellFormed := by decide +kernel }

/-- The number too much, as a statement. -/
def outerStatement : Source := { name := "", text := utf8 "f(1)[2] 3;", wellFormed := by decide +kernel }

/-- The number too much, in a condition. -/
def outerLoop : Source :=
  { name := "", text := utf8 "while (f(1)[2] 3) \x7b c; \x7d", wellFormed := by decide +kernel }

theorem parse_condition_outer :
    openAfter [] outerError.tokens = some [] ∧ (¬ ∃ x, DerivesExpr .plain .expr outerError.tokens [x]) ∧
      ∃ kw l ys x zs u, outerLoop.tokens = kw :: l :: (ys ++ x :: zs) ∧ ys.length ≤ outerError.tokens.length ∧
        (readStatements {} outerLoop).2.problems.head? = some u ∧ u.code = .unexpectedToken ∧ u.location = x.location ∧
        ((parse {} outerLoop).IsRecovered ↔ openAfter [] ys = some []) := by
  have hbrackets : openAfter [] outerError.tokens = some [] := by decide +kernel
  have htokens : ∀ x ∈ outerError.tokens, x.token.Searched ∧ x.token.isAssign = false := by decide +kernel
  have hexpr := not_derivesExpr_of_parse (c := outerError) (e := outerStatement) (by decide +kernel) (by decide +kernel)
    (by decide +kernel) (fun x hx => (htokens x hx).1) (by decide +kernel) (by decide +kernel)
  exact ⟨hbrackets, hexpr, parse_condition (by decide +kernel) (by decide +kernel) (by decide +kernel) hbrackets htokens
    hexpr (by decide +kernel) (by decide +kernel)⟩

/-- A number too much, between brackets. -/
def nestedError : Source := { name := "", text := utf8 "f(1 2)", wellFormed := by decide +kernel }

/-- The number between brackets, as a statement. -/
def nestedStatement : Source := { name := "", text := utf8 "f(1 2);", wellFormed := by decide +kernel }

/-- The number between brackets, in a condition. -/
def nestedLoop : Source :=
  { name := "", text := utf8 "while (f(1 2)) \x7b c; \x7d", wellFormed := by decide +kernel }

/-- **Between brackets, the wrong parenthesis is found.** The condition is well bracketed and no expression, but the loop
is not recovered. -/
theorem not_isRecovered_nested :
    nestedLoop.text = utf8 "while (" ++ (nestedError.text ++ utf8 ") \x7b c; \x7d") ∧ byte '\n' ∉ nestedError.text ∧
      nestedError.faults = [] ∧ nestedError.comments = [] ∧ openAfter [] nestedError.tokens = some [] ∧
      (∀ x ∈ nestedError.tokens, x.token.Searched ∧ x.token.isAssign = false) ∧
      (¬ ∃ x, DerivesExpr .plain .expr nestedError.tokens [x]) ∧
      (∀ d ∈ (parse {} nestedLoop).diagnostics, d.code ≠ .maxNestingDepthExceeded) ∧
      ¬ (parse {} nestedLoop).IsRecovered := by
  have htokens : ∀ x ∈ nestedError.tokens, x.token.Searched ∧ x.token.isAssign = false := by decide +kernel
  have hexpr := not_derivesExpr_of_parse (c := nestedError) (e := nestedStatement) (by decide +kernel)
    (by decide +kernel) (by decide +kernel) (fun x hx => (htokens x hx).1) (by decide +kernel) (by decide +kernel)
  have hcount : (parse {} nestedLoop).diagnostics.length = 2 := by decide +kernel
  refine ⟨by decide +kernel, by decide +kernel, by decide +kernel, by decide +kernel, by decide +kernel, htokens, hexpr,
    by decide +kernel, fun h => ?_⟩
  simp [h.2] at hcount

end SmallJava
