import SmallJava.Lexical.Stream
import SmallJava.Proofs.Lexical.Scanning
import SmallJava.Proofs.Lexical.Tokens

/-!
# What a scanner goes over

A scanner goes from one lexeme to another one over the pieces between them (`Scanner.Goes`). So it divides the pieces of
a source in two: those that it has gone over end where its lexeme does, and those that are left start behind
(`Scanner.Placed`). The tokens and the comments on its way can then be told from where they stand in the text.

* `Scanner.goes_next`, `Scanner.goes_skipComments` — the way to the next lexeme, and to the next token;
* `Scanner.Placed.upcoming_eq` — the tokens that a scanner will find are those that stand behind its lexeme;
* `Scanner.Goes.commentsBetween_eq` — the comments on its way are those that stand between.
-/

namespace SmallJava

/-! ## Pieces -/

namespace Source

variable {s : Source}

/-- The tokens of some pieces, without comments. -/
def tokensOf (s : Source) (ps : List Piece) : List Lexeme :=
  (ps.filterMap (Piece.lexeme? s)).filter fun x => !x.token.isComment

/-- The comments of some pieces. -/
def commentsOf (s : Source) (ps : List Piece) : List Lexeme :=
  (ps.filterMap (Piece.lexeme? s)).filter (·.token.isComment)

@[simp] theorem tokensOf_nil : s.tokensOf [] = [] := rfl

@[simp] theorem commentsOf_nil : s.commentsOf [] = [] := rfl

@[simp] theorem tokensOf_append (ps qs : List Piece) : s.tokensOf (ps ++ qs) = s.tokensOf ps ++ s.tokensOf qs := by
  simp [tokensOf]

@[simp] theorem commentsOf_append (ps qs : List Piece) :
    s.commentsOf (ps ++ qs) = s.commentsOf ps ++ s.commentsOf qs := by
  simp [commentsOf]

@[simp] theorem faultsOf_append (ps qs : List Piece) : s.faultsOf (ps ++ qs) = s.faultsOf ps ++ s.faultsOf qs := by
  simp [faultsOf]

/-- A piece that is passed over is not shown. -/
theorem shown_cons (keep : Bool) (p : Piece) (ps : List Piece) :
    s.shown keep (p :: ps) = (if p.isPassed keep then [] else (p.lexeme? s).toList) ++ s.shown keep ps := by
  cases hp : p.isPassed keep with
  | true => simp [shown, hp]
  | false => cases hx : p.lexeme? s <;> simp [shown, hp, hx]

/-- A scanner that keeps comments stops at every lexeme. -/
theorem shown_true (ps : List Piece) : s.shown true ps = ps.filterMap (Piece.lexeme? s) := by
  induction ps with
  | nil => rfl
  | cons p ps ih =>
    rw [shown_cons, ih]
    cases ht : p.token with
    | none => simp [Piece.lexeme?, ht]
    | some t => simp [Piece.lexeme?, Piece.isPassed, ht]

/-- A scanner that drops comments stops at the tokens. -/
theorem shown_false (ps : List Piece) : s.shown false ps = s.tokensOf ps := by
  induction ps with
  | nil => rfl
  | cons p ps ih =>
    rw [shown_cons, ih]
    cases ht : p.token with
    | none => simp [tokensOf, Piece.lexeme?, ht]
    | some t => cases hc : t.isComment <;> simp [tokensOf, Piece.lexeme?, Piece.isPassed, ht, hc]

/-- The pieces of a source stand one behind the other. -/
theorem pieces_sorted (s : Source) : s.pieces.Pairwise fun p q => p.start + p.text.length ≤ q.start :=
  (piecesFrom_within 0 s.text).2

theorem exists_of_mem_tokensOf {ps : List Piece} {x : Lexeme} (h : x ∈ s.tokensOf ps) :
    ∃ p ∈ ps, p.lexeme? s = some x ∧ x.token.isComment = false := by
  obtain ⟨hx, hc⟩ := List.mem_filter.1 h
  obtain ⟨p, hp, hpx⟩ := List.mem_filterMap.1 hx
  exact ⟨p, hp, hpx, by simpa using hc⟩

theorem exists_of_mem_commentsOf {ps : List Piece} {x : Lexeme} (h : x ∈ s.commentsOf ps) :
    ∃ p ∈ ps, p.lexeme? s = some x ∧ x.token.isComment = true := by
  obtain ⟨hx, hc⟩ := List.mem_filter.1 h
  obtain ⟨p, hp, hpx⟩ := List.mem_filterMap.1 hx
  exact ⟨p, hp, hpx, hc⟩

/-- A scanner stops at all tokens, whether it keeps comments or not. -/
theorem tokensOf_eq_shown (keep : Bool) (ps : List Piece) :
    s.tokensOf ps = (s.shown keep ps).filter fun x => !x.token.isComment := by
  cases keep with
  | true => rw [shown_true, tokensOf]
  | false =>
    rw [shown_false, eq_comm, List.filter_eq_self]
    intro x hx
    obtain ⟨-, -, -, hc⟩ := exists_of_mem_tokensOf hx
    simp [hc]

/-- A scanner stops at the comments if it keeps them. -/
theorem commentsOf_eq_shown (keep : Bool) (ps : List Piece) :
    (if keep then s.commentsOf ps else []) = (s.shown keep ps).filter (·.token.isComment) := by
  cases keep with
  | true => rw [shown_true, if_pos rfl, commentsOf]
  | false =>
    rw [shown_false, if_neg Bool.false_ne_true, eq_comm, List.filter_eq_nil_iff]
    intro x hx
    obtain ⟨-, -, -, hc⟩ := exists_of_mem_tokensOf hx
    simp [hc]

end Source

/-- A lexeme stands where its piece does. -/
theorem Piece.span_of_lexeme? {s : Source} {p : Piece} {x : Lexeme} (h : p.lexeme? s = some x) :
    x.location.span = ⟨p.start, p.start + p.text.length⟩ := by
  obtain ⟨t, -, rfl⟩ := Option.map_eq_some_iff.1 h
  rfl

/-! ## The way of a scanner -/

namespace Scanner

variable {c c' d : Scanner} {passed : List Piece}

/-- **The way of a scanner.** From `c` to `c'` it goes over the pieces `passed`, the last of which is the one that it
comes to, or over all pieces to the end. -/
structure Goes (c : Scanner) (passed : List Piece) (c' : Scanner) : Prop where
  source : c'.source = c.source
  keeps : c'.keepComments = c.keepComments
  pending : c.pending = passed ++ c'.pending
  problems : c'.diagnostics = c.diagnostics ++ c.source.faultsOf passed
  place : (∃ front p, passed = front ++ [p] ∧ p.lexeme? c.source = some c'.lexeme) ∨
    c'.pending = [] ∧ c'.lexeme = c.source.endMarker

/-- Going some way, and then further. -/
theorem Goes.trans {passed' : List Piece} (h : c.Goes passed c') (h' : c'.Goes passed' d) :
    c.Goes (passed ++ passed') d where
  source := h'.source.trans h.source
  keeps := h'.keeps.trans h.keeps
  pending := by rw [h.pending, h'.pending, List.append_assoc]
  problems := by rw [h'.problems, h.problems, h.source, Source.faultsOf_append, List.append_assoc]
  place := by
    rw [← h.source]
    refine h'.place.imp_left ?_
    rintro ⟨front, p, rfl, hp⟩
    exact ⟨passed ++ front, p, by simp, hp⟩

/-- Where a scanner goes to does not depend on where it was. -/
theorem seek_congr (hsource : c.source = d.source) (hkeeps : c.keepComments = d.keepComments) (ds : Diagnostics)
    (ps : List Piece) : c.seek ds ps = d.seek ds ps := by
  induction ps generalizing ds with
  | nil =>
    cases c
    cases d
    cases hsource
    cases hkeeps
    rfl
  | cons p ps ih =>
    cases c
    cases d
    cases hsource
    cases hkeeps
    simp only [seek, ih]

/-- **One step of a scanner** goes over the pieces up to the first one that it does not pass over. -/
theorem goes_next (c : Scanner) : ∃ passed, c.Goes passed c.next ∧
    (c.source.shown c.keepComments passed = [c.next.lexeme] ∨
      c.source.shown c.keepComments passed = [] ∧ c.next.pending = [] ∧ c.next.lexeme = c.source.endMarker) := by
  generalize hps : c.pending = ps
  induction ps generalizing c with
  | nil =>
    have hnext : c.next = c.endedWith c.diagnostics := by
      rw [next, hps]
      rfl
    rw [hnext, lexeme_endedWith]
    exact ⟨[], ⟨rfl, rfl, hps, by simp [endedWith], .inr ⟨rfl, rfl⟩⟩, .inr ⟨rfl, rfl, rfl⟩⟩
  | cons p ps ih =>
    cases hp : p.isPassed c.keepComments with
    | false =>
      obtain ⟨t, ht, hstop⟩ := seek_stop hp c.diagnostics ps
      have hnext : c.next = c.stoppedAt p t ps (c.diagnostics ++ p.diagnostics c.source) := by rw [next, hps, hstop]
      have hlexeme : p.lexeme? c.source = some c.next.lexeme := by
        rw [hnext, Piece.lexeme?, ht]
        rfl
      refine ⟨[p], ⟨?_, ?_, ?_, ?_, .inl ⟨[], p, rfl, hlexeme⟩⟩, .inl ?_⟩
      · rw [hnext]
        rfl
      · rw [hnext]
        rfl
      · rw [hnext, hps]
        rfl
      · rw [hnext]
        simp [stoppedAt]
      · simp [Source.shown_cons, hp, hlexeme]
    | true =>
      -- the step is one from behind the piece that is passed over
      obtain ⟨passed, hgoes, hshown⟩ :=
        ih { c with pending := ps, diagnostics := c.diagnostics ++ p.diagnostics c.source } rfl
      have hnext : { c with pending := ps, diagnostics := c.diagnostics ++ p.diagnostics c.source }.next = c.next := by
        rw [next, next, hps, seek_pass hp]
        apply seek_congr
        · rfl
        · rfl
      rw [hnext] at hgoes hshown
      refine ⟨p :: passed, ⟨hgoes.source, hgoes.keeps, ?_, ?_, ?_⟩, ?_⟩
      · rw [hps, List.cons_append]
        exact congrArg _ hgoes.pending
      · rw [hgoes.problems]
        simp
      · refine hgoes.place.imp_left ?_
        rintro ⟨front, q, rfl, hq⟩
        exact ⟨p :: front, q, rfl, hq⟩
      · simpa [Source.shown_cons, hp] using hshown

/-- **The way to the next token** goes over comments, which are found if they are kept. -/
theorem goes_skipComments (n : Nat) (c : Scanner) (hn : c.pending.length ≤ n) :
    ∃ passed, c.Goes passed (Stream.skipComments n c).2 ∧
      (Stream.skipComments n c).1 = (if c.keepComments then c.source.commentsOf passed else []) ∧
      (c.source.tokensOf passed = [(Stream.skipComments n c).2.lexeme] ∨
        c.source.tokensOf passed = [] ∧ (Stream.skipComments n c).2.pending = [] ∧
          (Stream.skipComments n c).2.lexeme = c.source.endMarker) := by
  induction n generalizing c with
  | zero =>
    -- nothing is left, so the next step comes to the end
    have hnil : c.pending = [] := List.length_eq_zero_iff.1 (Nat.le_zero.1 hn)
    have hnext : c.next = c.endedWith c.diagnostics := by
      rw [next, hnil]
      rfl
    refine ⟨[], ⟨?_, ?_, ?_, ?_, .inr ⟨?_, ?_⟩⟩, ?_, .inr ⟨rfl, ?_, ?_⟩⟩ <;>
      simp [Stream.skipComments, hnext] <;> simp [endedWith, hnil]
  | succ n ih =>
    obtain ⟨passed, hgoes, hshown⟩ := c.goes_next
    have htokens := Source.tokensOf_eq_shown (s := c.source) c.keepComments passed
    have hcomments := Source.commentsOf_eq_shown (s := c.source) c.keepComments passed
    rw [Stream.skipComments]
    by_cases hc : c.next.token.isComment = true
    · -- a comment, which is found since it is kept
      have hlexeme : c.next.lexeme.token.isComment = true := hc
      have hfound : c.source.shown c.keepComments passed = [c.next.lexeme] := by
        refine hshown.resolve_right ?_
        rintro ⟨-, -, hend⟩
        rw [hend] at hlexeme
        cases hlexeme
      have hlt : c.next.pending.length < c.pending.length := by
        have hne : passed ≠ [] := by
          rintro rfl
          simp at hfound
        have := List.length_pos_iff.2 hne
        rw [hgoes.pending, List.length_append]
        omega
      obtain ⟨passed', hgoes', hxs, hreached⟩ := ih c.next (by omega)
      simp only [hc, if_true]
      refine ⟨passed ++ passed', hgoes.trans hgoes', ?_, ?_⟩
      · simp only [hfound, List.filter_cons, hlexeme, if_true, List.filter_nil] at hcomments
        rw [hxs, hgoes.keeps, hgoes.source]
        cases hkeep : c.keepComments with
        | true =>
          simp only [hkeep, if_true] at hcomments ⊢
          rw [Source.commentsOf_append, hcomments, List.singleton_append]
        | false => simp [hkeep] at hcomments
      · rw [hgoes.source] at hreached
        rw [Source.tokensOf_append, htokens, hfound]
        simpa [hlexeme] using hreached
    · have hlexeme : c.next.lexeme.token.isComment = false := Bool.eq_false_iff.2 hc
      simp only [hc, Bool.false_eq_true, if_false]
      refine ⟨passed, hgoes, ?_, ?_⟩
      · rw [hcomments]
        rcases hshown with hfound | ⟨hnone, -⟩
        · simp [hfound, hlexeme]
        · simp [hnone]
      · rcases hshown with hfound | ⟨hnone, hend⟩
        · exact .inl (by simp [htokens, hfound, hlexeme])
        · exact .inr ⟨by simp [htokens, hnone], hend⟩

/-! ## Where a scanner stands -/

/-- **A scanner in its place.** It has gone over the pieces `gone`, which end at or before the end of its lexeme, and
the pieces that are left start behind it. -/
structure Placed (c : Scanner) (gone : List Piece) : Prop where
  pieces : c.source.pieces = gone ++ c.pending
  behind : ∀ p ∈ gone, (p.start + p.text.length : Int) ≤ c.span.stop
  ahead : ∀ p ∈ c.pending, c.span.stop ≤ (p.start : Int)

theorem placed_ofSource (s : Source) : (ofSource s).Placed [] where
  pieces := rfl
  behind := by simp
  ahead p _ := by simp [span, ofSource]

/-- Wherever a scanner comes to, it is in its place. -/
theorem Goes.placed {gone : List Piece} (h : c.Goes passed c') (hgone : c.source.pieces = gone ++ c.pending) :
    c'.Placed (gone ++ passed) := by
  have hpieces : c'.source.pieces = gone ++ passed ++ c'.pending := by
    rw [h.source, hgone, h.pending, List.append_assoc]
  have hsorted := c'.source.pieces_sorted
  have hspan : c'.span = c'.lexeme.location.span := rfl
  rcases h.place with ⟨front, p, rfl, hp⟩ | ⟨hnil, hend⟩
  · rw [Piece.span_of_lexeme? hp] at hspan
    rw [hpieces] at hsorted
    obtain ⟨hgone, -, hacross⟩ := List.pairwise_append.1 hsorted
    rw [← List.append_assoc] at hgone
    refine ⟨hpieces, fun q hq => ?_, fun q hq => ?_⟩
    · rw [hspan]
      rw [← List.append_assoc] at hq
      rcases List.mem_append.1 hq with hq | hq
      · have := (List.pairwise_append.1 hgone).2.2 q hq p (by simp)
        dsimp only
        omega
      · exact Int.le_of_eq (by rw [List.mem_singleton.1 hq])
    · have := hacross p (by simp) q hq
      rw [hspan]
      dsimp only
      omega
  · rw [hend] at hspan
    refine ⟨hpieces, fun q hq => ?_, by simp [hnil]⟩
    have := (c'.source.piece_within (p := q) (by simp [hpieces, hnil] at hq ⊢; exact hq)).le_stop
    rw [hspan, ← h.source]
    simp only [Source.endMarker, Source.location]
    omega

/-- What a scanner has gone over starts before the end of its lexeme. -/
theorem Placed.start_lt {gone : List Piece} (h : c.Placed gone) {p : Piece} {x : Lexeme} (hp : p ∈ gone)
    (hx : p.lexeme? c.source = some x) : x.location.span.start < c.span.stop := by
  have hle := h.behind p hp
  have hpos := List.length_pos_iff.2 (c.source.piece_within (p := p) (by simp [h.pieces, hp])).nonempty
  rw [Piece.span_of_lexeme? hx]
  dsimp only
  omega

/-- What is left to a scanner starts behind its lexeme. -/
theorem Placed.le_start {gone : List Piece} (h : c.Placed gone) {p : Piece} {x : Lexeme} (hp : p ∈ c.pending)
    (hx : p.lexeme? c.source = some x) : c.span.stop ≤ x.location.span.start := by
  rw [Piece.span_of_lexeme? hx]
  exact h.ahead p hp

/-- The tokens behind the lexeme that a scanner is at. -/
def upcoming (c : Scanner) : List Lexeme :=
  c.source.tokens.filter fun x => c.span.stop ≤ x.location.span.start

/-- The tokens behind a scanner are those of the pieces that are left. -/
theorem Placed.upcoming_eq {gone : List Piece} (h : c.Placed gone) : c.upcoming = c.source.tokensOf c.pending := by
  have htokens : c.source.tokens = c.source.tokensOf gone ++ c.source.tokensOf c.pending := by
    rw [← Source.tokensOf_append, ← h.pieces]
    rfl
  rw [upcoming, htokens, List.filter_append, List.filter_eq_nil_iff.2, List.filter_eq_self.2, List.nil_append]
  · intro x hx
    obtain ⟨p, hp, hpx, -⟩ := Source.exists_of_mem_tokensOf hx
    exact decide_eq_true (h.le_start hp hpx)
  · intro x hx
    obtain ⟨p, hp, hpx, -⟩ := Source.exists_of_mem_tokensOf hx
    exact mt of_decide_eq_true (Int.not_le.2 (h.start_lt hp hpx))

end Scanner

/-- The comments of a source that start at an offset from `start` on, but before `stop`. -/
def Source.commentsBetween (s : Source) (start stop : Int) : List Lexeme :=
  s.comments.filter fun x => start ≤ x.location.span.start && x.location.span.start < stop

namespace Scanner

variable {c c' : Scanner} {gone passed : List Piece}

/-- A comment on the way of a scanner to a token stands in front of it. -/
theorem Goes.start_lt (h : c.Goes passed c') (hplaced : c.Placed gone) (hc : c'.token.isComment = false) {p : Piece}
    {x : Lexeme} (hp : p ∈ passed) (hx : p.lexeme? c.source = some x) (hcx : x.token.isComment = true) :
    x.location.span.start < c'.lexeme.location.span.start := by
  have hmem : p ∈ c.source.pieces := by simp [hplaced.pieces, h.pending, hp]
  have hpos := List.length_pos_iff.2 (c.source.piece_within hmem).nonempty
  rcases h.place with ⟨front, q, rfl, hq⟩ | ⟨hnil, hend⟩
  · -- the comment is not the last piece, since that is a token
    have hfront : p ∈ front := by
      rcases List.mem_append.1 hp with hp | hp
      · exact hp
      · rw [List.mem_singleton.1 hp, hq] at hx
        cases hx
        rw [show c'.lexeme.token = c'.token from rfl, hc] at hcx
        cases hcx
    have hsorted := c.source.pieces_sorted
    rw [hplaced.pieces, h.pending] at hsorted
    have hfound := (List.pairwise_append.1 (List.pairwise_append.1 hsorted).2.1).1
    have := (List.pairwise_append.1 hfound).2.2 p hfront q (by simp)
    simp only [Piece.span_of_lexeme? hx, Piece.span_of_lexeme? hq]
    omega
  · have := (c.source.piece_within hmem).le_stop
    simp only [Piece.span_of_lexeme? hx, hend, Source.endMarker, Source.location]
    omega

/-- **The comments on the way** of a scanner to a token are those that stand between. -/
theorem Goes.commentsBetween_eq (h : c.Goes passed c') (hplaced : c.Placed gone) (hc : c'.token.isComment = false) :
    c.source.commentsBetween c.span.stop c'.lexeme.location.span.start = c.source.commentsOf passed := by
  have hcomments : c.source.comments
      = c.source.commentsOf gone ++ (c.source.commentsOf passed ++ c.source.commentsOf c'.pending) := by
    rw [← Source.commentsOf_append, ← h.pending, ← Source.commentsOf_append, ← hplaced.pieces]
    rfl
  -- of all comments those on the way are left: the others are behind the one place or ahead of the other
  have hthere := h.placed hplaced.pieces
  have hbehind : ∀ x ∈ c.source.commentsOf gone, x.location.span.start < c.span.stop := by
    intro x hx
    obtain ⟨p, hp, hpx, -⟩ := Source.exists_of_mem_commentsOf hx
    exact hplaced.start_lt hp hpx
  have hahead : ∀ x ∈ c.source.commentsOf c'.pending, c'.lexeme.location.span.start ≤ x.location.span.start := by
    intro x hx
    obtain ⟨p, hp, hpx, -⟩ := Source.exists_of_mem_commentsOf hx
    have hle := hthere.le_start hp (h.source ▸ hpx)
    have hspan : c'.lexeme.location.span.start ≤ c'.span.stop := by
      show (c'.start : Int) ≤ c'.start + c'.text.length
      omega
    omega
  have hbetween : ∀ x ∈ c.source.commentsOf passed,
      c.span.stop ≤ x.location.span.start ∧ x.location.span.start < c'.lexeme.location.span.start := by
    intro x hx
    obtain ⟨p, hp, hpx, hcx⟩ := Source.exists_of_mem_commentsOf hx
    exact ⟨hplaced.le_start (by simp [h.pending, hp]) hpx, h.start_lt hplaced hc hp hpx hcx⟩
  rw [Source.commentsBetween, hcomments, List.filter_append, List.filter_append]
  rw [List.filter_eq_nil_iff.2, List.filter_eq_self.2, List.filter_eq_nil_iff.2, List.nil_append, List.append_nil]
  · intro x hx
    have := hahead x hx
    simp only [Bool.and_eq_true, decide_eq_true_eq]
    omega
  · intro x hx
    simpa using hbetween x hx
  · intro x hx
    have := hbehind x hx
    simp only [Bool.and_eq_true, decide_eq_true_eq]
    omega

/-! ## Scanners of a source -/

/-- What can be done to a scanner. -/
inductive Move where
  | next
  | keep (comments : Bool)

/-- The scanner after a move. -/
def move (c : Scanner) : Move → Scanner
  | .next => c.next
  | .keep comments => { c with keepComments := comments }

/-- The scanner of a source after some moves. -/
def after (s : Source) (moves : List Move) : Scanner := moves.foldl move (ofSource s)

/-- After any moves, a scanner stands somewhere in its source. -/
theorem placed_after (s : Source) (moves : List Move) :
    (after s moves).source = s ∧ ∃ gone, (after s moves).Placed gone := by
  suffices h : ∀ c : Scanner, c.source = s → (∃ gone, c.Placed gone) →
      (moves.foldl move c).source = s ∧ ∃ gone, (moves.foldl move c).Placed gone from
    h (ofSource s) rfl ⟨[], placed_ofSource s⟩
  induction moves with
  | nil => exact fun c hc hplaced => ⟨hc, hplaced⟩
  | cons m moves ih =>
    rintro c hc ⟨gone, hplaced⟩
    cases m with
    | next =>
      obtain ⟨passed, hgoes, -⟩ := c.goes_next
      exact ih c.next (hgoes.source.trans hc) ⟨_, hgoes.placed hplaced.pieces⟩
    | keep comments => exact ih _ hc ⟨gone, hplaced.pieces, hplaced.behind, hplaced.ahead⟩

end Scanner

end SmallJava
