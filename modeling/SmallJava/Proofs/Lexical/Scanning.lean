import SmallJava.Lexical.Scanner

/-!
# What a scanner finds

A scanner stops at every piece that has a token, comments included if it keeps them, and collects the faults of all
pieces on its way. `Scanner.seek_cases` says what one step does; so going on to the end gives the lexemes of the pieces
one by one and then the end marker (`Scanner.drain_eq`), and behind the end nothing changes (`Scanner.next_endedWith`).
-/

namespace SmallJava

/-- Whether a scanner passes over a piece. -/
def Piece.isPassed (keep : Bool) (p : Piece) : Bool :=
  match p.token with
  | none => true
  | some t => t.isComment && !keep

namespace Source

/-- The lexemes of some pieces, comments included if `keep` says so. -/
def shown (s : Source) (keep : Bool) (ps : List Piece) : List Lexeme :=
  (ps.filter fun p => !p.isPassed keep).filterMap (Piece.lexeme? s)

/-- The faults of some pieces. -/
def faultsOf (s : Source) (ps : List Piece) : Diagnostics := ps.flatMap (Piece.diagnostics s)

@[simp] theorem shown_nil (s : Source) (keep : Bool) : s.shown keep [] = [] := rfl

@[simp] theorem faultsOf_nil (s : Source) : s.faultsOf [] = [] := rfl

@[simp] theorem faultsOf_cons (s : Source) (p : Piece) (ps : List Piece) :
    s.faultsOf (p :: ps) = p.diagnostics s ++ s.faultsOf ps := rfl

/-- With comments, the lexemes are those of all pieces. -/
theorem shown_pieces (s : Source) : s.shown true s.pieces = s.lexemes := by
  have hkept : ∀ p : Piece, p.isPassed true = true → p.lexeme? s = none := by
    intro p hp
    cases ht : p.token with
    | none => simp [Piece.lexeme?, ht]
    | some t => simp [Piece.isPassed, ht] at hp
  rw [shown, lexemes, List.filterMap_filter]
  congr 1
  funext p
  cases hp : p.isPassed true with
  | true => simp [hkept p hp]
  | false => simp

end Source

namespace Scanner

/-- The scanner at the end of the text. -/
def endedWith (s : Scanner) (ds : Diagnostics) : Scanner :=
  { s with
    pending := [], token := .eof, start := s.source.size, text := [], atEnd := true, diagnostics := ds }

/-- The scanner at the piece `p`, whose token is `t`, with the pieces `rest` left. -/
def stoppedAt (s : Scanner) (p : Piece) (t : Token) (rest : List Piece) (ds : Diagnostics) : Scanner :=
  { s with
    pending := rest, token := t, start := p.start, text := p.text, atEnd := false, diagnostics := ds }

@[simp] theorem lexeme_endedWith (s : Scanner) (ds : Diagnostics) :
    (s.endedWith ds).lexeme = s.source.endMarker := by
  simp [lexeme, location, span, endedWith, Source.endMarker]

/-- A scanner passes over a piece, and keeps what there is to report. -/
theorem seek_pass {s : Scanner} {p : Piece} (hp : p.isPassed s.keepComments = true) (ds : Diagnostics)
    (ps : List Piece) : s.seek ds (p :: ps) = s.seek (ds ++ p.diagnostics s.source) ps := by
  rw [seek]
  unfold Piece.isPassed at hp
  cases ht : p.token with
  | none => rfl
  | some t =>
    rw [ht] at hp
    exact if_pos hp

/-- A scanner stops at any other piece, which is a token. -/
theorem seek_stop {s : Scanner} {p : Piece} (hp : p.isPassed s.keepComments = false) (ds : Diagnostics)
    (ps : List Piece) :
    ∃ t, p.token = some t ∧ s.seek ds (p :: ps) = s.stoppedAt p t ps (ds ++ p.diagnostics s.source) := by
  rw [seek]
  unfold Piece.isPassed at hp
  cases ht : p.token with
  | none => simp [ht] at hp
  | some t =>
    rw [ht] at hp
    refine ⟨t, rfl, ?_⟩
    exact if_neg (Bool.eq_false_iff.1 hp)

/-- **One step of a scanner.** It comes to the end, if no piece is left to stop at, or to the first such piece. The
faults of the pieces that it passes, and of the one that it stops at, are added to the problems. -/
theorem seek_cases (s : Scanner) (ds : Diagnostics) (ps : List Piece) :
    (s.source.shown s.keepComments ps = [] ∧ s.seek ds ps = s.endedWith (ds ++ s.source.faultsOf ps)) ∨
      ∃ p t rest es, rest.length < ps.length ∧ s.source.faultsOf ps = es ++ s.source.faultsOf rest ∧
        s.seek ds ps = s.stoppedAt p t rest (ds ++ es) ∧
        s.source.shown s.keepComments ps
          = (s.stoppedAt p t rest (ds ++ es)).lexeme :: s.source.shown s.keepComments rest := by
  induction ps generalizing ds with
  | nil =>
    left
    simp [seek, endedWith]
  | cons p ps ih =>
    cases hp : p.isPassed s.keepComments with
    | false =>
      right
      obtain ⟨t, ht, hstop⟩ := seek_stop hp ds ps
      refine ⟨p, t, ps, p.diagnostics s.source, Nat.lt_succ_self _, rfl, hstop, ?_⟩
      simp only [Source.shown, List.filter_cons, hp, Bool.not_false, if_true, List.filterMap_cons, Piece.lexeme?, ht,
        Option.map_some]
      rfl
    | true =>
      have hshown : s.source.shown s.keepComments (p :: ps) = s.source.shown s.keepComments ps := by
        simp [Source.shown, hp]
      rw [hshown, seek_pass hp]
      rcases ih (ds ++ p.diagnostics s.source) with ⟨hnone, hend⟩ | ⟨q, t, rest, es, hlt, hfaults, hstop, hfound⟩
      · left
        rw [hend, List.append_assoc, Source.faultsOf_cons]
        exact ⟨hnone, rfl⟩
      · right
        refine ⟨q, t, rest, p.diagnostics s.source ++ es, Nat.lt_succ_of_lt hlt, ?_, ?_, ?_⟩
        · rw [Source.faultsOf_cons, hfaults, List.append_assoc]
        · rw [hstop, List.append_assoc]
        · rw [hfound, List.append_assoc]

/-- Behind the end there is only the end again. -/
theorem next_endedWith (s : Scanner) (ds : Diagnostics) : (s.endedWith ds).next = s.endedWith ds := rfl

theorem repeat_next_endedWith (s : Scanner) (ds : Diagnostics) (n : Nat) :
    Nat.repeat next n (s.endedWith ds) = s.endedWith ds := by
  induction n with
  | zero => rfl
  | succ n ih => rw [Nat.repeat, ih, next_endedWith]

/-- **Going on to the end** gives the lexemes of the pieces that are left, and the end marker. -/
theorem drain_eq (s : Scanner) :
    s.drain = (s.source.shown s.keepComments s.pending ++ [s.source.endMarker],
      s.endedWith (s.diagnostics ++ s.source.faultsOf s.pending)) := by
  suffices h : ∀ n (s : Scanner), s.pending.length ≤ n →
      drain.go n s = (s.source.shown s.keepComments s.pending ++ [s.source.endMarker],
        s.endedWith (s.diagnostics ++ s.source.faultsOf s.pending)) from h _ s (Nat.le_refl _)
  intro n
  induction n with
  | zero =>
    intro s hn
    have hnil : s.pending = [] := List.length_eq_zero_iff.1 (Nat.le_zero.1 hn)
    have hnext : s.next = s.endedWith s.diagnostics := by
      rw [next, hnil]
      rfl
    simp [drain.go, hnext, hnil]
  | succ n ih =>
    intro s hn
    rw [drain.go]
    rcases s.seek_cases s.diagnostics s.pending with ⟨hnone, hend⟩ | ⟨p, t, rest, es, hlt, hfaults, hstop, hfound⟩
    · have hnext : s.next = s.endedWith (s.diagnostics ++ s.source.faultsOf s.pending) := hend
      simp only [hnext, lexeme_endedWith, hnone, List.nil_append]
      rfl
    · have hnext : s.next = s.stoppedAt p t rest (s.diagnostics ++ es) := hstop
      have hrest := ih (s.stoppedAt p t rest (s.diagnostics ++ es)) (Nat.le_of_lt_succ (Nat.lt_of_lt_of_le hlt hn))
      rw [hfaults, ← List.append_assoc, hfound]
      simp only [hnext, hrest]
      rfl

end Scanner

namespace Source

/-- All tokens and comments of a source as a scanner gives them, the end marker included, and the scanner at the end. -/
def scan (s : Source) : List Lexeme × Scanner := { Scanner.ofSource s with keepComments := true }.drain

/-- A scanner of the source at its end. -/
def ended (s : Source) : Scanner := { Scanner.ofSource s with keepComments := true }.endedWith s.faults

/-- **A scan of a whole source** gives its lexemes and the end marker. -/
theorem scan_eq (s : Source) : s.scan = (s.lexemes ++ [s.endMarker], s.ended) := by
  rw [scan, Scanner.drain_eq, ← s.shown_pieces]
  rfl

end Source

end SmallJava
