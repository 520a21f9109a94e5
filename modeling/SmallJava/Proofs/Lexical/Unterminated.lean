import SmallJava.Proofs.Lexical.Joined
import SmallJava.Proofs.Lexical.Kinds
import SmallJava.Proofs.Lexical.Passing

/-!
# String literals that are left open

Where a quote starts a token, nothing in front of it depends on what stands behind it: with any two texts behind the
quote, the text in front is cut in the same way. So the tokens in front of a string literal stay what they are if the
literal is left open at the end of its line, and the next line is cut as if it were a text of its own.

* `cut_congr`, `piecesFrom_congr` — one piece in front of a quote, and all pieces;
* `hasQuote`, `stringEnd_of_hasQuote` — what leaves a literal open;
* `Source.tokens_open` — the tokens and faults of a text with a literal that is left open.
-/

namespace SmallJava

variable {k k' : Bytes}

/-! ## In front of a quote -/

/-- A run that ends before a byte that would belong to it has ended in the text in front. -/
theorem run_append_of_le {p : UInt8 → Bool} {w t : Bytes} {c : UInt8} (hc : p c = true)
    (hle : run p (w ++ c :: t) ≤ w.length) (k : Bytes) : run p (w ++ k) = run p (w ++ c :: t) := by
  unfold run at hle ⊢
  rw [List.takeWhile_append] at hle ⊢
  rw [List.takeWhile_append]
  by_cases hall : (w.takeWhile p).length = w.length
  · rw [if_pos hall, List.takeWhile_cons_of_pos hc] at hle
    simp only [List.length_append, List.length_cons] at hle
    omega
  · rw [if_neg hall, if_neg hall]

theorem commentEnd?_of_append {w : Bytes} {n : Nat} (h : commentEnd? (w ++ k) = some n) (hle : n ≤ w.length) :
    commentEnd? w = some n := by
  induction w generalizing n with
  | nil =>
    obtain rfl : n = 0 := Nat.le_zero.1 hle
    cases k with
    | nil => simp [commentEnd?] at h
    | cons c k =>
      simp only [List.nil_append, commentEnd?] at h
      split at h
      · simp at h
      · obtain ⟨m, -, hm⟩ := Option.map_eq_some_iff.1 h
        omega
  | cons b r ih =>
    simp only [List.cons_append, commentEnd?] at h ⊢
    have hhead : r ≠ [] → (r ++ k).head? = r.head? := by
      intro hne
      obtain ⟨c, r, rfl⟩ := List.exists_cons_of_ne_nil hne
      rfl
    split at h
    · -- the end of the comment is two bytes long, and both stand in the text
      next hend =>
      obtain rfl := Option.some.inj h
      have hne : r ≠ [] := by
        rintro rfl
        simp at hle
      rw [hhead hne] at hend
      rw [if_pos hend]
    · next hend =>
      obtain ⟨m, hm, rfl⟩ := Option.map_eq_some_iff.1 h
      rw [ih hm (by simpa using hle), if_neg]
      · rfl
      · rintro ⟨hb, hslash⟩
        have hne : r ≠ [] := by
          rintro rfl
          simp at hslash
        exact hend ⟨hb, by rw [hhead hne, hslash]⟩

theorem cutString_congr {r : Bytes} (hfault : (cutString (byte '"' :: (r ++ k))).fault = none)
    (hsize : (cutString (byte '"' :: (r ++ k))).size ≤ (byte '"' :: r).length) (k' : Bytes) :
    cutString (byte '"' :: (r ++ k')) = cutString (byte '"' :: (r ++ k)) := by
  obtain ⟨n, closed, hend⟩ : ∃ n closed, stringEnd (r ++ k) = (n, closed) := ⟨_, _, rfl⟩
  simp only [cutString, List.drop_succ_cons, List.drop_zero, hend] at hfault hsize ⊢
  cases closed with
  | false => simp at hfault
  | true =>
    have hle : n ≤ r.length := by
      simp only [if_true, List.length_cons] at hsize
      omega
    have hcloses := closesString_of_stringEnd hend
    rw [List.take_append_of_le_length hle] at hcloses
    have hlater := hcloses.stringEnd_append (r.drop n ++ k')
    rw [← List.append_assoc, List.take_append_drop, List.length_take, Nat.min_eq_left hle] at hlater
    simp [hlater]

theorem cutBlockComment_congr {w : Bytes} (h2 : 2 ≤ w.length) (hfault : (cutBlockComment (w ++ k)).fault = none)
    (hsize : (cutBlockComment (w ++ k)).size ≤ w.length) (k' : Bytes) :
    cutBlockComment (w ++ k') = cutBlockComment (w ++ k) := by
  unfold cutBlockComment at hfault hsize ⊢
  rw [List.drop_append_of_le_length h2] at hfault hsize ⊢
  rw [List.drop_append_of_le_length h2]
  cases hend : commentEnd? (w.drop 2 ++ k) with
  | none => simp [hend] at hfault
  | some n =>
    have hle : n ≤ (w.drop 2).length := by
      simp only [hend] at hsize
      rw [List.length_drop]
      omega
    rw [(commentEnd?_append (commentEnd?_of_append hend hle) k').1]

/-- **What is cut off without a fault in front of a quote is cut off in the same way**, whatever goes on from the
quote. -/
theorem cut_congr {b : UInt8} {r t : Bytes} (hfault : (cut b (r ++ byte '"' :: t)).fault = none)
    (hsize : (cut b (r ++ byte '"' :: t)).size ≤ (b :: r).length) (t' : Bytes) :
    cut b (r ++ byte '"' :: t') = cut b (r ++ byte '"' :: t) := by
  have hparts : ∀ t, Parts (byte '"' :: t) := fun t c hc => .inr (.inr (.inr (Option.mem_some.1 hc).symm))
  have hhead : (r ++ byte '"' :: t').head? = (r ++ byte '"' :: t).head? := by cases r <;> rfl
  have hop : Token.operatorAt? (b :: (r ++ byte '"' :: t')) = Token.operatorAt? (b :: (r ++ byte '"' :: t)) := by
    rw [operatorAt?_append (hparts t'), operatorAt?_append (hparts t)]
  have halike := cutAlike (by rw [hhead]) (by rw [hhead]) hop
  generalize cut b (r ++ byte '"' :: t) = c at hfault hsize halike ⊢
  generalize cut b (r ++ byte '"' :: t') = c' at halike ⊢
  cases halike with
  | same => rfl
  | word => simp only [← List.cons_append, cutWord_append (hparts _)]
  | number => simp only [← List.cons_append, (cutNumber_append (hparts _) _).1]
  | string hb =>
    subst hb
    exact cutString_congr hfault hsize _
  | lineComment =>
    unfold cutLineComment at hsize ⊢
    simp only [← List.cons_append] at hsize ⊢
    rw [run_append_of_le (by decide) hsize]
  | blockComment hr =>
    have h2 : 2 ≤ (b :: r).length := by
      cases r with
      | nil => exact absurd (Option.some.inj hr) (by decide)
      | cons c r => simp
    exact cutBlockComment_congr h2 hfault hsize _
  | stray => cases hfault

/-- **All pieces in front of a quote**, if a piece starts at the quote. -/
theorem piecesFrom_congr (start : Nat) (w : Bytes) {t : Bytes} (t' : Bytes)
    (hfault : ∀ p ∈ piecesFrom start 0 (w ++ byte '"' :: t), p.fault = none)
    (hquote : ∃ p ∈ piecesFrom start 0 (w ++ byte '"' :: t), p.start = start + w.length) :
    ∃ ps : List Piece, (∀ p ∈ ps, p.start + p.text.length ≤ start + w.length) ∧
      piecesFrom start 0 (w ++ byte '"' :: t) = ps ++ piecesFrom (start + w.length) 0 (byte '"' :: t) ∧
      piecesFrom start 0 (w ++ byte '"' :: t') = ps ++ piecesFrom (start + w.length) 0 (byte '"' :: t') := by
  induction hn : w.length using Nat.strongRecOn generalizing start w with
  | ind n ih =>
    subst hn
    cases w with
    | nil => exact ⟨[], by simp, rfl, rfl⟩
    | cons b r =>
      -- the piece at the quote is not the first one, so the first one ends in front of it
      obtain ⟨q, hq, hstart⟩ := hquote
      have hsize : (cut b (r ++ byte '"' :: t)).size ≤ (b :: r).length := by
        rw [List.cons_append, piecesFrom_cons] at hq
        rcases List.mem_cons.1 hq with rfl | hq
        · simp at hstart
        · have := ((piecesFrom_within _ _).1 q hq).start_le
          omega
      rw [piecesFrom_cons_append start hsize] at hfault hq
      have hcut := cut_congr (hfault _ List.mem_cons_self) hsize t'
      have hsize' : (cut b (r ++ byte '"' :: t')).size ≤ (b :: r).length := by rwa [hcut]
      rw [piecesFrom_cons_append start hsize, piecesFrom_cons_append start hsize', hcut]
      have hpos := cut_size_pos b (r ++ byte '"' :: t)
      generalize cut b (r ++ byte '"' :: t) = c at *
      have hend : start + c.size + ((b :: r).drop c.size).length = start + (b :: r).length := by
        rw [List.length_drop]
        omega
      have hlater : q ∈ piecesFrom (start + c.size) 0 ((b :: r).drop c.size ++ byte '"' :: t) := by
        refine (List.mem_cons.1 hq).resolve_left ?_
        rintro rfl
        simp at hstart
      obtain ⟨ps, hps, hleft, hright⟩ := ih _ (by rw [List.length_drop, List.length_cons]; omega) _ _
        (fun p hp => hfault p (List.mem_cons_of_mem _ hp)) ⟨q, hlater, by rw [hend, hstart]⟩ rfl
      rw [hend] at hps hleft hright
      refine ⟨{ start := start, text := (b :: r).take c.size, token := c.token, fault := c.fault } :: ps, ?_, ?_, ?_⟩
      · refine List.forall_mem_cons.2 ⟨?_, hps⟩
        simp only [List.length_take]
        omega
      · rw [hleft]
        rfl
      · rw [hright]
        rfl

/-! ## Open literals -/

/-- Whether there is a quote in the text that no backslash hides. -/
def hasQuote : Bytes → Bool
  | [] => false
  | b :: r =>
    if b = byte '\\' then
      match r with
      | [] => false
      | _ :: r' => hasQuote r'
    else b = byte '"' || hasQuote r

/-- Without such a quote, a literal is open at the end of its line. -/
theorem stringEnd_of_hasQuote {w : Bytes} (hquote : hasQuote w = false) (hbreak : byte '\n' ∉ w) (k : Bytes) :
    stringEnd (w ++ byte '\n' :: k) = (w.length, false) := by
  have hescape : byte '\\' ≠ byte '"' ∧ byte '\\' ≠ byte '\n' := by decide
  have hend : byte '\n' ≠ byte '"' := by decide
  fun_induction hasQuote w with
  | case1 =>
    rw [List.nil_append, stringEnd.eq_def]
    simp [hend]
  | case2 =>
    rw [List.cons_append, stringEnd.eq_def]
    simp [hescape]
  | case3 c r ih =>
    simp only [List.mem_cons, not_or] at hbreak
    rw [List.cons_append, List.cons_append, stringEnd.eq_def]
    simp [hescape, Ne.symm hbreak.2.1, ih hquote hbreak.2.2]
  | case4 b r hb ih =>
    simp only [List.mem_cons, not_or] at hbreak
    simp only [Bool.or_eq_false_iff, decide_eq_false_iff_not] at hquote
    rw [List.cons_append, stringEnd.eq_def]
    simp [hb, hquote.1, Ne.symm hbreak.1, ih hquote.2 hbreak.2]

/-- **An open literal is one piece**, up to the end of its line. -/
theorem piecesFrom_open (start : Nat) {w : Bytes} (hquote : hasQuote w = false) (hbreak : byte '\n' ∉ w)
    (hreturn : byte '\r' ∉ w) (k : Bytes) :
    piecesFrom start 0 (byte '"' :: (w ++ byte '\n' :: k))
      = { start := start, text := byte '"' :: w, token := some .invalid,
          fault := some (.unterminatedString, w.length + 1) }
        :: piecesFrom (start + (w.length + 1)) 0 (byte '\n' :: k) := by
  have hlast : (byte '"' :: w).getLast? ≠ some (byte '\r') := by
    intro h
    rcases List.mem_cons.1 (List.mem_of_getLast? h) with h | h
    · exact absurd h (by decide)
    · exact hreturn h
  have htake : (byte '"' :: (w ++ byte '\n' :: k)).take (w.length + 1) = byte '"' :: w := by simp
  have hcut : cut (byte '"') (w ++ byte '\n' :: k)
      = { size := w.length + 1, token := some .invalid, fault := some (.unterminatedString, w.length + 1) } := by
    simp only [cut_quote, cutString, List.drop_succ_cons, List.drop_zero, stringEnd_of_hasQuote hquote hbreak,
      Nat.add_comm 1, htake, if_neg hlast, Bool.false_eq_true, if_false]
  rw [piecesFrom_cons, hcut, htake, List.drop_succ_cons, List.drop_left]

namespace Source

variable {s e l b c : Source} {w : Bytes}

/-- The tokens in front of a quote, where a token starts, and those from the quote on. -/
theorem tokens_congr {t t' : Bytes} (he : e.text = s.text ++ byte '"' :: t) (hc : c.text = s.text ++ byte '"' :: t')
    (hquiet : e.faults = []) {x : Lexeme} (hx : x ∈ e.tokens) (hstart : x.location.span.start = s.size) :
    ∃ xs : List Lexeme, e.tokens = xs ++ e.tokensOf (piecesFrom s.size 0 (byte '"' :: t)) ∧
      c.tokens = xs ++ c.tokensOf (piecesFrom s.size 0 (byte '"' :: t')) ∧
      c.faults = c.faultsOf (piecesFrom s.size 0 (byte '"' :: t')) := by
  have hfault : ∀ p ∈ piecesFrom 0 0 (s.text ++ byte '"' :: t), p.fault = none := by
    rw [← he]
    exact fun p hp => fault_eq_none hquiet hp
  obtain ⟨q, hq, hqx, -⟩ := exists_of_mem_tokensOf (show x ∈ e.tokensOf e.pieces from hx)
  have hquote : q.start = 0 + s.text.length := by
    have hspan := Piece.span_of_lexeme? hqx
    rw [hspan] at hstart
    simp only [size] at hstart
    omega
  obtain ⟨ps, hps, hleft, hright⟩ := piecesFrom_congr 0 s.text t' hfault ⟨q, by rwa [← he], hquote⟩
  rw [Nat.zero_add] at hps hleft hright
  -- in front of the quote, both texts are `s`
  have hsame : ∀ p ∈ ps, Piece.lexeme? c p = Piece.lexeme? e p := by
    intro p hp
    have hstop : (p.start : Int) + p.text.length ≤ s.size := by exact_mod_cast hps p hp
    unfold Piece.lexeme?
    rw [location_of_le hc (by omega) (by omega) hstop, location_of_le he (by omega) (by omega) hstop]
  have hnone : c.faultsOf ps = [] := by
    refine List.flatMap_eq_nil_iff.2 fun p hp => ?_
    have hp' : p ∈ piecesFrom 0 0 (s.text ++ byte '"' :: t) := by
      rw [hleft]
      exact List.mem_append_left _ hp
    rw [Piece.diagnostics, hfault p hp']
  refine ⟨e.tokensOf ps, ?_, ?_, ?_⟩
  · show e.tokensOf e.pieces = _
    rw [pieces, he, hleft, tokensOf_append]
    rfl
  · show c.tokensOf c.pieces = _
    rw [pieces, hc, hright, tokensOf_append, tokensOf, List.filterMap_congr hsame]
    rfl
  · show c.faultsOf c.pieces = _
    rw [pieces, hc, hright, faultsOf_append, hnone]
    rfl

/-- The invalid token that a literal in the text `l`, which is left open behind the text `s`, is. -/
def openLiteral (c s l : Source) (w : Bytes) : Lexeme :=
  { token := .invalid, text := byte '"' :: w, location := c.location ⟨s.size, l.size⟩ }

/-- **A literal that is left open** in place of an empty one, and a text below it. -/
theorem tokens_open (he : e.text = s.text ++ utf8 "\"\";") (hquiet : e.faults = []) {x : Lexeme} (hx : x ∈ e.tokens)
    (hstart : x.location.span.start = s.size) (hl : l.text = s.text ++ byte '"' :: w) (hquote : hasQuote w = false)
    (hbreak : byte '\n' ∉ w) (hreturn : byte '\r' ∉ w) (hc : c.text = l.text ++ byte '\n' :: b.text)
    (hname : c.name = b.name) :
    ∃ (xs : List Lexeme) (lit semi : Lexeme), e.tokens = xs ++ [lit, semi] ∧ lit.token = .string ∧ semi.token = .semi ∧
      lit.location.span.start = s.size ∧
      c.tokens = xs ++ c.openLiteral s l w :: b.tokens.map (Lexeme.relocate l.below) ∧
      c.faults = { problem := .unterminatedString, location := c.location ⟨s.size, l.size⟩, source := c.name }
        :: b.faults.map (Diagnostic.relocate l.below) := by
  have hsize : l.size = s.size + (w.length + 1) := by simp [size, hl]
  have hc' : c.text = s.text ++ byte '"' :: (w ++ byte '\n' :: b.text) := by simp [hc, hl]
  obtain ⟨xs, hxs, htokens, hfaults⟩ := tokens_congr (t := utf8 "\";") he hc' hquiet hx hstart
  rw [piecesFrom_open s.size hquote hbreak hreturn, ← hsize] at htokens hfaults
  refine ⟨xs, _, _, hxs, rfl, rfl, rfl, ?_, ?_⟩
  · have hlit : Piece.lexeme? c
        { start := s.size, text := byte '"' :: w, token := some .invalid,
          fault := some (.unterminatedString, w.length + 1) } = some (c.openLiteral s l w) := by
      simp only [Piece.lexeme?, Option.map_some, openLiteral, List.length_cons, hsize]
      push_cast
      rfl
    rw [htokens, tokensOf, List.filterMap_cons_some hlit, lexemes_break hc, List.filter_cons_of_pos rfl, List.filter_map]
    rfl
  · rw [hfaults, faultsOf, List.flatMap_cons, faults_break hc hname]
    simp only [Piece.diagnostics, hsize]
    push_cast
    rfl

end Source

end SmallJava
