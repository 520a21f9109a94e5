import SmallJava.Lexical.Piece

/-!
# The pieces of a text

Facts about cutting. `cutKind` says which kinds of pieces there are, and that there are no others; so a piece is never
empty (`cut_size_pos`), its token is neither the end marker nor, without a fault, invalid (`cut_token`), and there are
four kinds of faults (`faultKind`). The pieces of a text stand one behind the other (`piecesFrom_cons`).
-/

namespace SmallJava

/-! ## Tables -/

/-- Operators have one byte or two. -/
theorem Token.mem_operators {e : Bytes × Token} (h : e ∈ Token.operators) :
    e.2.isOperator = true ∧ e.1 = utf8 e.2.spelling ∧ (e.1.length = 2 ∨ e.1.length = 1) := by
  simp only [operators, List.mem_append, List.mem_filter, List.mem_map, decide_eq_true_eq] at h
  rcases h with ⟨⟨t, ⟨-, ht⟩, rfl⟩, hl⟩ | ⟨⟨t, ⟨-, ht⟩, rfl⟩, hl⟩
  · exact ⟨ht, rfl, .inl hl⟩
  · exact ⟨ht, rfl, .inr hl⟩

theorem Token.mem_of_operatorAt? {text : Bytes} {e : Bytes × Token} (h : Token.operatorAt? text = some e) :
    e ∈ Token.operators := List.mem_of_find?_eq_some h

/-- Reserved words are keywords and the words for values. -/
theorem Token.mem_reserved {e : Bytes × Token} (h : e ∈ Token.reserved) :
    e.1 = utf8 e.2.spelling ∧
      (e.2.isKeyword = true ∨ e.2 = .trueWord ∨ e.2 = .falseWord ∨ e.2 = .nullWord) := by
  simp only [reserved, List.mem_map, List.mem_filter, Bool.or_eq_true, decide_eq_true_eq] at h
  obtain ⟨t, ⟨-, ht⟩, rfl⟩ := h
  exact ⟨rfl, by simpa [or_assoc] using ht⟩

/-- A word is an identifier, or it is in the table of reserved words. -/
theorem Token.ofWord_cases (w : Bytes) :
    (Token.ofWord w = .ident ∧ Token.reserved.lookup w = none) ∨ (w, Token.ofWord w) ∈ Token.reserved := by
  unfold ofWord
  cases h : Token.reserved.lookup w with
  | none => exact .inl ⟨rfl, rfl⟩
  | some t =>
    obtain ⟨l₁, l₂, hl, -⟩ := List.lookup_eq_some_iff.1 h
    exact .inr (by simp [hl])

/-! ## One piece -/

/-- **What may be cut off a text** that starts with `b` and goes on with `r`, by kind. -/
inductive CutKind (b : UInt8) (r : Bytes) : Cut → Prop where
  | blank : isBlank b = true → CutKind b r { size := 1 }
  | word : isLetter b = true → CutKind b r (cutWord (b :: r))
  | number : isDigit b = true → CutKind b r (cutNumber (b :: r))
  | string : b = byte '"' → CutKind b r (cutString (b :: r))
  | lineComment : b = byte '/' → r.head? = some (byte '/') → CutKind b r (cutLineComment (b :: r))
  | blockComment : b = byte '/' → r.head? = some (byte '*') → CutKind b r (cutBlockComment (b :: r))
  | operator {spelling : Bytes} {t : Token} :
      ¬ (b = byte '/' ∧ r.head? = some (byte '/')) → ¬ (b = byte '/' ∧ r.head? = some (byte '*')) →
      Token.operatorAt? (b :: r) = some (spelling, t) → CutKind b r { size := spelling.length, token := some t }
  | stray : isBlank b = false → CutKind b r (cutStray (b :: r))

/-- **Every piece is of one of these kinds.** -/
theorem cutKind (b : UInt8) (r : Bytes) : CutKind b r (cut b r) := by
  unfold cut
  by_cases hblank : isBlank b = true
  · rw [if_pos hblank]
    exact .blank hblank
  by_cases hletter : isLetter b = true
  · rw [if_neg hblank, if_pos hletter]
    exact .word hletter
  by_cases hdigit : isDigit b = true
  · rw [if_neg hblank, if_neg hletter, if_pos hdigit]
    exact .number hdigit
  by_cases hquote : b = byte '"'
  · rw [if_neg hblank, if_neg hletter, if_neg hdigit, if_pos hquote]
    exact .string hquote
  rw [if_neg hblank, if_neg hletter, if_neg hdigit, if_neg hquote]
  by_cases hline : b = byte '/' ∧ r.head? = some (byte '/')
  · rw [if_pos hline]
    exact .lineComment hline.1 hline.2
  by_cases hblock : b = byte '/' ∧ r.head? = some (byte '*')
  · rw [if_neg hline, if_pos hblock]
    exact .blockComment hblock.1 hblock.2
  rw [if_neg hline, if_neg hblock]
  cases hop : Token.operatorAt? (b :: r) with
  | some e => exact .operator hline hblock hop
  | none => exact .stray (Bool.eq_false_iff.2 hblank)

/-- **What may be wrong with a piece** that is cut off the text `b :: r`, and with how many of its first bytes. -/
inductive FaultKind (b : UInt8) (r : Bytes) (c : Cut) : Problem → Nat → Prop where
  | number : c.token = some .invalid → FaultKind b r c (.malformedNumber ((b :: r).take c.size)) c.size
  | string : c.token = some .invalid → FaultKind b r c .unterminatedString c.size
  | blockComment : c.token = some .blockComment → utf8 "/*" <+: b :: r → FaultKind b r c .unterminatedComment 2
  | stray {x : Char} : c.token = none → FaultKind b r c (.unexpectedCharacter x) c.size

/-- **Every fault is of one of these kinds.** -/
theorem faultKind {b : UInt8} {r : Bytes} {p : Problem} {n : Nat} (h : (cut b r).fault = some (p, n)) :
    FaultKind b r (cut b r) p n := by
  have hkind := cutKind b r
  generalize cut b r = c at h hkind ⊢
  cases hkind with
  | number =>
    simp only [cutNumber] at h ⊢
    split at h
    · next hexcess =>
      rw [if_pos hexcess]
      obtain ⟨rfl, rfl⟩ := Prod.mk.inj (Option.some.inj h)
      exact .number rfl
    · cases h
  | string =>
    simp only [cutString] at h ⊢
    split at h
    · cases h
    · next hopen =>
      rw [if_neg hopen]
      obtain ⟨rfl, rfl⟩ := Prod.mk.inj (Option.some.inj h)
      exact .string rfl
  | blockComment hb hr =>
    obtain ⟨r, rfl⟩ := List.head?_eq_some_iff.1 hr
    subst hb
    simp only [cutBlockComment] at h ⊢
    split at h
    · cases h
    · obtain ⟨rfl, rfl⟩ := Prod.mk.inj (Option.some.inj h)
      exact .blockComment rfl ⟨r, rfl⟩
  | stray =>
    obtain ⟨rfl, rfl⟩ := Prod.mk.inj (Option.some.inj h)
    exact .stray rfl
  | _ => cases h

/-- A byte that is the first of a run. -/
theorem run_pos {p : UInt8 → Bool} {b : UInt8} {r : Bytes} (h : p b = true) : 0 < run p (b :: r) := by
  simp [run, h]

theorem cutString_size_pos (r : Bytes) : 0 < (cutString (byte '"' :: r)).size := by
  simp only [cutString]
  split
  · simp only
    omega
  · simp only
    split
    · next hlast =>
      -- a carriage return before the line break is behind the quote
      rcases Nat.eq_zero_or_pos (stringEnd (List.drop 1 (byte '"' :: r))).1 with hz | hp
      · rw [hz] at hlast
        have hquote : byte '"' = byte '\r' := Option.some.inj hlast
        exact absurd hquote (by decide)
      · exact hp
    · omega

/-- No piece is empty. -/
theorem cut_size_pos (b : UInt8) (r : Bytes) : 0 < (cut b r).size := by
  have hkind := cutKind b r
  generalize cut b r = c at hkind ⊢
  cases hkind with
  | blank => exact Nat.one_pos
  | word hb => exact run_pos (by simp [isWordByte, hb])
  | number hb =>
    have hrun : 0 < run isDigit (b :: r) := run_pos hb
    simp only [cutNumber]
    split <;> simp only <;> omega
  | string hb =>
    subst hb
    exact cutString_size_pos r
  | lineComment hb =>
    subst hb
    exact run_pos (by decide)
  | blockComment =>
    simp only [cutBlockComment]
    split
    · simp only
      omega
    · simp
  | operator _ _ hop =>
    rcases (Token.mem_operators (Token.mem_of_operatorAt? hop)).2.2 with hl | hl <;> simp [hl]
  | stray =>
    simp only [cutStray]
    split <;> simp [Char.utf8Size_pos]

/-- The token of a piece is not the end marker, and an invalid one is reported. -/
theorem cut_token (b : UInt8) (r : Bytes) :
    (cut b r).token ≠ some .eof ∧ ((cut b r).token = some .invalid → (cut b r).fault ≠ none) := by
  have hkind := cutKind b r
  generalize cut b r = c at hkind ⊢
  cases hkind with
  | blank => simp
  | word =>
    have hword : ∀ w, Token.ofWord w ≠ .eof ∧ Token.ofWord w ≠ .invalid := by
      intro w
      rcases Token.ofWord_cases w with h | h
      · simp [h.1]
      · have := (Token.mem_reserved h).2
        constructor <;> intro he <;> simp [he, Token.isKeyword] at this
    simp [cutWord, hword]
  | number =>
    simp only [cutNumber]
    split <;> simp
    split <;> simp
  | string =>
    simp only [cutString]
    split <;> simp
  | lineComment => simp [cutLineComment]
  | blockComment =>
    simp only [cutBlockComment]
    split <;> simp
  | operator _ _ hop =>
    have hoperator := (Token.mem_operators (Token.mem_of_operatorAt? hop)).1
    constructor <;> intro h <;> simp_all [Token.isOperator]
  | stray => simp [cutStray]

/-! ## All pieces -/

/-- Skipping bytes is going on behind them. -/
theorem piecesFrom_skip (start n : Nat) (text : Bytes) :
    piecesFrom start n text = piecesFrom (start + n) 0 (text.drop n) := by
  induction n generalizing start text with
  | zero => rfl
  | succ n ih =>
    cases text with
    | nil => simp [piecesFrom]
    | cons b r =>
      rw [piecesFrom, ih, List.drop_succ_cons]
      congr 1
      omega

/-- The first piece, and those behind it. -/
theorem piecesFrom_cons (start : Nat) (b : UInt8) (r : Bytes) :
    piecesFrom start 0 (b :: r)
      = { start := start, text := (b :: r).take (cut b r).size, token := (cut b r).token, fault := (cut b r).fault }
        :: piecesFrom (start + (cut b r).size) 0 ((b :: r).drop (cut b r).size) := by
  obtain ⟨n, hn⟩ := Nat.exists_eq_succ_of_ne_zero (Nat.ne_of_gt (cut_size_pos b r))
  rw [piecesFrom, piecesFrom_skip, hn, Nat.succ_sub_one, Nat.succ_eq_add_one, List.drop_succ_cons]
  congr 2
  omega

/-- Induction along the pieces of a text. -/
theorem pieces_induction {motive : Nat → Bytes → Prop} (nil : ∀ start, motive start [])
    (cons : ∀ start b r, motive (start + (cut b r).size) ((b :: r).drop (cut b r).size) → motive start (b :: r))
    (start : Nat) (text : Bytes) : motive start text := by
  induction hn : text.length using Nat.strongRecOn generalizing start text with
  | ind n ih =>
    cases text with
    | nil => exact nil start
    | cons b r =>
      have hpos := cut_size_pos b r
      refine cons start b r (ih _ ?_ _ _ rfl)
      simp only [← hn, List.length_drop, List.length_cons]
      omega

/-- Where a piece stands in a text that starts at offset `start`, and what its token may be. -/
structure Piece.Within (start stop : Nat) (p : Piece) : Prop where
  start_le : start ≤ p.start
  nonempty : p.text ≠ []
  le_stop : p.start + p.text.length ≤ stop
  token : p.token ≠ some .eof ∧ (p.token = some .invalid → p.fault ≠ none)

theorem Piece.Within.mono {start start' stop : Nat} {p : Piece} (h : p.Within start stop) (hs : start' ≤ start) :
    p.Within start' stop :=
  ⟨Nat.le_trans hs h.start_le, h.nonempty, h.le_stop, h.token⟩

/-- **The pieces of a text stand in it, one behind the other.** -/
theorem piecesFrom_within (start : Nat) (text : Bytes) :
    (∀ p ∈ piecesFrom start 0 text, p.Within start (start + text.length)) ∧
      (piecesFrom start 0 text).Pairwise fun p q => p.start + p.text.length ≤ q.start := by
  induction start, text using pieces_induction with
  | nil start => simp [piecesFrom]
  | cons start b r ih =>
    obtain ⟨hin, hsorted⟩ := ih
    have hpos := cut_size_pos b r
    have hlater : ∀ p ∈ piecesFrom (start + (cut b r).size) 0 ((b :: r).drop (cut b r).size),
        p.Within (start + (cut b r).size) (start + (b :: r).length) := by
      intro p hp
      have h := hin p hp
      refine ⟨h.start_le, h.nonempty, ?_, h.token⟩
      have hstop := h.le_stop
      have hlen := List.length_pos_iff.2 h.nonempty
      have hstart := h.start_le
      simp only [List.length_drop] at hstop
      omega
    rw [piecesFrom_cons]
    refine ⟨?_, List.pairwise_cons.2 ⟨?_, hsorted⟩⟩
    · intro p hp
      rcases List.mem_cons.1 hp with rfl | hp
      · refine ⟨Nat.le_refl _, ?_, ?_, cut_token b r⟩
        · simp only [ne_eq, List.take_eq_nil_iff, reduceCtorEq, or_false]
          omega
        · simp only [List.length_take]
          omega
      · exact (hlater p hp).mono (Nat.le_add_right _ _)
    · intro p hp
      have := (hlater p hp).start_le
      simp only [List.length_take]
      omega

end SmallJava
