import SmallJava.Proofs.Lexical.Spelling

/-!
# Cutting a text that goes on

What stands at the start of a text is cut off without looking further than the first byte that cannot belong to it.
So a text without faults is cut in the same way if another text is written behind it, provided that this starts with a
byte that ends everything before it (`Parts`): a line break, a semicolon, a closing parenthesis or a quote. A line
comment is ended by a line break only.

* `cutAlike` — two texts that are cut in the same way;
* `cut_append` — one piece;
* `piecesFrom_append` — all pieces: those of the first text, and those of the second one at their new offsets.
-/

namespace SmallJava

/-- The text is empty, or it starts with a byte that no token goes on with. -/
def Parts (k : Bytes) : Prop := ∀ c ∈ k.head?, c = byte '\n' ∨ c = byte ';' ∨ c = byte ')' ∨ c = byte '"'

/-! ## Classes of bytes -/

/-- What parts two texts starts with none of the bytes that could go on with a token. -/
theorem Parts.head_eq_false {k : Bytes} (h : Parts k) {p : UInt8 → Bool} (hbreak : p (byte '\n') = false)
    (hsemi : p (byte ';') = false) (hparen : p (byte ')') = false) (hquote : p (byte '"') = false) :
    ∀ c ∈ k.head?, p c = false := by
  intro c hc
  rcases h c hc with rfl | rfl | rfl | rfl
  · exact hbreak
  · exact hsemi
  · exact hparen
  · exact hquote

/-- A run does not go on behind a byte that is not part of it. -/
theorem run_append_right {p : UInt8 → Bool} {k : Bytes} (hk : ∀ c ∈ k.head?, p c = false) (w : Bytes) :
    run p (w ++ k) = run p w := by
  induction w with
  | nil =>
    cases k with
    | nil => rfl
    | cons c k => simp [run, hk c rfl]
  | cons b w ih =>
    unfold run at ih ⊢
    rw [List.cons_append, List.takeWhile_cons, List.takeWhile_cons]
    split
    · simpa using ih
    · rfl

theorem run_le (p : UInt8 → Bool) (w : Bytes) : run p w ≤ w.length := (List.takeWhile_prefix p).length_le

/-- A word ends where it ends without the second text. -/
theorem Parts.run_isWordByte {k : Bytes} (hk : Parts k) (w : Bytes) : run isWordByte (w ++ k) = run isWordByte w :=
  run_append_right (hk.head_eq_false (by decide) (by decide) (by decide) (by decide)) w

theorem Parts.run_isDigit {k : Bytes} (hk : Parts k) (w : Bytes) : run isDigit (w ++ k) = run isDigit w :=
  run_append_right (hk.head_eq_false (by decide) (by decide) (by decide) (by decide)) w

theorem Parts.fractionSize {k : Bytes} (hk : Parts k) (w : Bytes) : fractionSize (w ++ k) = fractionSize w := by
  cases w with
  | nil =>
    cases k with
    | nil => rfl
    | cons c k =>
      have hdot : c ≠ byte '.' := by
        rcases hk c rfl with rfl | rfl | rfl | rfl <;> decide
      simp [SmallJava.fractionSize, hdot]
  | cons b w => simp only [List.cons_append, SmallJava.fractionSize, hk.run_isDigit]

theorem fractionSize_le (w : Bytes) : fractionSize w ≤ w.length := by
  cases w with
  | nil => exact Nat.le_refl 0
  | cons b w =>
    have := run_le isDigit w
    simp only [fractionSize, List.length_cons]
    split <;> omega

/-! ## One piece -/

variable {k : Bytes}

/-- A word is cut off as without the second text. -/
theorem cutWord_append (hk : Parts k) (w : Bytes) : cutWord (w ++ k) = cutWord w := by
  simp only [cutWord, hk.run_isWordByte, List.take_append_of_le_length (run_le isWordByte w)]

/-- A number is cut off as without the second text, and lies in the first one. -/
theorem cutNumber_append (hk : Parts k) (w : Bytes) :
    cutNumber (w ++ k) = cutNumber w ∧ (cutNumber w).size ≤ w.length := by
  have hwhole := run_le isDigit w
  have hfraction := fractionSize_le (w.drop (run isDigit w))
  have hnumber : run isDigit w + fractionSize (w.drop (run isDigit w)) ≤ w.length := by
    rw [List.length_drop] at hfraction
    omega
  have hexcess := run_le isWordByte (w.drop (run isDigit w + fractionSize (w.drop (run isDigit w))))
  rw [List.length_drop] at hexcess
  constructor
  · simp only [cutNumber, hk.run_isDigit, List.drop_append_of_le_length hwhole, hk.fractionSize,
      List.drop_append_of_le_length hnumber, hk.run_isWordByte]
    split
    · rw [List.take_append_of_le_length (by omega)]
    · rfl
  · simp only [cutNumber]
    split
    · simp only
      omega
    · exact hnumber

theorem stringEnd_le (w : Bytes) : (stringEnd w).1 ≤ w.length := by
  fun_induction stringEnd w <;> simp_all

/-- A string literal that is closed does not go on. -/
theorem cutString_append {w : Bytes} (k : Bytes) (h : (cutString (byte '"' :: w)).fault = none) :
    cutString (byte '"' :: w ++ k) = cutString (byte '"' :: w) ∧
      (cutString (byte '"' :: w)).size ≤ (byte '"' :: w).length := by
  obtain ⟨n, closed, hend⟩ : ∃ n closed, stringEnd w = (n, closed) := ⟨_, _, rfl⟩
  simp only [cutString, List.cons_append, List.drop_succ_cons, List.drop_zero, hend] at h ⊢
  cases closed with
  | false => simp at h
  | true =>
    have hle : n ≤ w.length := by simpa [hend] using stringEnd_le w
    have hlater := (closesString_of_stringEnd hend).stringEnd_append (w.drop n ++ k)
    rw [← List.append_assoc, List.take_append_drop, List.length_take, Nat.min_eq_left hle] at hlater
    simp [hlater]
    omega

/-- A comment up to the end of its line is cut off before a line break. -/
theorem cutLineComment_append {w : Bytes} (hk : ∀ c ∈ k.head?, c = byte '\n') :
    cutLineComment (w ++ k) = cutLineComment w ∧ (cutLineComment w).size ≤ w.length := by
  have hrun : run (· != byte '\n') (w ++ k) = run (· != byte '\n') w :=
    run_append_right (fun c hc => by simp [hk c hc]) w
  exact ⟨by simp [cutLineComment, hrun], run_le _ w⟩

/-- A comment that is closed is closed at the same place. -/
theorem commentEnd?_append {w : Bytes} {n : Nat} (h : commentEnd? w = some n) (k : Bytes) :
    commentEnd? (w ++ k) = some n ∧ n ≤ w.length := by
  induction w generalizing n with
  | nil => simp [commentEnd?] at h
  | cons b r ih =>
    simp only [commentEnd?] at h
    split at h
    · next hend =>
      obtain ⟨rfl, hslash⟩ := hend
      obtain ⟨r', rfl⟩ := List.head?_eq_some_iff.1 hslash
      obtain rfl := Option.some.inj h
      simp [commentEnd?]
    · next hend =>
      obtain ⟨m, hm, rfl⟩ := Option.map_eq_some_iff.1 h
      obtain ⟨hlater, hle⟩ := ih hm
      have hhead : (r ++ k).head? = r.head? := by
        cases r with
        | nil => simp [commentEnd?] at hm
        | cons c r => rfl
      simp only [List.cons_append, commentEnd?, hhead, if_neg hend, hlater, Option.map_some, List.length_cons]
      exact ⟨trivial, by omega⟩

/-- A block comment that is closed does not go on. -/
theorem cutBlockComment_append {w : Bytes} (k : Bytes) (h2 : 2 ≤ w.length) (h : (cutBlockComment w).fault = none) :
    cutBlockComment (w ++ k) = cutBlockComment w ∧ (cutBlockComment w).size ≤ w.length := by
  unfold cutBlockComment at h ⊢
  cases hend : commentEnd? (w.drop 2) with
  | none => simp [hend] at h
  | some n =>
    obtain ⟨hlater, hle⟩ := commentEnd?_append hend k
    rw [List.length_drop] at hle
    rw [List.drop_append_of_le_length h2, hlater]
    exact ⟨rfl, by simp only; omega⟩

/-- No operator of two bytes ends in a byte that ends everything before it. -/
theorem Token.second_of_operator : ∀ t ∈ Token.all, t.isOperator = true →
    (utf8 t.spelling)[1]? ∉ [some (byte '\n'), some (byte ';'), some (byte ')'), some (byte '"')] := by
  decide

/-- No operator goes on with what parts the texts. -/
theorem operatorAt?_append (hk : Parts k) (b : UInt8) (r : Bytes) :
    Token.operatorAt? (b :: (r ++ k)) = Token.operatorAt? (b :: r) := by
  cases r with
  | nil =>
    cases k with
    | nil => rfl
    | cons c k =>
      refine operatorAt?_cons (fun t ht htext => ?_) k
      have hsecond := Token.second_of_operator t t.mem_all ht
      rw [htext] at hsecond
      have hc := hk c rfl
      simp_all
  | cons c r =>
    unfold Token.operatorAt?
    refine List.find?_congr fun e he => ?_
    have hlen := (Token.mem_operators he).2.2
    match hw : e.1, hlen with
    | [x], _ => simp [List.isPrefixOf]
    | [x, y], _ => simp [List.isPrefixOf]

/-- What stands behind the first byte of a text is the same, if more is written behind the text, unless the text ends
there. -/
theorem head?_append_eq_some_iff (hk : Parts k) {r : Bytes} {c : UInt8} (hbreak : c ≠ byte '\n')
    (hsemi : c ≠ byte ';') (hparen : c ≠ byte ')') (hquote : c ≠ byte '"') :
    (r ++ k).head? = some c ↔ r.head? = some c := by
  cases r with
  | nil =>
    cases k with
    | nil => rfl
    | cons d k =>
      have := hk d rfl
      simp only [List.nil_append, List.head?_cons, Option.some.injEq, List.head?_nil, reduceCtorEq, iff_false]
      rintro rfl
      simp_all
  | cons d r => rfl

/-- What is cut off two texts that start with `b`, of the same kind for both. -/
inductive CutAlike (b : UInt8) (r r' : Bytes) : Cut → Cut → Prop where
  | same {c : Cut} : c.size ≤ (b :: r).length → CutAlike b r r' c c
  | word : CutAlike b r r' (cutWord (b :: r)) (cutWord (b :: r'))
  | number : CutAlike b r r' (cutNumber (b :: r)) (cutNumber (b :: r'))
  | string : b = byte '"' → CutAlike b r r' (cutString (b :: r)) (cutString (b :: r'))
  | lineComment : CutAlike b r r' (cutLineComment (b :: r)) (cutLineComment (b :: r'))
  | blockComment : r.head? = some (byte '*') → CutAlike b r r' (cutBlockComment (b :: r)) (cutBlockComment (b :: r'))
  | stray : CutAlike b r r' (cutStray (b :: r)) (cutStray (b :: r'))

/-- **Two texts with the same first byte are cut in the same way** if they agree on a slash or a star behind it, and on
the operator that they start with. -/
theorem cutAlike {b : UInt8} {r r' : Bytes}
    (hslash : r'.head? = some (byte '/') ↔ r.head? = some (byte '/'))
    (hstar : r'.head? = some (byte '*') ↔ r.head? = some (byte '*'))
    (hop : Token.operatorAt? (b :: r') = Token.operatorAt? (b :: r)) : CutAlike b r r' (cut b r) (cut b r') := by
  unfold cut
  simp only [hslash, hstar, hop]
  by_cases hblank : isBlank b = true
  · simp only [if_pos hblank]
    exact .same (by simp)
  simp only [if_neg hblank]
  by_cases hletter : isLetter b = true
  · simp only [if_pos hletter]
    exact .word
  simp only [if_neg hletter]
  by_cases hdigit : isDigit b = true
  · simp only [if_pos hdigit]
    exact .number
  simp only [if_neg hdigit]
  by_cases hquote : b = byte '"'
  · simp only [if_pos hquote]
    exact .string hquote
  simp only [if_neg hquote]
  by_cases hline : b = byte '/' ∧ r.head? = some (byte '/')
  · simp only [if_pos hline]
    exact .lineComment
  simp only [if_neg hline]
  by_cases hblock : b = byte '/' ∧ r.head? = some (byte '*')
  · simp only [if_pos hblock]
    exact .blockComment hblock.2
  simp only [if_neg hblock]
  cases hfound : Token.operatorAt? (b :: r) with
  | none => exact .stray
  | some e =>
    have hprefix : e.1 <+: b :: r := List.isPrefixOf_iff_prefix.1 (by simpa using List.find?_some hfound)
    exact .same hprefix.length_le

/-- **What is cut off without a fault is cut off in the same way if the text goes on.** -/
theorem cut_append (hk : Parts k) {b : UInt8} {r : Bytes} (hfault : (cut b r).fault = none)
    (hcomment : (cut b r).token = some .lineComment → ∀ c ∈ k.head?, c = byte '\n') :
    cut b (r ++ k) = cut b r ∧ (cut b r).size ≤ (b :: r).length := by
  have halike : CutAlike b r (r ++ k) (cut b r) (cut b (r ++ k)) :=
    cutAlike (head?_append_eq_some_iff hk (by decide) (by decide) (by decide) (by decide))
      (head?_append_eq_some_iff hk (by decide) (by decide) (by decide) (by decide)) (operatorAt?_append hk b r)
  generalize cut b r = c at hfault hcomment halike ⊢
  generalize cut b (r ++ k) = c' at halike ⊢
  cases halike with
  | same hsize => exact ⟨rfl, hsize⟩
  | word => exact ⟨cutWord_append hk (b :: r), run_le isWordByte (b :: r)⟩
  | number => exact cutNumber_append hk (b :: r)
  | string hb =>
    subst hb
    exact cutString_append k hfault
  | lineComment => exact cutLineComment_append (w := b :: r) (hcomment rfl)
  | blockComment hr =>
    obtain ⟨r', rfl⟩ := List.head?_eq_some_iff.1 hr
    exact cutBlockComment_append (w := b :: byte '*' :: r') k (by simp) hfault
  | stray => cases hfault

/-! ## All pieces -/

/-- The first piece, if it does not reach into what stands behind the text. -/
theorem piecesFrom_cons_append (start : Nat) {b : UInt8} {r k : Bytes}
    (hsize : (cut b (r ++ k)).size ≤ (b :: r).length) :
    piecesFrom start 0 (b :: r ++ k)
      = { start := start, text := (b :: r).take (cut b (r ++ k)).size, token := (cut b (r ++ k)).token,
          fault := (cut b (r ++ k)).fault }
        :: piecesFrom (start + (cut b (r ++ k)).size) 0 ((b :: r).drop (cut b (r ++ k)).size ++ k) := by
  rw [List.cons_append, piecesFrom_cons, ← List.cons_append, List.take_append_of_le_length hsize,
    List.drop_append_of_le_length hsize]

/-- **A text without faults and one behind it.** -/
theorem piecesFrom_append (hk : Parts k) (start : Nat) (w : Bytes)
    (hfault : ∀ p ∈ piecesFrom start 0 w, p.fault = none)
    (hcomment : ∀ p ∈ piecesFrom start 0 w, p.token = some .lineComment → ∀ c ∈ k.head?, c = byte '\n') :
    piecesFrom start 0 (w ++ k) = piecesFrom start 0 w ++ piecesFrom (start + w.length) 0 k := by
  induction start, w using pieces_induction with
  | nil start => rfl
  | cons start b r ih =>
    rw [piecesFrom_cons] at hfault hcomment
    obtain ⟨hcut, hsize⟩ := cut_append hk (hfault _ List.mem_cons_self) (hcomment _ List.mem_cons_self)
    have hrest := ih (fun p hp => hfault p (List.mem_cons_of_mem _ hp))
      fun p hp => hcomment p (List.mem_cons_of_mem _ hp)
    have hstart : start + (cut b r).size + ((b :: r).drop (cut b r).size).length = start + (b :: r).length := by
      rw [List.length_drop]
      omega
    rw [piecesFrom_cons_append start (hcut ▸ hsize), piecesFrom_cons, hcut, hrest, hstart]
    rfl

/-- The same text at other offsets. -/
theorem piecesFrom_add (n start skip : Nat) (w : Bytes) :
    piecesFrom (start + n) skip w = (piecesFrom start skip w).map fun p => { p with start := p.start + n } := by
  induction w generalizing start skip with
  | nil => simp [piecesFrom]
  | cons b r ih =>
    have hnext : start + n + 1 = start + 1 + n := by omega
    cases skip with
    | zero => simp [piecesFrom, hnext, ih]
    | succ skip => simp [piecesFrom, hnext, ih]

end SmallJava
