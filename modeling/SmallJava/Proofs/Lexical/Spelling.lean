import Mathlib.Data.List.Find
import SmallJava.Proofs.Lexical.Pieces
import SmallJava.Proofs.Text.Encoding

/-!
# How tokens are spelled

`IsToken t w` says, without cutting anything, that the text `w` is a token of kind `t`. What is cut off a text as a
token is spelled that way (`isToken_of_cut`), and a text spelled that way is cut off as the same token wherever it
stands, if it does not run into what follows (`IsToken.cutsOff` for names and literals; the other tokens are a
matter of looking at the tables).
-/

namespace SmallJava

/-! ## Classes of bytes -/

theorem isDigit_iff {b : UInt8} : isDigit b = true ↔ 48 ≤ b.toNat ∧ b.toNat ≤ 57 := by
  simp [isDigit, byte, UInt8.le_iff_toNat_le]

theorem isLetter_iff {b : UInt8} :
    isLetter b = true ↔ 97 ≤ b.toNat ∧ b.toNat ≤ 122 ∨ 65 ≤ b.toNat ∧ b.toNat ≤ 90 ∨ b.toNat = 95 := by
  simp [isLetter, byte, UInt8.le_iff_toNat_le, ← UInt8.toNat_inj, or_assoc]

theorem isWordByte_iff {b : UInt8} : isWordByte b = true ↔ isLetter b = true ∨ isDigit b = true := by
  simp [isWordByte]

theorem isBlank_iff {b : UInt8} :
    isBlank b = true ↔ b.toNat = 32 ∨ b.toNat = 13 ∨ b.toNat = 10 ∨ b.toNat = 9 ∨ b.toNat = 12 := by
  simp [isBlank, byte, ← UInt8.toNat_inj, or_assoc]

theorem isBlank_of_isWordByte {b : UInt8} (h : isWordByte b = true) : isBlank b = false := by
  rw [isWordByte_iff, isLetter_iff, isDigit_iff] at h
  rw [Bool.eq_false_iff, Ne, isBlank_iff]
  omega

theorem isLetter_of_isDigit {b : UInt8} (h : isDigit b = true) : isLetter b = false := by
  rw [isDigit_iff] at h
  rw [Bool.eq_false_iff, Ne, isLetter_iff]
  omega

theorem isDigit_of_isLetter {b : UInt8} (h : isLetter b = true) : isDigit b = false := by
  rw [isLetter_iff] at h
  rw [Bool.eq_false_iff, Ne, isDigit_iff]
  omega

/-- A word starts with a letter. -/
theorem cut_of_isLetter {b : UInt8} (h : isLetter b = true) (r : Bytes) : cut b r = cutWord (b :: r) := by
  have hblank : isBlank b = false := isBlank_of_isWordByte (isWordByte_iff.2 (.inl h))
  simp [cut, hblank, h]

/-- A number starts with a digit. -/
theorem cut_of_isDigit {b : UInt8} (h : isDigit b = true) (r : Bytes) : cut b r = cutNumber (b :: r) := by
  have hblank : isBlank b = false := isBlank_of_isWordByte (isWordByte_iff.2 (.inr h))
  simp [cut, hblank, isLetter_of_isDigit h, h]

theorem lt_of_isWordByte {b : UInt8} (h : isWordByte b = true) : b < 0x80 := by
  rw [isWordByte_iff, isLetter_iff, isDigit_iff] at h
  rw [UInt8.lt_iff_toNat_lt]
  simp only [UInt8.toNat_ofNat]
  omega

theorem lt_of_isBlank {b : UInt8} (h : isBlank b = true) : b < 0x80 := by
  rw [isBlank_iff] at h
  rw [UInt8.lt_iff_toNat_lt]
  simp only [UInt8.toNat_ofNat]
  omega

/-! ## Runs -/

/-- A run ends where something else follows. -/
theorem run_append {p : UInt8 → Bool} {w k : Bytes} (hw : ∀ b ∈ w, p b = true) (hk : ∀ b ∈ k.head?, p b = false) :
    run p (w ++ k) = w.length := by
  unfold run
  rw [List.takeWhile_append_of_pos hw]
  cases k with
  | nil => simp
  | cons c k => simp [hk c rfl]

theorem take_run (p : UInt8 → Bool) (text : Bytes) : text.take (run p text) = text.takeWhile p :=
  (List.prefix_iff_eq_take.1 (List.takeWhile_prefix p)).symm

/-- All bytes of a run are of its kind. -/
theorem of_mem_take_run {p : UInt8 → Bool} {text : Bytes} : ∀ b ∈ text.take (run p text), p b = true := by
  rw [take_run]
  exact List.all_eq_true.1 List.all_takeWhile

theorem drop_run (p : UInt8 → Bool) (text : Bytes) : text.drop (run p text) = text.dropWhile p := by
  have h : text.take (run p text) ++ text.drop (run p text) = text.takeWhile p ++ text.dropWhile p := by
    rw [List.take_append_drop, List.takeWhile_append_dropWhile]
  rw [take_run] at h
  exact List.append_cancel_left h

/-- A run ends in front of a byte that is not part of it. -/
theorem head_drop_run (p : UInt8 → Bool) (text : Bytes) : ∀ b ∈ (text.drop (run p text)).head?, p b = false := by
  intro b hb
  have hhead := List.head?_dropWhile_not p text
  rw [drop_run] at hb
  rw [hb] at hhead
  exact hhead

theorem take_run_ne_nil {p : UInt8 → Bool} {text : Bytes} (h : 0 < run p text) : text.take (run p text) ≠ [] := by
  rw [take_run]
  exact List.length_pos_iff.1 h

/-! ## Spellings -/

/-- The text is what stands behind the opening quote of a string literal: a backslash goes with the byte after it, and
the first other quote is the last byte. -/
inductive ClosesString : Bytes → Prop where
  | close : ClosesString [byte '"']
  | escape {c : UInt8} {r : Bytes} : c ≠ byte '\n' → ClosesString r → ClosesString (byte '\\' :: c :: r)
  | plain {b : UInt8} {r : Bytes} : b ≠ byte '"' → b ≠ byte '\n' → b ≠ byte '\\' → ClosesString r →
      ClosesString (b :: r)

/-- The text is a token of this kind. -/
inductive IsToken : Token → Bytes → Prop where
  /-- A letter, and letters and digits behind it: a reserved word, or a name. -/
  | word {b : UInt8} {r : Bytes} : isLetter b = true → (∀ c ∈ r, isWordByte c = true) →
      IsToken (Token.ofWord (b :: r)) (b :: r)
  /-- Digits. -/
  | integer {w : Bytes} : w ≠ [] → (∀ c ∈ w, isDigit c = true) → IsToken .integer w
  /-- Digits, a point, and more digits. -/
  | float {v w : Bytes} : v ≠ [] → (∀ c ∈ v, isDigit c = true) → w ≠ [] → (∀ c ∈ w, isDigit c = true) →
      IsToken .float (v ++ byte '.' :: w)
  /-- A quote, and all up to the one that closes the literal. -/
  | string {w : Bytes} : ClosesString w → IsToken .string (byte '"' :: w)
  | operator {t : Token} : t.isOperator = true → IsToken t (utf8 t.spelling)

/-- A word that was cut off is a token of its text. -/
theorem isToken_of_cutWord {b : UInt8} {r : Bytes} (hb : isLetter b = true) :
    IsToken (Token.ofWord ((b :: r).take (run isWordByte (b :: r)))) ((b :: r).take (run isWordByte (b :: r))) := by
  have hmem : ∀ c ∈ (b :: r).take (run isWordByte (b :: r)), isWordByte c = true := of_mem_take_run
  have hpos : 0 < run isWordByte (b :: r) := run_pos (isWordByte_iff.2 (.inl hb))
  obtain ⟨n, hn⟩ := Nat.exists_eq_succ_of_ne_zero (Nat.ne_of_gt hpos)
  rw [hn, Nat.succ_eq_add_one, List.take_succ_cons] at hmem ⊢
  exact .word hb fun c hc => hmem c (List.mem_cons_of_mem b hc)

/-- A fraction is a point and digits. -/
theorem take_fractionSize {text : Bytes} (h : 0 < fractionSize text) :
    ∃ w, text.take (fractionSize text) = byte '.' :: w ∧ w ≠ [] ∧ ∀ c ∈ w, isDigit c = true := by
  cases text with
  | nil => simp [fractionSize] at h
  | cons p r =>
    simp only [fractionSize] at h ⊢
    split at h
    · next hp =>
      refine ⟨r.take (run isDigit r), ?_, take_run_ne_nil hp.2, of_mem_take_run⟩
      rw [if_pos hp, Nat.add_comm, List.take_succ_cons, hp.1]
    · exact absurd h (Nat.lt_irrefl 0)

/-- Digits and perhaps a fraction are a number. -/
theorem isToken_number {b : UInt8} {r : Bytes} (hb : isDigit b = true) :
    IsToken (if 0 < fractionSize ((b :: r).drop (run isDigit (b :: r))) then .float else .integer)
      ((b :: r).take (run isDigit (b :: r) + fractionSize ((b :: r).drop (run isDigit (b :: r))))) := by
  have hpos : 0 < run isDigit (b :: r) := run_pos hb
  rw [List.take_add]
  by_cases hfraction : 0 < fractionSize ((b :: r).drop (run isDigit (b :: r)))
  · obtain ⟨w, hw, hne, hdigits⟩ := take_fractionSize hfraction
    rw [if_pos hfraction, hw]
    exact .float (take_run_ne_nil hpos) of_mem_take_run hne hdigits
  · rw [if_neg hfraction, Nat.eq_zero_of_not_pos hfraction, List.take_zero, List.append_nil]
    exact .integer (take_run_ne_nil hpos) of_mem_take_run

/-- A number that was cut off is a token of its text, unless it is malformed. -/
theorem isToken_of_cutNumber {b : UInt8} {r : Bytes} {t : Token} (hb : isDigit b = true)
    (h : (cutNumber (b :: r)).token = some t) (hvalid : t ≠ .invalid) :
    IsToken t ((b :: r).take (cutNumber (b :: r)).size) := by
  unfold cutNumber at h ⊢
  simp only at h ⊢
  split at h
  · exact absurd (Option.some.inj h).symm hvalid
  · next hexcess =>
    rw [if_neg hexcess, ← Option.some.inj h]
    exact isToken_number hb

/-- What the search for the end of a string gives is closed. -/
theorem closesString_of_stringEnd {r : Bytes} {n : Nat} (h : stringEnd r = (n, true)) : ClosesString (r.take n) := by
  fun_induction stringEnd r generalizing n with
  | case2 => 
    obtain ⟨rfl, -⟩ := Prod.mk.inj h
    exact .close
  | case6 c r hc m closed hrest _ _ ih =>
    obtain ⟨rfl, rfl⟩ := Prod.mk.inj h
    exact .escape hc (ih hrest)
  | case7 b r hq hn hb m closed hrest ih =>
    obtain ⟨rfl, rfl⟩ := Prod.mk.inj h
    exact .plain hq hn hb (ih hrest)
  | _ => simp at h

/-- A closed string ends where it is closed, whatever follows. -/
theorem ClosesString.stringEnd_append {w : Bytes} (h : ClosesString w) (k : Bytes) :
    stringEnd (w ++ k) = (w.length, true) := by
  induction h with
  | close =>
    rw [stringEnd.eq_def]
    simp
  | escape hc _ ih =>
    have hquote : byte '\\' ≠ byte '"' := by decide
    have hbreak : byte '\\' ≠ byte '\n' := by decide
    rw [stringEnd.eq_def]
    simp [hquote, hbreak, hc, ih]
  | plain hq hn hb _ ih =>
    rw [stringEnd.eq_def]
    simp [hq, hn, hb, ih]

theorem ClosesString.eq_append {w : Bytes} (h : ClosesString w) : ∃ body, w = body ++ [byte '"'] := by
  induction h with
  | close => exact ⟨[], rfl⟩
  | @escape c _ _ _ ih =>
    obtain ⟨body, rfl⟩ := ih
    exact ⟨byte '\\' :: c :: body, rfl⟩
  | @plain b _ _ _ _ _ ih =>
    obtain ⟨body, rfl⟩ := ih
    exact ⟨b :: body, rfl⟩

/-- A closed string that was cut off is a token of its text. -/
theorem isToken_of_cutString {r : Bytes} {t : Token} (h : (cutString (byte '"' :: r)).token = some t)
    (hvalid : t ≠ .invalid) : IsToken t ((byte '"' :: r).take (cutString (byte '"' :: r)).size) := by
  obtain ⟨n, closed, hend⟩ : ∃ n closed, stringEnd r = (n, closed) := ⟨_, _, rfl⟩
  simp only [cutString, List.drop_succ_cons, List.drop_zero, hend] at h ⊢
  cases closed with
  | true =>
    simp only [if_true, Option.some.injEq] at h ⊢
    rw [← h, Nat.add_comm, List.take_succ_cons]
    exact .string (closesString_of_stringEnd hend)
  | false => exact absurd (by simpa using h.symm) hvalid

theorem Token.mem_all (t : Token) : t ∈ Token.all := by
  cases t <;> decide

/-- Two bytes that are no operator do not go together. -/
theorem operatorAt?_cons {b c : UInt8} (h : ∀ t : Token, t.isOperator = true → utf8 t.spelling ≠ [b, c]) (k : Bytes) :
    Token.operatorAt? (b :: c :: k) = Token.operatorAt? [b] := by
  unfold Token.operatorAt?
  refine List.find?_congr fun e he => ?_
  obtain ⟨hop, hspelling, hlen⟩ := Token.mem_operators he
  have hne : e.1 ≠ [b, c] := hspelling ▸ h e.2 hop
  match hw : e.1, hlen with
  | [x], _ => simp [List.isPrefixOf]
  | [x, y], _ =>
    rw [hw] at hne
    simpa [List.isPrefixOf] using hne

/-- An operator that was cut off is a token of its text. -/
theorem isToken_of_operatorAt? {text : Bytes} {e : Bytes × Token} (h : Token.operatorAt? text = some e) :
    IsToken e.2 (text.take e.1.length) := by
  obtain ⟨hop, hspelling, -⟩ := Token.mem_operators (Token.mem_of_operatorAt? h)
  have hfound : e.1.isPrefixOf text = true := by
    unfold Token.operatorAt? at h
    simpa using List.find?_some h
  have hprefix : e.1 <+: text := List.isPrefixOf_iff_prefix.1 hfound
  rw [← List.prefix_iff_eq_take.1 hprefix, hspelling]
  exact .operator hop

/-- **What is cut off as a token is spelled like one.** -/
theorem isToken_of_cut {b : UInt8} {r : Bytes} {t : Token} (h : (cut b r).token = some t) (hvalid : t ≠ .invalid)
    (hcomment : t.isComment = false) : IsToken t ((b :: r).take (cut b r).size) := by
  have hkind := cutKind b r
  generalize cut b r = c at h hkind ⊢
  cases hkind with
  | blank => cases h
  | word hb =>
    obtain rfl := Option.some.inj h
    exact isToken_of_cutWord hb
  | number hb => exact isToken_of_cutNumber hb h hvalid
  | string hb =>
    subst hb
    exact isToken_of_cutString h hvalid
  | lineComment =>
    obtain rfl := Option.some.inj h
    cases hcomment
  | blockComment =>
    simp only [cutBlockComment] at h
    split at h
    · obtain rfl := Option.some.inj h
      cases hcomment
    · obtain rfl := Option.some.inj h
      cases hcomment
  | operator _ _ hop =>
    obtain rfl := Option.some.inj h
    exact isToken_of_operatorAt? hop
  | stray => cases h

/-- The text of a token is well formed if it stands in a well-formed text. -/
theorem IsToken.isEncoding {t : Token} {u w v : Bytes} (h : IsToken t w) (hs : Utf8.IsEncoding (u ++ w ++ v)) :
    Utf8.IsEncoding w := by
  cases h with
  | word hb hr =>
    refine Utf8.isEncoding_of_ascii fun c hc => lt_of_isWordByte ?_
    rcases List.mem_cons.1 hc with rfl | hc
    · exact isWordByte_iff.2 (.inl hb)
    · exact hr c hc
  | integer _ hw => exact Utf8.isEncoding_of_ascii fun c hc => lt_of_isWordByte (isWordByte_iff.2 (.inr (hw c hc)))
  | float _ hv _ hw =>
    refine Utf8.isEncoding_of_ascii fun c hc => ?_
    rcases List.mem_append.1 hc with hc | hc
    · exact lt_of_isWordByte (isWordByte_iff.2 (.inr (hv c hc)))
    rcases List.mem_cons.1 hc with rfl | hc
    · decide
    · exact lt_of_isWordByte (isWordByte_iff.2 (.inr (hw c hc)))
  | string hw =>
    obtain ⟨body, rfl⟩ := hw.eq_append
    have hquote : byte '"' < 0x80 := by decide
    rw [List.append_assoc, List.cons_append] at hs
    have hrest := (hs.split hquote).2
    rw [List.append_assoc, List.cons_append] at hrest
    have hbody := (hrest.split hquote).1
    exact (Utf8.isEncoding_singleton hquote).append (hbody.append (Utf8.isEncoding_singleton hquote))
  | operator _ => exact Utf8.isEncoding_utf8 _

/-! ## Tokens of a source -/

/-- A piece is cut off the text somewhere. -/
theorem exists_cut_of_mem_piecesFrom {p : Piece} {start : Nat} {text : Bytes} (hp : p ∈ piecesFrom start 0 text) :
    ∃ u b r, text = u ++ b :: r ∧ p.text = (b :: r).take (cut b r).size ∧ p.token = (cut b r).token ∧
      p.fault = (cut b r).fault := by
  induction start, text using pieces_induction with
  | nil start => simp [piecesFrom] at hp
  | cons start b r ih =>
    rw [piecesFrom_cons] at hp
    rcases List.mem_cons.1 hp with rfl | hp
    · exact ⟨[], b, r, rfl, rfl, rfl, rfl⟩
    · obtain ⟨u, c, k, htext, hp⟩ := ih hp
      refine ⟨(b :: r).take (cut b r).size ++ u, c, k, ?_, hp⟩
      rw [List.append_assoc, ← htext, List.take_append_drop]

/-- Unless it is invalid, the token is spelled like one of its kind, in well-formed UTF-8. -/
structure Lexeme.Faithful (x : Lexeme) : Prop where
  isToken : x.token ≠ .invalid → IsToken x.token x.text
  isEncoding : x.token ≠ .invalid → Utf8.IsEncoding x.text

/-- **The tokens of a source are spelled like tokens.** -/
theorem Source.faithful (s : Source) {x : Lexeme} (hx : x ∈ s.tokens) : x.Faithful := by
  obtain ⟨hlexeme, hcomment⟩ := List.mem_filter.1 hx
  obtain ⟨p, hp, hpx⟩ := List.mem_filterMap.1 hlexeme
  obtain ⟨t, ht, rfl⟩ := Option.map_eq_some_iff.1 hpx
  obtain ⟨u, b, r, htext, hptext, hptoken, -⟩ := exists_cut_of_mem_piecesFrom hp
  have htoken : t ≠ .invalid → IsToken t p.text := by
    intro hvalid
    rw [hptext]
    exact isToken_of_cut (hptoken.symm.trans ht) hvalid (by simpa using hcomment)
  refine ⟨htoken, fun hvalid => (htoken hvalid).isEncoding (u := u) (v := (b :: r).drop (cut b r).size) ?_⟩
  rw [hptext, List.append_assoc, List.take_append_drop, ← htext]
  exact (Utf8.badOffset?_eq_none_iff s.text).1 s.wellFormed

end SmallJava
