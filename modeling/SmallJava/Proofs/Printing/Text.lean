import SmallJava.Proofs.Lexical.Spelling

/-!
# Texts made of tokens

What is printed is a text of tokens and blanks, and it has to be cut into the same tokens again.

* `Lexes text L` — the text is made of the tokens `L`, with blanks around them;
* `Lexes.source` — the tokens of a source with such a text are `L`, and it has no faults;
* `Prints F text L` — in front of what `F` allows to follow, the text adds the tokens `L`.

Texts are put together from left to right. A name or a number must not run into what follows (`Clear`); behind
punctuation and blanks anything may stand (`Any`).
-/

namespace SmallJava

/-- A token with its text, wherever it stands. -/
abbrev Spelled := Token × Bytes

/-- The kind and the text of a token. -/
def Lexeme.spelled (x : Lexeme) : Spelled := (x.token, x.text)

/-- A keyword or an operator with its text. -/
def Token.spelled (t : Token) : Spelled := (t, utf8 t.spelling)

/-- In front of `k`, the text `w` is cut off as a token of kind `t`. -/
def CutsOff (t : Token) (w k : Bytes) : Prop :=
  ∃ b r, w = b :: r ∧ cut b (r ++ k) = { size := w.length, token := some t }

/-- **Texts and their tokens.** The text is made of the tokens, with blanks around them. -/
inductive Lexes : Bytes → List Spelled → Prop where
  | nil : Lexes [] []
  | blank {b : UInt8} {k : Bytes} {L : List Spelled} : isBlank b = true → Lexes k L → Lexes (b :: k) L
  | token {t : Token} {w k : Bytes} {L : List Spelled} :
      CutsOff t w k → t.isComment = false → Utf8.IsEncoding w → Lexes k L → Lexes (w ++ k) ((t, w) :: L)

namespace Lexes

variable {text : Bytes} {L : List Spelled}

/-- A text made of tokens is encoded, since each of them is. -/
theorem isEncoding (h : Lexes text L) : Utf8.IsEncoding text := by
  induction h with
  | nil => exact Utf8.isEncoding_nil
  | @blank b _ _ hb _ ih =>
    have hascii : b < 0x80 := by
      rw [isBlank_iff] at hb
      rw [UInt8.lt_iff_toNat_lt]
      simp only [UInt8.toNat_ofNat]
      omega
    exact (Utf8.isEncoding_singleton hascii).append ih
  | token _ _ hw _ ih => exact hw.append ih

/-- The pieces of such a text are its tokens and single blanks, and none of them has a fault. -/
theorem pieces (h : Lexes text L) (start : Nat) :
    (∀ p ∈ piecesFrom start 0 text, p.fault = none ∧ ∀ t ∈ p.token, t.isComment = false) ∧
      (piecesFrom start 0 text).filterMap (fun p => p.token.map fun t => (t, p.text)) = L := by
  induction h generalizing start with
  | nil => simp [piecesFrom]
  | @blank b k L hb _ ih =>
    have hcut : cut b k = { size := 1 } := by simp [cut, hb]
    obtain ⟨hplain, htokens⟩ := ih (start + 1)
    rw [piecesFrom_cons, hcut]
    exact ⟨List.forall_mem_cons.2 ⟨by simp, hplain⟩, by simpa using htokens⟩
  | @token t w k L hcut hcomment _ _ ih =>
    obtain ⟨b, r, rfl, hcut⟩ := hcut
    obtain ⟨hplain, htokens⟩ := ih (start + (b :: r).length)
    rw [List.cons_append, piecesFrom_cons, hcut, ← List.cons_append, List.drop_left, List.take_left]
    exact ⟨List.forall_mem_cons.2 ⟨by simpa using hcomment, hplain⟩, by simpa using htokens⟩

/-- **A source with such a text has these tokens**, and no faults. -/
theorem source {s : Source} (h : Lexes s.text L) : s.faults = [] ∧ s.tokens.map Lexeme.spelled = L := by
  obtain ⟨hplain, htokens⟩ := h.pieces 0
  constructor
  · refine List.flatMap_eq_nil_iff.2 fun p hp => ?_
    simp [Piece.diagnostics, (hplain p hp).1]
  · have hall : s.tokens = s.lexemes := by
      refine List.filter_eq_self.2 fun x hx => ?_
      obtain ⟨p, hp, hpx⟩ := List.mem_filterMap.1 hx
      obtain ⟨t, ht, rfl⟩ := Option.map_eq_some_iff.1 hpx
      simpa using (hplain p hp).2 t ht
    rw [hall, ← htokens, Source.lexemes, List.map_filterMap]
    congr 1
    funext p
    cases ht : p.token <;> simp [Piece.lexeme?, ht, Lexeme.spelled]

end Lexes

/-- What is encoded is the text of a source. -/
theorem Source.ofBytes_of_isEncoding (name : String) {text : Bytes} (h : Utf8.IsEncoding text) :
    ∃ s : Source, Source.ofBytes name text = .ok s ∧ s.text = text := by
  have hgood := (Utf8.badOffset?_eq_none_iff text).2 h
  refine ⟨{ name := name, text := text, wellFormed := hgood }, ?_, rfl⟩
  unfold ofBytes
  split
  · rfl
  · next hbad => simp [hgood] at hbad

/-! ## Printing -/

/-- In front of a text that `F` allows, the text adds the tokens `L`. -/
def Prints (F : Bytes → Prop) (text : Bytes) (L : List Spelled) : Prop :=
  ∀ k K, F k → Lexes k K → Lexes (text ++ k) (L ++ K)

/-- Whatever follows. -/
def Any (_ : Bytes) : Prop := True

/-- What follows is no part of a word or a number before it. -/
structure Clear (k : Bytes) : Prop where
  word : ∀ b ∈ k.head?, isWordByte b = false
  fraction : fractionSize k = 0

theorem clear_cons {b : UInt8} (hw : isWordByte b = false) (hdot : b ≠ byte '.') (k : Bytes) : Clear (b :: k) :=
  ⟨by simpa using hw, by simp [fractionSize, hdot]⟩

/-- A dot before a letter starts no fraction. -/
theorem clear_dot {b : UInt8} (hb : isLetter b = true) (k : Bytes) : Clear (byte '.' :: b :: k) := by
  refine ⟨by simpa using (by decide : isWordByte (byte '.') = false), ?_⟩
  simp [fractionSize, run, isDigit_of_isLetter hb]

namespace Prints

variable {F G : Bytes → Prop} {a b : Bytes} {A B : List Spelled}

theorem nil : Prints F [] [] := fun _ _ _ h => h

/-- What is allowed to follow may be restricted. -/
theorem mono (h : Prints F a A) (hFG : ∀ k, G k → F k) : Prints G a A := fun k K hk => h k K (hFG k hk)

/-- One text after another, if what follows the first one is allowed there. -/
theorem append (ha : Prints F a A) (hb : Prints G b B) (hFG : ∀ k, G k → F (b ++ k)) :
    Prints G (a ++ b) (A ++ B) := by
  intro k K hk h
  rw [List.append_assoc, List.append_assoc]
  exact ha _ _ (hFG k hk) (hb k K hk h)

/-- Behind a text that anything may follow. -/
theorem before (hb : Prints G b B) (ha : Prints Any a A) : Prints G (a ++ b) (A ++ B) :=
  ha.append hb fun _ _ => trivial

theorem clear (h : Prints Any a A) : Prints Clear a A := h.mono fun _ _ => trivial

/-- A text that is cut off as a token, whatever allowed text follows, adds this token. -/
theorem token {t : Token} {w : Bytes} (hcut : ∀ k, F k → CutsOff t w k) (hcomment : t.isComment = false)
    (hw : Utf8.IsEncoding w) : Prints F w [(t, w)] :=
  fun k _ hk h => .token (hcut k hk) hcomment hw h

/-- Blanks add no token. -/
theorem blanks {w : Bytes} (hw : w.all isBlank = true) : Prints F w [] := by
  intro k K _ h
  induction w with
  | nil => exact h
  | cons b w ih =>
    rw [List.all_cons, Bool.and_eq_true] at hw
    exact .blank hw.1 (ih hw.2)

end Prints

/-! ## Names, literals and keywords -/

theorem IsToken.isComment_eq_false {t : Token} {w : Bytes} (h : IsToken t w) : t.isComment = false := by
  cases h with
  | @word b r =>
    rcases Token.ofWord_cases (b :: r) with ⟨hident, -⟩ | hreserved
    · rw [hident]
      rfl
    · have := (Token.mem_reserved hreserved).2
      cases hword : Token.ofWord (b :: r) <;> simp_all [Token.isKeyword, Token.isComment]
  | integer | float | string => rfl
  | operator ht => cases t <;> first | rfl | cases ht

/-- A word is cut off where no byte of a word follows. -/
theorem cutsOff_word {b : UInt8} {r k : Bytes} (hb : isLetter b = true) (hr : ∀ c ∈ r, isWordByte c = true)
    (hk : ∀ c ∈ k.head?, isWordByte c = false) : CutsOff (Token.ofWord (b :: r)) (b :: r) k := by
  have hword : ∀ c ∈ b :: r, isWordByte c = true := List.forall_mem_cons.2 ⟨isWordByte_iff.2 (.inl hb), hr⟩
  have hrun : run isWordByte (b :: (r ++ k)) = (b :: r).length := run_append hword hk
  refine ⟨b, r, rfl, ?_⟩
  rw [cut, if_neg (by simp [isBlank_of_isWordByte (hword b (by simp))]), if_pos hb, cutWord, hrun,
    ← List.cons_append, List.take_left]

/-- Digits end where what follows is clear. -/
theorem Clear.run_isDigit_append {w k : Bytes} (hw : ∀ c ∈ w, isDigit c = true) (hk : Clear k) :
    run isDigit (w ++ k) = w.length := by
  refine run_append hw fun c hc => ?_
  have hword := hk.word c hc
  simp only [isWordByte, Bool.or_eq_false_iff] at hword
  exact hword.2

theorem Clear.run_isWordByte {k : Bytes} (hk : Clear k) : run isWordByte k = 0 :=
  run_append (w := []) (by simp) hk.word

/-- An integer is cut off where neither a word nor a fraction follows. -/
theorem cutsOff_integer {w k : Bytes} (hne : w ≠ []) (hw : ∀ c ∈ w, isDigit c = true) (hk : Clear k) :
    CutsOff .integer w k := by
  obtain ⟨b, r, rfl⟩ := List.exists_cons_of_ne_nil hne
  refine ⟨b, r, rfl, ?_⟩
  rw [cut_of_isDigit (hw b (by simp)), ← List.cons_append]
  simp only [cutNumber, hk.run_isDigit_append hw, List.drop_left, hk.fraction, Nat.add_zero, hk.run_isWordByte,
    Nat.lt_irrefl, if_false]

/-- A number with a fraction is cut off where neither a word nor another fraction follows. -/
theorem cutsOff_float {v w k : Bytes} (hvne : v ≠ []) (hv : ∀ c ∈ v, isDigit c = true) (hwne : w ≠ [])
    (hw : ∀ c ∈ w, isDigit c = true) (hk : Clear k) : CutsOff .float (v ++ byte '.' :: w) k := by
  obtain ⟨b, r, rfl⟩ := List.exists_cons_of_ne_nil hvne
  refine ⟨b, r ++ byte '.' :: w, rfl, ?_⟩
  have hwhole : run isDigit (b :: r ++ (byte '.' :: (w ++ k))) = (b :: r).length :=
    run_append hv (by simpa using (by decide : isDigit (byte '.') = false))
  have hfraction : fractionSize (byte '.' :: (w ++ k)) = (byte '.' :: w).length := by
    have hpos := List.length_pos_iff.2 hwne
    simp only [fractionSize, hk.run_isDigit_append hw, hpos, and_self, if_true, List.length_cons]
    omega
  have htext : b :: (r ++ byte '.' :: w ++ k) = b :: r ++ (byte '.' :: (w ++ k)) := by simp
  have hrest : (b :: r ++ (byte '.' :: (w ++ k))).drop ((b :: r).length + (byte '.' :: w).length) = k := by
    rw [← List.drop_drop, List.drop_left, ← List.cons_append, List.drop_left]
  have hpos : 0 < (byte '.' :: w).length := by simp
  rw [cut_of_isDigit (hv b (by simp)), htext]
  simp only [cutNumber, hwhole, List.drop_left, hfraction, hrest, hk.run_isWordByte, Nat.lt_irrefl, if_false, hpos,
    if_true, List.length_append]

/-- A string ends with its quotation mark, whatever follows. -/
theorem cutsOff_string {w : Bytes} (hw : ClosesString w) (k : Bytes) : CutsOff .string (byte '"' :: w) k := by
  refine ⟨byte '"', w, rfl, ?_⟩
  have hcut : cut (byte '"') (w ++ k) = cutString (byte '"' :: (w ++ k)) := rfl
  simp [hcut, cutString, hw.stringEnd_append, Nat.add_comm]

/-- **A name or a literal is cut off again**, if it does not run into what follows. -/
theorem IsToken.cutsOff {t : Token} {w k : Bytes} (h : IsToken t w) (ht : t.isOperator = false) (hk : Clear k) :
    CutsOff t w k := by
  cases h with
  | word hb hr => exact cutsOff_word hb hr hk.word
  | integer hne hw => exact cutsOff_integer hne hw hk
  | float hvne hv hwne hw => exact cutsOff_float hvne hv hwne hw hk
  | string hw => exact cutsOff_string hw k
  | operator hop => simp [ht] at hop

/-- The token is a name or a constant. -/
def Token.isAtom (t : Token) : Bool := t = .ident || t.isLiteral

theorem Token.ne_invalid_of_isAtom {t : Token} (ht : t.isAtom = true) : t ≠ .invalid := by
  rintro rfl
  cases ht

theorem Token.isOperator_of_isAtom {t : Token} (ht : t.isAtom = true) : t.isOperator = false := by
  cases t <;> first | rfl | cases ht

/-- **A name or a literal is printed as its text**, and must be followed by a clear text. -/
theorem Lexeme.Faithful.prints {x : Lexeme} (hx : x.Faithful) (ht : x.token.isAtom = true) :
    Prints Clear x.text [x.spelled] := by
  have hvalid := Token.ne_invalid_of_isAtom ht
  have htoken := hx.isToken hvalid
  have hcut : ∀ k, Clear k → CutsOff x.token x.text k :=
    fun k hk => htoken.cutsOff (Token.isOperator_of_isAtom ht) hk
  exact .token hcut htoken.isComment_eq_false (hx.isEncoding hvalid)

/-- Keywords and operators have one spelling. -/
theorem IsToken.eq_spelling {t : Token} {w : Bytes} (h : IsToken t w) (ht : t.isKeyword = true ∨ t.isOperator = true) :
    w = utf8 t.spelling := by
  cases h with
  | @word b r =>
    rcases Token.ofWord_cases (b :: r) with ⟨hident, -⟩ | hreserved
    · simp [hident, Token.isKeyword, Token.isOperator] at ht
    · exact (Token.mem_reserved hreserved).1
  | integer | float | string => simp [Token.isKeyword, Token.isOperator] at ht
  | operator => rfl

/-- Keywords and operators are spelled in one way only. -/
theorem Lexeme.Faithful.spelled_eq {x : Lexeme} (hx : x.Faithful) {t : Token} (h : x.token = t)
    (ht : t.isKeyword = true ∨ t.isOperator = true) : x.spelled = t.spelled := by
  have hvalid : x.token ≠ .invalid := by
    rw [h]
    rintro rfl
    simp [Token.isKeyword, Token.isOperator] at ht
  subst h
  exact congrArg (x.token, ·) ((hx.isToken hvalid).eq_spelling ht)

/-- A keyword is a token of its own spelling. -/
theorem isToken_keyword {t : Token} (ht : t.isKeyword = true) : IsToken t (utf8 t.spelling) := by
  have hword : Token.ofWord (utf8 t.spelling) = t := by
    cases t <;> first | cases ht; done | decide
  have hbytes : ∃ b r, utf8 t.spelling = b :: r ∧ isLetter b = true ∧ r.all isWordByte = true := by
    cases t <;> first | cases ht; done | exact ⟨_, _, rfl, by decide, by decide⟩
  obtain ⟨b, r, hspelling, hb, hr⟩ := hbytes
  rw [hspelling] at hword ⊢
  have htoken := IsToken.word hb (List.all_eq_true.1 hr)
  rwa [hword] at htoken

/-! ## Operators and punctuation -/

/-- The token stands right behind what it follows, and anything may stand behind it. -/
def Token.isMark : Token → Bool
  | .lBrace | .rBrace | .lParen | .rParen | .lSquare | .rSquare | .semi | .comma | .inc | .dec => true
  | _ => false

/-- A mark is cut off whatever follows, since no longer operator starts with it. -/
theorem cutsOff_mark {t : Token} (ht : t.isMark = true) (k : Bytes) : CutsOff t (utf8 t.spelling) k := by
  cases t <;> first | cases ht; done | exact ⟨_, _, rfl, rfl⟩

theorem clear_mark {t : Token} (ht : t.isMark = true) (k : Bytes) : Clear (utf8 t.spelling ++ k) := by
  cases t <;> first | cases ht; done | exact clear_cons (by decide) (by decide) _

/-- An operator is cut off before a blank. -/
theorem cutsOff_operator {t : Token} (ht : t.isOperator = true) (k : Bytes) :
    CutsOff t (utf8 t.spelling) (utf8 " " ++ k) := by
  cases t <;> first | cases ht; done | exact ⟨_, _, rfl, rfl⟩

/-- The signs that are also the start of a longer operator. -/
theorem second_of_sign : ∀ s ∈ [Token.plus, .minus, .not], ∀ t ∈ Token.all, t.isOperator = true →
    (utf8 t.spelling).head? = (utf8 s.spelling).head? →
    (utf8 t.spelling)[1]? = none ∨ (utf8 t.spelling)[1]? = some (byte '=') ∨
      s ≠ .not ∧ (utf8 t.spelling)[1]? = (utf8 s.spelling).head? := by
  decide

/-- A byte that starts nothing but operators. -/
theorem cut_sign {b : UInt8} (hb : b ∈ [byte '+', byte '-', byte '!']) {w : Bytes} {t : Token} {r : Bytes}
    (h : Token.operatorAt? (b :: r) = some (w, t)) : cut b r = { size := w.length, token := some t } := by
  simp only [List.mem_cons, List.not_mem_nil, or_false] at hb
  rcases hb with rfl | rfl | rfl <;> (rw [cut, h]; rfl)

/-- A sign in front of a byte that does not go on with it. -/
theorem cutsOff_sign {s : Token} (hs : s ∈ [Token.plus, .minus, .not]) {c : UInt8} (hc : c ≠ byte '=')
    (hne : s = .not ∨ utf8 s.spelling ≠ [c]) (k : Bytes) : CutsOff s (utf8 s.spelling) (c :: k) := by
  obtain ⟨b, hb, hsign, hop⟩ : ∃ b, utf8 s.spelling = [b] ∧ b ∈ [byte '+', byte '-', byte '!'] ∧
      Token.operatorAt? [b] = some ([b], s) := by
    simp only [List.mem_cons, List.not_mem_nil, or_false] at hs
    rcases hs with rfl | rfl | rfl <;> exact ⟨_, rfl, by decide, by decide⟩
  have hapart : ∀ t : Token, t.isOperator = true → utf8 t.spelling ≠ [b, c] := by
    intro t ht htext
    have hsecond := second_of_sign s hs t t.mem_all ht (by rw [htext, hb]; rfl)
    rw [htext, hb] at hsecond
    rw [hb] at hne
    simp_all
  refine ⟨b, [], hb, ?_⟩
  rw [hb]
  exact cut_sign hsign ((operatorAt?_cons hapart k).trans hop)

theorem clear_blank (k : Bytes) : Clear (utf8 " " ++ k) := clear_cons (by decide) (by decide) _

theorem Token.isComment_of_isOperator {t : Token} (ht : t.isOperator = true) : t.isComment = false := by
  cases t <;> first | rfl | cases ht

namespace Prints

variable {a : Bytes} {A : List Spelled}

/-- A keyword. -/
theorem keyword (h : Prints Any a A) {t : Token} (ht : t.isKeyword = true) :
    Prints Clear (a ++ utf8 t.spelling) (A ++ [t.spelled]) := by
  have hword := isToken_keyword ht
  have hop : t.isOperator = false := by
    cases t <;> first | rfl | cases ht
  have htoken : Prints Clear (utf8 t.spelling) [t.spelled] :=
    .token (fun _ hk => hword.cutsOff hop hk) hword.isComment_eq_false (Utf8.isEncoding_utf8 _)
  exact htoken.before h

/-- A space. -/
theorem blank (h : Prints Clear a A) : Prints Any (a ++ utf8 " ") A := by
  have hblank : Prints Any (utf8 " ") [] := .blanks rfl
  simpa using h.append hblank fun k _ => clear_blank k

/-- A punctuation mark, or an operator behind its operand. -/
theorem mark (h : Prints Clear a A) {t : Token} (ht : t.isMark = true) :
    Prints Any (a ++ utf8 t.spelling) (A ++ [t.spelled]) := by
  have hcomment : t.isComment = false := by
    cases t <;> first | rfl | cases ht
  have htoken : Prints Any (utf8 t.spelling) [t.spelled] :=
    .token (fun k _ => cutsOff_mark ht k) hcomment (Utf8.isEncoding_utf8 _)
  exact h.append htoken fun k _ => clear_mark ht k

/-- An operator and a space. -/
theorem operator (h : Prints Any a A) {t : Token} (ht : t.isOperator = true) :
    Prints Any (a ++ utf8 t.spelling ++ utf8 " ") (A ++ [t.spelled]) := by
  have hblank : Prints Any (utf8 " ") [] := .blanks rfl
  have htoken : Prints (fun k => ∃ k', k = utf8 " " ++ k') (utf8 t.spelling) [t.spelled] := by
    refine .token ?_ (Token.isComment_of_isOperator ht) (Utf8.isEncoding_utf8 _)
    rintro _ ⟨k, rfl⟩
    exact cutsOff_operator ht k
  simpa using (htoken.before h).append hblank fun k _ => ⟨k, rfl⟩

end Prints

end SmallJava
