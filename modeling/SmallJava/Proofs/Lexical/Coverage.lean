import Mathlib.Data.List.Pairwise
import SmallJava.Proofs.Lexical.Kinds
import SmallJava.Proofs.Lexical.Scanning
import SmallJava.Proofs.Lexical.Tokens

/-!
# A scanner misses nothing

The pieces of a text cover it, and each of them starts and ends between two characters: however a piece is cut off, it
does not split a character (`cut_isEncoding`). So whatever stands in no token and in no comment is a blank, or a
character that is reported as unexpected, and nothing else is reported so.

* `Source.covers` — every byte stands in a piece;
* `Source.place` — where a piece was cut off;
* `scan_complete` — what a scanner gives when it goes through a whole source.
-/

namespace SmallJava

open Utf8

/-- What a list can have only once, and has, it has exactly once. -/
theorem countP_eq_one {α : Type} {R : α → α → Prop} {xs : List α} {p : α → Bool} {x : α} (h : xs.Pairwise R)
    (honce : ∀ a b, p a = true → p b = true → ¬ R a b) (hx : x ∈ xs) (hp : p x = true) : xs.countP p = 1 := by
  obtain ⟨as, bs, rfl⟩ := List.append_of_mem hx
  obtain ⟨-, hright, hleft⟩ := List.pairwise_append.1 h
  have has : as.countP p = 0 := by
    rw [List.countP_eq_zero]
    intro a ha hpa
    exact honce a x hpa hp (hleft a ha x List.mem_cons_self)
  have hbs : bs.countP p = 0 := by
    rw [List.countP_eq_zero]
    intro b hb hpb
    exact honce x b hp hpb ((List.pairwise_cons.1 hright).1 b hb)
  rw [List.countP_append, List.countP_cons_of_pos hp, has, hbs]

/-! ## One piece -/

/-- A token cut off from an encoded text is encoded. -/
theorem IsToken.isEncoding_take {t : Token} {text : Bytes} {n : Nat} (h : IsToken t (text.take n))
    (htext : IsEncoding text) : IsEncoding (text.take n) := by
  apply h.isEncoding (u := []) (v := text.drop n)
  rwa [List.nil_append, List.take_append_drop]

/-- A line ends in front of a line break. -/
theorem Utf8.IsEncoding.firstLine {text : Bytes} (h : IsEncoding text) : IsEncoding (firstLine text) := by
  rw [SmallJava.firstLine, ← take_run]
  apply h.take_of_next
  intro q hq
  have hbreak := head_drop_run _ text q hq
  simp only [bne_eq_false_iff_eq] at hbreak
  rw [hbreak]
  decide

theorem Utf8.IsEncoding.withoutReturn {line : Bytes} (h : IsEncoding line) : IsEncoding (withoutReturn line) := by
  unfold SmallJava.withoutReturn
  split
  · next hlast =>
    obtain ⟨a, rfl⟩ := List.getLast?_eq_some_iff.1 hlast
    rw [List.dropLast_concat]
    exact (h.split (by decide)).1
  · exact h

/-- A number ends between two characters, also a malformed one. -/
theorem cutNumber_isEncoding {b : UInt8} {r : Bytes} (hb : isDigit b = true) (h : IsEncoding (b :: r)) :
    IsEncoding ((b :: r).take (cutNumber (b :: r)).size) := by
  have hnumber := (isToken_number (r := r) hb).isEncoding_take h
  unfold cutNumber
  simp only
  split
  · -- the word that the number runs into is ASCII
    rw [List.take_add]
    apply hnumber.append
    apply isEncoding_of_ascii
    intro c hc
    exact lt_of_isWordByte (of_mem_take_run c hc)
  · exact hnumber

/-- A string ends between two characters, also an unterminated one. -/
theorem cutString_isEncoding {r : Bytes} (h : IsEncoding (byte '"' :: r)) :
    IsEncoding ((byte '"' :: r).take (cutString (byte '"' :: r)).size) := by
  obtain ⟨n, closed, hend⟩ : ∃ n closed, stringEnd r = (n, closed) := ⟨_, _, rfl⟩
  cases closed with
  | true =>
    have htoken : (cutString (byte '"' :: r)).token = some .string := by
      simp [cutString, hend]
    exact (isToken_of_cutString htoken (by decide)).isEncoding_take h
  | false =>
    have hstart := (withoutReturn_isPrefix (firstLine (byte '"' :: r))).trans (List.takeWhile_prefix _)
    rw [cutString_open hend, ← List.prefix_iff_eq_take.1 hstart]
    exact h.firstLine.withoutReturn

/-- A comment ends between two characters, also an unterminated one. -/
theorem cutBlockComment_isEncoding {r : Bytes} (h : IsEncoding (byte '/' :: byte '*' :: r)) :
    IsEncoding ((byte '/' :: byte '*' :: r).take (cutBlockComment (byte '/' :: byte '*' :: r)).size) := by
  unfold cutBlockComment
  simp only [List.drop_succ_cons, List.drop_zero]
  split
  · next n hend =>
    obtain ⟨body, rest, rfl, rfl⟩ := commentEnd?_split hend
    have hstart : byte '/' :: byte '*' :: (body ++ utf8 "*/" ++ rest) = utf8 "/*" ++ body ++ utf8 "*/" ++ rest := rfl
    have hsize : 2 + (body.length + 2) = (utf8 "/*" ++ body ++ utf8 "*/").length := by
      simp only [List.length_append, show (utf8 "/*").length = 2 from rfl, show (utf8 "*/").length = 2 from rfl]
      omega
    simp only [hstart] at h ⊢
    rw [hsize, List.take_left]
    rw [List.append_assoc] at h
    exact (h.split (q := byte '*') (by decide)).1.append (isEncoding_utf8 "*/")
  · simp only
    rwa [List.take_length]

/-- A character that belongs nowhere is one character. -/
theorem cutStray_encode (c : Char) (k : Bytes) :
    cutStray (String.utf8EncodeChar c ++ k)
      = { size := c.utf8Size, fault := some (.unexpectedCharacter c, c.utf8Size) } := by
  rw [cutStray, first?_encode]

/-- An encoded text starts with a character. -/
theorem Utf8.IsEncoding.exists_char {text : Bytes} (h : IsEncoding text) (hne : text ≠ []) :
    ∃ c k, text = String.utf8EncodeChar c ++ k ∧ IsEncoding k := by
  obtain ⟨cs, rfl⟩ := h
  cases cs with
  | nil => exact absurd rfl hne
  | cons c cs => exact ⟨c, _, List.flatMap_cons, cs, rfl⟩

/-- **No piece splits a character.** -/
theorem cut_isEncoding {b : UInt8} {r : Bytes} (h : IsEncoding (b :: r)) :
    IsEncoding ((b :: r).take (cut b r).size) := by
  have hkind := cutKind b r
  generalize cut b r = c at hkind ⊢
  cases hkind with
  | blank hb => exact isEncoding_singleton (lt_of_isBlank hb)
  | word hb => exact (isToken_of_cutWord hb).isEncoding_take h
  | number hb => exact cutNumber_isEncoding hb h
  | string hb =>
    subst hb
    exact cutString_isEncoding h
  | lineComment =>
    show IsEncoding ((b :: r).take (run _ (b :: r)))
    rw [take_run]
    exact h.firstLine
  | blockComment hb hr =>
    obtain ⟨r, rfl⟩ := List.head?_eq_some_iff.1 hr
    subst hb
    exact cutBlockComment_isEncoding h
  | operator _ _ hop => exact (isToken_of_operatorAt? hop).isEncoding_take h
  | stray =>
    obtain ⟨c, k, htext, -⟩ := h.exists_char (List.cons_ne_nil b r)
    rw [htext, cutStray_encode, List.take_left' (String.length_utf8EncodeChar c)]
    exact isEncoding_char c

/-- What is left behind a piece is encoded. -/
theorem drop_cut_isEncoding {b : UInt8} {r : Bytes} (h : IsEncoding (b :: r)) :
    IsEncoding ((b :: r).drop (cut b r).size) := by
  rw [← List.take_append_drop (cut b r).size (b :: r)] at h
  exact h.of_append (cut_isEncoding (List.take_append_drop (cut b r).size (b :: r) ▸ h))

/-- What is cut off a text is not longer than the text. -/
theorem cut_size_le {b : UInt8} {r : Bytes} (h : IsEncoding (b :: r)) : (cut b r).size ≤ (b :: r).length := by
  have hkind := cutKind b r
  generalize cut b r = c at hkind ⊢
  cases hkind with
  | blank => simp
  | word => exact run_le isWordByte (b :: r)
  | number => exact (cutNumber_append (k := []) (by simp [Parts]) (b :: r)).2
  | string hb =>
    have hle := stringEnd_le r
    simp only [cutString, List.drop_succ_cons, List.drop_zero, List.length_cons]
    repeat' split
    all_goals
      simp only
      omega
  | lineComment => exact run_le _ (b :: r)
  | blockComment hb hr =>
    obtain ⟨r, rfl⟩ := List.head?_eq_some_iff.1 hr
    simp only [cutBlockComment, List.drop_succ_cons, List.drop_zero]
    split
    · next n hend =>
      have hle := (commentEnd?_append hend []).2
      simp only [List.length_cons]
      omega
    · exact Nat.le_refl _
  | operator _ _ hop =>
    unfold Token.operatorAt? at hop
    exact (List.isPrefixOf_iff_prefix.1 (by simpa using List.find?_some hop)).length_le
  | stray =>
    obtain ⟨c, k, htext, -⟩ := h.exists_char (List.cons_ne_nil b r)
    rw [htext, cutStray_encode, List.length_append, String.length_utf8EncodeChar]
    exact Nat.le_add_right _ _

/-- What is no token is a blank, or a character that is reported. -/
theorem cut_of_token_eq_none {b : UInt8} {r : Bytes} (h : (cut b r).token = none) :
    (isBlank b = true ∧ (cut b r).size = 1 ∧ (cut b r).fault = none) ∨
      (isBlank b = false ∧ cut b r = cutStray (b :: r)) := by
  have hkind := cutKind b r
  generalize cut b r = c at h hkind ⊢
  cases hkind with
  | blank hb => exact .inl ⟨hb, rfl, rfl⟩
  | stray hb => exact .inr ⟨hb, rfl⟩
  | number =>
    simp only [cutNumber] at h
    split at h <;> cases h
  | string =>
    simp only [cutString] at h
    split at h <;> cases h
  | blockComment =>
    simp only [cutBlockComment] at h
    split at h <;> cases h
  | _ => cases h

/-- A fault is that of a whole piece, or of the two bytes that open a comment. An unexpected character is all of a
piece that is no token. -/
theorem cut_fault {b : UInt8} {r : Bytes} {q : Problem} {n : Nat} (h : (cut b r).fault = some (q, n)) :
    (n = (cut b r).size ∨ n = 2 ∧ utf8 "/*" <+: b :: r) ∧
      (q.code = .unexpectedCharacter → (cut b r).token = none) := by
  cases faultKind h with
  | number | string => exact ⟨.inl rfl, fun hq => by cases hq⟩
  | blockComment _ hopens => exact ⟨.inr ⟨rfl, hopens⟩, fun hq => by cases hq⟩
  | stray ht => exact ⟨.inl rfl, fun _ => ht⟩

/-! ## All pieces -/

/-- Every byte stands in a piece. -/
theorem exists_mem_piecesFrom (start : Nat) {i : Nat} {text : Bytes} (h : i < text.length) :
    ∃ p ∈ piecesFrom start 0 text, p.start ≤ start + i ∧ start + i < p.start + p.text.length := by
  induction start, text using pieces_induction generalizing i with
  | nil start => simp at h
  | cons start b r ih =>
    rw [piecesFrom_cons]
    by_cases hi : i < (cut b r).size
    · refine ⟨_, List.mem_cons_self, ?_, ?_⟩
      · simp only
        omega
      · simp only [List.length_take]
        omega
    · -- the byte is behind the first piece
      obtain ⟨p, hp, hstart, hstop⟩ := ih (i := i - (cut b r).size) (by rw [List.length_drop]; omega)
      refine ⟨p, List.mem_cons_of_mem _ hp, ?_, ?_⟩ <;> omega

/-- **A piece starts between two characters.** -/
theorem exists_place_of_mem_piecesFrom {p : Piece} {start : Nat} {text : Bytes} (h : IsEncoding text)
    (hp : p ∈ piecesFrom start 0 text) :
    ∃ u b r, text = u ++ b :: r ∧ IsEncoding u ∧ IsEncoding (b :: r) ∧ p.start = start + u.length ∧
      p.text = (b :: r).take (cut b r).size ∧ p.token = (cut b r).token ∧ p.fault = (cut b r).fault := by
  induction start, text using pieces_induction with
  | nil start => simp [piecesFrom] at hp
  | cons start b r ih =>
    rw [piecesFrom_cons] at hp
    rcases List.mem_cons.1 hp with rfl | hp
    · exact ⟨[], b, r, rfl, isEncoding_nil, h, rfl, rfl, rfl, rfl⟩
    · obtain ⟨u, c, k, htext, hu, hk, hstart, hp⟩ := ih (drop_cut_isEncoding h) hp
      refine ⟨(b :: r).take (cut b r).size ++ u, c, k, ?_, (cut_isEncoding h).append hu, hk, ?_, hp⟩
      · rw [List.append_assoc, ← htext, List.take_append_drop]
      · have hle := cut_size_le h
        rw [hstart, List.length_append, List.length_take, Nat.min_eq_left hle, Nat.add_assoc]

/-! ## A whole source -/

/-- The offset is one between two characters of the text, or at one of its ends. -/
def IsBoundary (text : Bytes) (n : Int) : Prop :=
  ∃ a b, text = a ++ b ∧ (a.length : Int) = n ∧ IsEncoding a ∧ IsEncoding b

/-- The character `c` is one of the text, at offset `n`. -/
def StandsAt (text : Bytes) (c : Char) (n : Nat) : Prop :=
  ∃ a b, text = a ++ String.utf8EncodeChar c ++ b ∧ a.length = n ∧ IsEncoding a ∧ IsEncoding b

/-- The byte at offset `i` is one of the span. -/
def Span.Has (s : Span) (i : Nat) : Prop := s.start ≤ i ∧ i < s.stop

/-- The problem is an unexpected character, and that is what stands at the span. -/
def Diagnostic.isStray (s : Span) (d : Diagnostic) : Bool := d.code = .unexpectedCharacter && d.location.span = s

/-- Behind some whole characters there is a boundary. -/
theorem isBoundary_add {text u v : Bytes} {n : Nat} (htext : text = u ++ v) (hu : IsEncoding u) (hv : IsEncoding v)
    (hn : n ≤ v.length) (h : IsEncoding (v.take n)) : IsBoundary text (u.length + n : Nat) := by
  refine ⟨u ++ v.take n, v.drop n, ?_, ?_, hu.append h, ?_⟩
  · rw [List.append_assoc, List.take_append_drop, htext]
  · rw [List.length_append, List.length_take, Nat.min_eq_left hn]
  · apply IsEncoding.of_append (a := v.take n) _ h
    rwa [List.take_append_drop]

/-- **The source is covered** by its lexemes `xs`, by blanks, and by the unexpected characters that `ds` reports. -/
structure Source.Covered (s : Source) (xs : List Lexeme) (ds : Diagnostics) : Prop where
  nonempty : ∀ x ∈ xs, x.token ≠ .eof ∧ x.location.span.start < x.location.span.stop
  increasing : xs.Pairwise fun x y =>
    x.location.span.start < y.location.span.start ∧ x.location.span.stop ≤ y.location.span.start
  spelled : ∀ x ∈ xs, s.slice? x.location.span = some x.text
  /-- A byte in no lexeme is a blank, or it belongs to a character that is reported once. -/
  outside : ∀ i < s.size, (∀ x ∈ xs, ¬ x.location.span.Has i) → isBlank (s.byteAt i) = true ∨
    ∃ c n, StandsAt s.text c n ∧ n ≤ i ∧ i < n + c.utf8Size ∧ ds.countP (·.isStray ⟨n, n + c.utf8Size⟩) = 1
  /-- What is reported as unexpected is a character that has no blank in it and is in no lexeme. -/
  strays : ∀ d ∈ ds, d.code = .unexpectedCharacter →
    ∃ c n, StandsAt s.text c n ∧ d.location.span = ⟨n, n + c.utf8Size⟩ ∧
      ∀ i, n ≤ i → i < n + c.utf8Size → isBlank (s.byteAt i) = false ∧ ∀ x ∈ xs, ¬ x.location.span.Has i
  boundaries : ∀ l ∈ xs.map (·.location) ++ ds.map (·.location),
    IsBoundary s.text l.span.start ∧ IsBoundary s.text l.span.stop
  sorted : ds.Pairwise fun d e => d.location.span.start < e.location.span.start

namespace Source

variable (s : Source)

theorem isEncoding_text : IsEncoding s.text := (badOffset?_eq_none_iff s.text).1 s.wellFormed

/-- A lexeme is that of a piece. -/
theorem mem_lexemes_iff {x : Lexeme} :
    x ∈ s.lexemes ↔ ∃ p ∈ s.pieces, ∃ t, p.token = some t ∧
      x = { token := t, text := p.text, location := s.location ⟨p.start, p.start + p.text.length⟩ } := by
  simp only [lexemes, List.mem_filterMap, Piece.lexeme?, Option.map_eq_some_iff, @eq_comm _ x]

/-- A lexical problem is that of a piece. -/
theorem mem_faults_iff {d : Diagnostic} :
    d ∈ s.faults ↔ ∃ p ∈ s.pieces, ∃ q n, p.fault = some (q, n) ∧
      d = { problem := q, location := s.location ⟨p.start, p.start + n⟩, source := s.name } := by
  rw [faults, List.mem_flatMap]
  apply exists_congr
  intro p
  apply and_congr_right
  intro _
  cases hf : p.fault with
  | none => simp [Piece.diagnostics, hf]
  | some f => simp [Piece.diagnostics, hf, Prod.ext_iff]

/-- Each piece was cut off somewhere in the text, between two characters. -/
theorem place {p : Piece} (hp : p ∈ s.pieces) :
    ∃ u b r, s.text = u ++ b :: r ∧ IsEncoding u ∧ IsEncoding (b :: r) ∧ p.start = u.length ∧
      p.text = (b :: r).take (cut b r).size ∧ p.token = (cut b r).token ∧ p.fault = (cut b r).fault := by
  simpa using exists_place_of_mem_piecesFrom s.isEncoding_text hp

/-- Every byte stands in a piece. -/
theorem exists_piece {i : Nat} (h : i < s.size) : ∃ p ∈ s.pieces, p.start ≤ i ∧ i < p.start + p.text.length := by
  obtain ⟨p, hp, hi⟩ := exists_mem_piecesFrom 0 h
  exact ⟨p, hp, by simpa using hi⟩

/-- Two pieces that share a byte are the same. -/
theorem eq_of_mem_pieces {p q : Piece} (hp : p ∈ s.pieces) (hq : q ∈ s.pieces) {i : Nat}
    (hpi : p.start ≤ i ∧ i < p.start + p.text.length) (hqi : q.start ≤ i ∧ i < q.start + q.text.length) : p = q := by
  have hsorted := List.pairwise_iff_getElem.1 (piecesFrom_within 0 s.text).2
  obtain ⟨m, hm, rfl⟩ := List.mem_iff_getElem.1 hp
  obtain ⟨n, hn, rfl⟩ := List.mem_iff_getElem.1 hq
  rcases Nat.lt_trichotomy m n with hlt | rfl | hlt
  · have := hsorted m n hm hn hlt
    simp only [pieces] at hpi hqi
    omega
  · rfl
  · have := hsorted n m hn hm hlt
    simp only [pieces] at hpi hqi
    omega

/-- What stands in a piece without a token stands in no lexeme. -/
theorem not_has_of_token_eq_none {p : Piece} (hp : p ∈ s.pieces) (ht : p.token = none) {i : Nat}
    (hi : p.start ≤ i ∧ i < p.start + p.text.length) : ∀ x ∈ s.lexemes, ¬ x.location.span.Has i := by
  intro x hx hhas
  obtain ⟨q, hq, t, hqt, rfl⟩ := s.mem_lexemes_iff.1 hx
  simp only [Span.Has, location] at hhas
  obtain rfl := s.eq_of_mem_pieces hp hq hi (by omega)
  cases ht.symm.trans hqt

/-- The byte at an offset behind `u` is one of what stands there. -/
theorem byteAt_of_text {u v : Bytes} (htext : s.text = u ++ v) {j : Nat} (hj : j < v.length) :
    s.byteAt (u.length + j : Nat) = v[j] := by
  have hnat : ¬ ((u.length + j : Nat) : Int) < 0 := by omega
  rw [byteAt, if_neg hnat, Int.toNat_natCast, htext, List.getD_append_right _ _ _ _ (Nat.le_add_right _ _),
    Nat.add_sub_cancel_left, List.getD_eq_getElem _ _ hj]

/-- A character that does not start with a blank has no blank in it. -/
theorem isBlank_eq_false_of_mem_encode {c : Char} {b q : UInt8} {r k : Bytes}
    (hc : b :: r = String.utf8EncodeChar c ++ k) (hb : isBlank b = false) (hq : q ∈ String.utf8EncodeChar c) :
    isBlank q = false := by
  by_contra hblank
  rw [Bool.not_eq_false] at hblank
  rw [encode_eq_singleton (lt_of_isBlank hblank) hq] at hc
  rw [(List.cons.inj hc).1, hblank] at hb
  cases hb

/-- A piece that is no token is a blank, or a character that has no blank in it and is reported. -/
theorem blank_or_stray {p : Piece} (hp : p ∈ s.pieces) (ht : p.token = none) :
    (p.text.length = 1 ∧ isBlank (s.byteAt p.start) = true ∧ p.fault = none) ∨
      ∃ c, StandsAt s.text c p.start ∧ p.text.length = c.utf8Size ∧
        p.fault = some (.unexpectedCharacter c, c.utf8Size) ∧
        ∀ i : Nat, p.start ≤ i → i < p.start + c.utf8Size → isBlank (s.byteAt i) = false := by
  obtain ⟨u, b, r, htext, hu, hr, hstart, hptext, hptoken, hpfault⟩ := s.place hp
  rw [hstart, hptext, hpfault]
  rcases cut_of_token_eq_none (hptoken.symm.trans ht) with ⟨hb, hsize, hfault⟩ | ⟨hb, hcut⟩
  · left
    refine ⟨?_, ?_, hfault⟩
    · simp [hsize]
    · have hbyte := s.byteAt_of_text htext (j := 0) (Nat.succ_pos r.length)
      rw [Nat.add_zero] at hbyte
      rw [hbyte]
      exact hb
  · right
    obtain ⟨c, k, hc, hk⟩ := hr.exists_char (List.cons_ne_nil b r)
    rw [hcut, hc, cutStray_encode]
    refine ⟨c, ⟨u, k, ?_, rfl, hu, hk⟩, ?_, rfl, ?_⟩
    · rw [htext, hc, List.append_assoc]
    · rw [List.take_left' (String.length_utf8EncodeChar c), String.length_utf8EncodeChar]
    · intro i hlo hhi
      obtain ⟨j, rfl⟩ := Nat.exists_eq_add_of_le hlo
      have hj : j < (String.utf8EncodeChar c).length := by
        rw [String.length_utf8EncodeChar]
        omega
      rw [hc] at htext
      rw [s.byteAt_of_text htext (by rw [List.length_append]; omega), List.getElem_append_left hj]
      exact isBlank_eq_false_of_mem_encode hc hb (List.getElem_mem hj)

/-- A lexeme is spelled as the text of its span. -/
theorem slice?_of_mem_lexemes {x : Lexeme} (hx : x ∈ s.lexemes) : s.slice? x.location.span = some x.text := by
  obtain ⟨p, hp, t, -, rfl⟩ := s.mem_lexemes_iff.1 hx
  obtain ⟨u, b, r, htext, -, -, hstart, hptext, -⟩ := s.place hp
  have hwithin := (s.piece_within hp).le_stop
  have hlength : ((p.start : Int) + p.text.length - p.start).toNat = p.text.length := by omega
  simp only [slice?, location, hlength, Int.toNat_natCast]
  rw [if_pos (by omega), htext, hstart, List.drop_left, hptext]
  congr 1
  rw [List.length_take, ← List.take_take, List.take_length]

/-- Lexical problems start one behind the other. -/
theorem faults_sorted : s.faults.Pairwise fun d e => d.location.span.start < e.location.span.start := by
  rw [faults, List.pairwise_flatMap]
  constructor
  · intro p _
    unfold Piece.diagnostics
    split <;> simp
  · -- a fault starts where its piece does, and no piece is empty
    refine (piecesFrom_within 0 s.text).2.imp_of_mem ?_
    intro p q hp hq hpq d hd e he
    have hlen := List.length_pos_iff.2 (s.piece_within hp).nonempty
    have hfault : ∀ {p : Piece} {d : Diagnostic}, d ∈ p.diagnostics s → d.location.span.start = p.start := by
      intro p d hd
      unfold Piece.diagnostics at hd
      split at hd
      · cases hd
      · rw [List.mem_singleton.1 hd]
        rfl
    rw [hfault hd, hfault he]
    omega

/-- A lexeme starts and ends between two characters. -/
theorem lexeme_boundaries {x : Lexeme} (hx : x ∈ s.lexemes) :
    IsBoundary s.text x.location.span.start ∧ IsBoundary s.text x.location.span.stop := by
  obtain ⟨p, hp, t, -, rfl⟩ := s.mem_lexemes_iff.1 hx
  obtain ⟨u, b, r, htext, hu, hr, hstart, hptext, -⟩ := s.place hp
  constructor
  · exact ⟨u, b :: r, htext, congrArg _ hstart.symm, hu, hr⟩
  · have hlen : p.text.length = (cut b r).size := by rw [hptext, List.length_take, Nat.min_eq_left (cut_size_le hr)]
    have hstop := isBoundary_add htext hu hr (cut_size_le hr) (cut_isEncoding hr)
    rw [← hstart, ← hlen] at hstop
    exact hstop

/-- A lexical problem starts and ends between two characters. -/
theorem fault_boundaries {d : Diagnostic} (hd : d ∈ s.faults) :
    IsBoundary s.text d.location.span.start ∧ IsBoundary s.text d.location.span.stop := by
  obtain ⟨p, hp, q, n, hpfault, rfl⟩ := s.mem_faults_iff.1 hd
  obtain ⟨u, b, r, htext, hu, hr, hstart, -, -, hfault⟩ := s.place hp
  constructor
  · exact ⟨u, b :: r, htext, congrArg _ hstart.symm, hu, hr⟩
  · have hstop : IsBoundary s.text (u.length + n : Nat) := by
      rcases (cut_fault (hfault.symm.trans hpfault)).1 with rfl | ⟨rfl, k, hk⟩
      · exact isBoundary_add htext hu hr (cut_size_le hr) (cut_isEncoding hr)
      · have hopening : (b :: r).take 2 = utf8 "/*" := by rw [← hk]; rfl
        have hle : 2 ≤ (b :: r).length := by
          rw [← hk, List.length_append]
          exact Nat.le_add_right 2 _
        apply isBoundary_add htext hu hr hle
        rw [hopening]
        exact isEncoding_utf8 "/*"
    rw [← hstart] at hstop
    exact hstop

/-- **The lexemes of a source and its lexical problems cover it.** -/
theorem covered : s.Covered s.lexemes s.faults where
  nonempty x hx := ⟨(s.holds_of_mem_lexemes hx).2, (s.holds_of_mem_lexemes hx).1.nonempty⟩
  increasing := by
    refine s.lexemes_sorted.imp_of_mem ?_
    intro x y hx _ hxy
    exact ⟨Int.lt_of_lt_of_le (s.holds_of_mem_lexemes hx).1.nonempty hxy, hxy⟩
  spelled x hx := s.slice?_of_mem_lexemes hx
  outside := by
    intro i hi houtside
    obtain ⟨p, hp, hstart, hstop⟩ := s.exists_piece hi
    -- the piece with the byte in it has no token
    cases ht : p.token with
    | some t =>
      refine absurd ?_ (houtside _ (s.mem_lexemes_iff.2 ⟨p, hp, t, ht, rfl⟩))
      simp only [Span.Has, location]
      omega
    | none =>
      rcases s.blank_or_stray hp ht with ⟨hlen, hblank, -⟩ | ⟨c, hc, hlen, hfault, -⟩
      · left
        obtain rfl : i = p.start := by omega
        exact hblank
      · right
        refine ⟨c, p.start, hc, hstart, by omega, countP_eq_one s.faults_sorted ?_
          (s.mem_faults_iff.2 ⟨p, hp, _, _, hfault, rfl⟩) ?_⟩
        · intro d e hd he hlt
          simp only [Diagnostic.isStray, Bool.and_eq_true, decide_eq_true_eq] at hd he
          rw [hd.2, he.2] at hlt
          exact Int.lt_irrefl _ hlt
        · simp [Diagnostic.isStray, Diagnostic.code, Problem.code, location]
  strays := by
    intro d hd hcode
    obtain ⟨p, hp, q, n, hfault, rfl⟩ := s.mem_faults_iff.1 hd
    have ht : p.token = none := by
      obtain ⟨_, b, r, -, -, -, -, -, htoken, hcut⟩ := s.place hp
      rw [htoken]
      exact (cut_fault (hcut.symm.trans hfault)).2 hcode
    rcases s.blank_or_stray hp ht with ⟨-, -, hnone⟩ | ⟨c, hc, hlen, hstray, hblank⟩
    · cases hnone.symm.trans hfault
    · obtain ⟨-, rfl⟩ := Prod.mk.inj (Option.some.inj (hstray.symm.trans hfault))
      refine ⟨c, p.start, hc, rfl, ?_⟩
      intro i hlo hhi
      exact ⟨hblank i hlo hhi, s.not_has_of_token_eq_none hp ht ⟨hlo, by omega⟩⟩
  boundaries := by
    intro l hl
    rcases List.mem_append.1 hl with hl | hl
    · obtain ⟨x, hx, rfl⟩ := List.mem_map.1 hl
      exact s.lexeme_boundaries hx
    · obtain ⟨d, hd, rfl⟩ := List.mem_map.1 hl
      exact s.fault_boundaries hd
  sorted := s.faults_sorted

end Source

/-- **A scanner misses nothing.** Going through a source with its comments gives lexemes that cover it, and then the end
marker, for ever. -/
theorem scan_complete (s : Source) :
    ∃ xs final, s.scan = (xs ++ [s.endMarker], final) ∧ s.Covered xs final.diagnostics ∧
      s.endMarker.token = .eof ∧ s.endMarker.location.span = ⟨s.size, s.size⟩ ∧ IsBoundary s.text s.size ∧
      final.lexeme = s.endMarker ∧ ∀ n, Nat.repeat Scanner.next n final = final := by
  refine ⟨s.lexemes, s.ended, s.scan_eq, s.covered, rfl, rfl, ?_, ?_, ?_⟩
  · exact ⟨s.text, [], (List.append_nil _).symm, rfl, s.isEncoding_text, isEncoding_nil⟩
  · exact Scanner.lexeme_endedWith _ _
  · exact Scanner.repeat_next_endedWith _ _

end SmallJava
