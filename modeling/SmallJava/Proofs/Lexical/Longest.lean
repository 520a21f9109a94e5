import Mathlib.Computability.Language
import SmallJava.Proofs.Lexical.Coverage

/-!
# The longest match

What the lexemes of a text are, said without a scanner: words, numbers and string literals are regular languages, and
of a language the longest match counts. `Begins` lists the kinds of lexemes that a text can begin with, and `Scans` the
ways to go through a text. A scanner finds exactly these lexemes and reports exactly their problems (`scans_iff`).

* `Longest` — the longest beginning of a text that belongs to a language, which is unique;
* `longest_word`, `longest_number`, `mem_stringLiteral_iff`, `operatorAt?_eq_some_iff` — what the cuts find;
* `Begins.cut_eq`, `exists_begins` — one lexeme.
-/

namespace SmallJava

open scoped Computability

/-! ## Languages -/

namespace Lexicon

/-- The bytes of a class, one at a time. -/
def oneOf (p : UInt8 → Bool) : Language UInt8 := { w | ∃ b, p b = true ∧ w = [b] }

/-- One text only. -/
def just (text : String) : Language UInt8 := { w | w = utf8 text }

/-- Words, `[A-Za-z_][A-Za-z0-9_]*`. -/
def word : Language UInt8 := oneOf isLetter * (oneOf isWordByte)∗

/-- Digits, `[0-9]+`. -/
def digits : Language UInt8 := oneOf isDigit * (oneOf isDigit)∗

/-- Numbers, `[0-9]+(\.[0-9]+)?`. -/
def number : Language UInt8 := digits * (1 + just "." * digits)

/-- String literals, `"(\\[^\n]|[^"\\\n])*"`. -/
def stringLiteral : Language UInt8 :=
  just "\"" * (just "\\" * oneOf (· != byte '\n')
    + oneOf fun b => b != byte '"' && b != byte '\\' && b != byte '\n')∗ * just "\""

/-- Any number of bytes of a kind. -/
theorem mem_kstar_oneOf_iff {p : UInt8 → Bool} {w : Bytes} : w ∈ (oneOf p)∗ ↔ ∀ b ∈ w, p b = true := by
  rw [Language.mem_kstar]
  constructor
  · rintro ⟨ws, rfl, hws⟩ b hb
    obtain ⟨v, hv, hbv⟩ := List.mem_flatten.1 hb
    obtain ⟨c, hc, rfl⟩ := hws v hv
    rwa [List.mem_singleton.1 hbv]
  · intro hw
    refine ⟨w.map fun b => [b], ?_, ?_⟩
    · rw [← List.flatMap_def, List.flatMap_singleton']
    · intro v hv
      obtain ⟨b, hb, rfl⟩ := List.mem_map.1 hv
      exact ⟨b, hw b hb, rfl⟩

/-- A byte of one class and then some of another. -/
theorem mem_oneOf_mul_kstar_iff {p q : UInt8 → Bool} {w : Bytes} :
    w ∈ oneOf p * (oneOf q)∗ ↔ ∃ b r, w = b :: r ∧ p b = true ∧ ∀ c ∈ r, q c = true := by
  rw [Language.mem_mul]
  constructor
  · rintro ⟨v, ⟨b, hb, rfl⟩, r, hr, rfl⟩
    exact ⟨b, r, rfl, hb, mem_kstar_oneOf_iff.1 hr⟩
  · rintro ⟨b, r, rfl, hb, hr⟩
    exact ⟨[b], ⟨b, hb, rfl⟩, r, mem_kstar_oneOf_iff.2 hr, rfl⟩

/-- One digit or more. -/
theorem mem_digits_iff {w : Bytes} : w ∈ digits ↔ w ≠ [] ∧ ∀ b ∈ w, isDigit b = true := by
  rw [digits, mem_oneOf_mul_kstar_iff]
  constructor
  · rintro ⟨b, r, rfl, hb, hr⟩
    exact ⟨List.cons_ne_nil b r, List.forall_mem_cons.2 ⟨hb, hr⟩⟩
  · rintro ⟨hne, hw⟩
    obtain ⟨b, r, rfl⟩ := List.exists_cons_of_ne_nil hne
    exact ⟨b, r, rfl, (List.forall_mem_cons.1 hw).1, (List.forall_mem_cons.1 hw).2⟩

/-- Digits, with a fraction or without. -/
theorem mem_number_iff {w : Bytes} :
    w ∈ number ↔ w ∈ digits ∨ ∃ u ∈ digits, ∃ v ∈ digits, w = u ++ byte '.' :: v := by
  rw [number, Language.mem_mul]
  constructor
  · rintro ⟨u, hu, v, hv, rfl⟩
    rcases (Language.mem_add _ _ _).1 hv with hnil | hfraction
    · rw [(Language.mem_one v).1 hnil, List.append_nil]
      exact .inl hu
    · obtain ⟨p, rfl, v, hdigits, rfl⟩ := Language.mem_mul.1 hfraction
      exact .inr ⟨u, hu, v, hdigits, rfl⟩
  · rintro (hw | ⟨u, hu, v, hv, rfl⟩)
    · exact ⟨w, hw, [], (Language.mem_add _ _ _).2 (.inl rfl), List.append_nil w⟩
    · exact ⟨u, hu, byte '.' :: v, (Language.mem_add _ _ _).2 (.inr ⟨_, rfl, v, hv, rfl⟩), rfl⟩

/-- A string literal is a quote and what closes it. -/
theorem mem_stringLiteral_iff {w : Bytes} : w ∈ stringLiteral ↔ ∃ v, w = byte '"' :: v ∧ ClosesString v := by
  have hquote : utf8 "\"" = [byte '"'] := rfl
  have hslash : utf8 "\\" = [byte '\\'] := rfl
  simp only [stringLiteral, Language.mem_mul, Language.mem_kstar]
  constructor
  · rintro ⟨_, ⟨_, rfl, _, ⟨parts, rfl, hparts⟩, rfl⟩, _, rfl, rfl⟩
    refine ⟨parts.flatten ++ [byte '"'], ?_, ?_⟩
    · rw [hquote, List.append_assoc]
      rfl
    · induction parts with
      | nil => exact .close
      | cons v vs ih =>
        obtain ⟨hv, hvs⟩ := List.forall_mem_cons.1 hparts
        have hrest := ih hvs
        rcases (Language.mem_add _ _ _).1 hv with hescape | ⟨b, hb, rfl⟩
        · obtain ⟨_, rfl, _, ⟨c, hc, rfl⟩, rfl⟩ := Language.mem_mul.1 hescape
          exact .escape (bne_iff_ne.1 hc) hrest
        · simp only [Bool.and_eq_true, bne_iff_ne] at hb
          exact .plain hb.1.1 hb.2 hb.1.2 hrest
  · rintro ⟨v, rfl, hv⟩
    -- the parts of the literal, one for each byte or pair of bytes
    obtain ⟨parts, rfl, hparts⟩ : ∃ parts : List Bytes, v = parts.flatten ++ [byte '"'] ∧ ∀ y ∈ parts,
        y ∈ just "\\" * oneOf (· != byte '\n') + oneOf fun b => b != byte '"' && b != byte '\\' && b != byte '\n' := by
      induction hv with
      | close => exact ⟨[], rfl, by simp⟩
      | @escape c r hc _ ih =>
        obtain ⟨parts, rfl, hparts⟩ := ih
        refine ⟨[byte '\\', c] :: parts, rfl, List.forall_mem_cons.2 ⟨?_, hparts⟩⟩
        exact (Language.mem_add _ _ _).2 (.inl ⟨_, rfl, [c], ⟨c, bne_iff_ne.2 hc, rfl⟩, rfl⟩)
      | @plain b r hq hn hb _ ih =>
        obtain ⟨parts, rfl, hparts⟩ := ih
        refine ⟨[b] :: parts, rfl, List.forall_mem_cons.2 ⟨?_, hparts⟩⟩
        exact (Language.mem_add _ _ _).2 (.inr ⟨b, by simp [hq, hn, hb], rfl⟩)
    exact ⟨_, ⟨_, rfl, _, ⟨parts, rfl, hparts⟩, rfl⟩, _, rfl, by rw [hquote, List.append_assoc]; rfl⟩

/-! ## Longest matches -/

/-- The longest beginning of `text` that belongs to the language is `w`. -/
structure Longest (l : Language UInt8) (text w : Bytes) : Prop where
  mem : w ∈ l
  isStart : w <+: text
  longest : ∀ v ∈ l, v <+: text → v.length ≤ w.length

/-- There is one longest beginning at most. -/
theorem Longest.unique {l : Language UInt8} {text w v : Bytes} (hw : Longest l text w) (hv : Longest l text v) :
    w = v := by
  have hle := hv.longest w hw.mem hw.isStart
  have hge := hw.longest v hv.mem hv.isStart
  exact (List.prefix_of_prefix_length_le hw.isStart hv.isStart hle).eq_of_length (Nat.le_antisymm hle hge)

/-- A run is at least as long as any beginning of the text of its kind. -/
theorem length_le_run {p : UInt8 → Bool} {text v : Bytes} (hv : ∀ b ∈ v, p b = true) (h : v <+: text) :
    v.length ≤ run p text := by
  obtain ⟨k, rfl⟩ := h
  rw [run, List.takeWhile_append_of_pos hv, List.length_append]
  exact Nat.le_add_right _ _

/-- A run is the longest beginning of bytes of a kind. -/
theorem longest_run (p : UInt8 → Bool) (text : Bytes) : Longest (oneOf p)∗ text (text.take (run p text)) where
  mem := mem_kstar_oneOf_iff.2 of_mem_take_run
  isStart := List.take_prefix _ _
  longest v hv h := by
    rw [List.length_take, Nat.min_eq_left (run_le p text)]
    exact length_le_run (mem_kstar_oneOf_iff.1 hv) h

/-- The longest word goes as far as bytes of words do. -/
theorem longest_word {b : UInt8} {r : Bytes} (hb : isLetter b = true) :
    Longest word (b :: r) ((b :: r).take (run isWordByte (b :: r))) where
  mem := by
    have hword : isWordByte b = true := isWordByte_iff.2 (.inl hb)
    have hrun : run isWordByte (b :: r) = run isWordByte r + 1 := by simp [run, hword]
    rw [hrun, List.take_succ_cons, word, mem_oneOf_mul_kstar_iff]
    exact ⟨b, _, rfl, hb, of_mem_take_run⟩
  isStart := List.take_prefix _ _
  longest v hv h := by
    obtain ⟨c, k, rfl, hc, hk⟩ := mem_oneOf_mul_kstar_iff.1 hv
    rw [List.length_take, Nat.min_eq_left (run_le _ _)]
    exact length_le_run (List.forall_mem_cons.2 ⟨isWordByte_iff.2 (.inl hc), hk⟩) h

/-- The size of the digits at the start of a text and of their fraction. -/
def numberSize (text : Bytes) : Nat := run isDigit text + fractionSize (text.drop (run isDigit text))

theorem numberSize_le (text : Bytes) : numberSize text ≤ text.length := by
  have hwhole := run_le isDigit text
  have hfraction := fractionSize_le (text.drop (run isDigit text))
  rw [List.length_drop] at hfraction
  unfold numberSize
  omega

/-- No number at the start of a text is longer than its digits and their fraction. -/
theorem length_le_numberSize {text v : Bytes} (hv : v ∈ number) (h : v <+: text) : v.length ≤ numberSize text := by
  rcases mem_number_iff.1 hv with hv | ⟨u, hu, w, hw, rfl⟩
  · exact Nat.le_trans (length_le_run (mem_digits_iff.1 hv).2 h) (Nat.le_add_right _ _)
  · obtain ⟨k, rfl⟩ := h
    rw [List.append_assoc, List.cons_append]
    have hwhole : run isDigit (u ++ byte '.' :: (w ++ k)) = u.length := by
      apply run_append (mem_digits_iff.1 hu).2
      intro c hc
      obtain rfl := Option.some.inj hc
      decide
    have hdigits : w.length ≤ run isDigit (w ++ k) := length_le_run (mem_digits_iff.1 hw).2 (List.prefix_append w k)
    have hpos : 0 < w.length := List.length_pos_iff.2 (mem_digits_iff.1 hw).1
    have hfraction : fractionSize (byte '.' :: (w ++ k)) = 1 + run isDigit (w ++ k) :=
      if_pos ⟨rfl, Nat.lt_of_lt_of_le hpos hdigits⟩
    rw [numberSize, hwhole, List.drop_left, hfraction, List.length_append, List.length_cons]
    omega

/-- The longest number has its fraction, if there is one. -/
theorem longest_number {b : UInt8} {r : Bytes} (hb : isDigit b = true) :
    Longest number (b :: r) ((b :: r).take (numberSize (b :: r))) where
  mem := by
    have hdigits : (b :: r).take (run isDigit (b :: r)) ∈ digits :=
      mem_digits_iff.2 ⟨take_run_ne_nil (run_pos hb), of_mem_take_run⟩
    rw [numberSize, List.take_add, mem_number_iff]
    by_cases hfraction : 0 < fractionSize ((b :: r).drop (run isDigit (b :: r)))
    · right
      obtain ⟨v, hv, hne, hmem⟩ := take_fractionSize hfraction
      exact ⟨_, hdigits, v, mem_digits_iff.2 ⟨hne, hmem⟩, by rw [hv]⟩
    · left
      rwa [Nat.eq_zero_of_not_pos hfraction, List.take_zero, List.append_nil]
  isStart := List.take_prefix _ _
  longest v hv h := by
    rw [List.length_take, Nat.min_eq_left (numberSize_le _)]
    exact length_le_numberSize hv h

/-- A point in the longest number is that of a fraction. -/
theorem point_mem_number_iff (text : Bytes) :
    byte '.' ∈ text.take (numberSize text) ↔ 0 < fractionSize (text.drop (run isDigit text)) := by
  rw [numberSize, List.take_add, List.mem_append]
  constructor
  · rintro (hdigit | hpoint)
    · exact absurd (of_mem_take_run (p := isDigit) _ hdigit) (by decide)
    · apply Nat.pos_of_ne_zero
      intro hzero
      simp [hzero] at hpoint
  · intro hfraction
    obtain ⟨v, hv, -⟩ := take_fractionSize hfraction
    right
    rw [hv]
    exact List.mem_cons_self

/-! ## Operators -/

/-- The table of operators has each of them, with its spelling. -/
theorem mem_operators_iff {e : Bytes × Token} :
    e ∈ Token.operators ↔ e.2.isOperator = true ∧ e.1 = utf8 e.2.spelling := by
  constructor
  · intro h
    exact ⟨(Token.mem_operators h).1, (Token.mem_operators h).2.1⟩
  · rintro ⟨hop, hspelling⟩
    have hmem : ∀ t ∈ Token.all, t.isOperator = true → (utf8 t.spelling, t) ∈ Token.operators := by decide
    rw [show e = (utf8 e.2.spelling, e.2) from Prod.ext hspelling rfl]
    exact hmem e.2 e.2.mem_all hop

/-- No two operators are spelled alike. -/
theorem operator_injective : ∀ e ∈ Token.operators, ∀ f ∈ Token.operators, e.1 = f.1 → e = f := by decide

/-- Longer operators come first in the table. -/
theorem operators_sorted : Token.operators.Pairwise fun e f => f.1.length ≤ e.1.length := by decide

/-- The operator that is found is the longest one. -/
theorem operatorAt?_spec {text : Bytes} {e : Bytes × Token} (h : Token.operatorAt? text = some e) :
    e ∈ Token.operators ∧ e.1 <+: text ∧ ∀ f ∈ Token.operators, f.1 <+: text → f.1.length ≤ e.1.length := by
  obtain ⟨hfound, as, bs, hsplit, hbefore⟩ := List.find?_eq_some_iff_append.1 h
  refine ⟨Token.mem_of_operatorAt? h, List.isPrefixOf_iff_prefix.1 hfound, ?_⟩
  intro f hf hstart
  have hsorted := operators_sorted
  rw [hsplit] at hf hsorted
  rcases List.mem_append.1 hf with hf | hf
  · have hnot := hbefore f hf
    rw [Bool.not_eq_true', List.isPrefixOf_iff_prefix.2 hstart] at hnot
    cases hnot
  rcases List.mem_cons.1 hf with rfl | hf
  · exact Nat.le_refl _
  · exact (List.pairwise_cons.1 (List.pairwise_append.1 hsorted).2.1).1 f hf

/-- The first operator of the table that fits is the longest. -/
theorem operatorAt?_eq_some_iff {text : Bytes} {e : Bytes × Token} :
    Token.operatorAt? text = some e ↔
      e ∈ Token.operators ∧ e.1 <+: text ∧ ∀ f ∈ Token.operators, f.1 <+: text → f.1.length ≤ e.1.length := by
  refine ⟨operatorAt?_spec, ?_⟩
  rintro ⟨hmem, hstart, hlongest⟩
  have hsome : (Token.operatorAt? text).isSome = true :=
    List.find?_isSome.2 ⟨e, hmem, List.isPrefixOf_iff_prefix.2 hstart⟩
  obtain ⟨f, hf⟩ := Option.isSome_iff_exists.1 hsome
  obtain ⟨hfmem, hfstart, hflongest⟩ := operatorAt?_spec hf
  -- both are longest, so they are spelled the same
  have hle := hflongest e hmem hstart
  have hspelling : e.1 = f.1 :=
    (List.prefix_of_prefix_length_le hstart hfstart hle).eq_of_length
      (Nat.le_antisymm hle (hlongest f hfmem hfstart))
  rw [hf, operator_injective e hmem f hfmem hspelling]

/-! ## Lexemes -/

/-- The rest of the line at the start of `text` is `w`. -/
def IsLine (text w : Bytes) : Prop := byte '\n' ∉ w ∧ ∃ rest, text = w ++ rest ∧ ∀ b ∈ rest.head?, b = byte '\n'

/-- The text begins with a block comment: its opening, `body` and an end. -/
def IsComment (text body : Bytes) : Prop := utf8 "/*" ++ body ++ utf8 "*/" <+: text

/-- **What a text can begin with**: the lexeme `w`, its token, and a problem with its first so many bytes. -/
inductive Begins (text : Bytes) : Bytes → Token → Option (Problem × Nat) → Prop where
  | reserved {w : Bytes} {t : Token} : Longest word text w → Token.isReserved w = true → utf8 t.spelling = w →
      Begins text w t none
  | name {w : Bytes} : Longest word text w → Token.isReserved w = false → Begins text w .ident none
  | integer {w : Bytes} : Longest number text w → byte '.' ∉ w →
      (∀ b ∈ (text.drop w.length).head?, isWordByte b = false) → Begins text w .integer none
  | float {w : Bytes} : Longest number text w → byte '.' ∈ w →
      (∀ b ∈ (text.drop w.length).head?, isWordByte b = false) → Begins text w .float none
  /-- A number that runs into a word takes all of it. -/
  | malformed {w v : Bytes} : Longest number text w → Longest (oneOf isWordByte)∗ (text.drop w.length) v → v ≠ [] →
      Begins text (w ++ v) .invalid (some (.malformedNumber (w ++ v), (w ++ v).length))
  | string {w : Bytes} : w ∈ stringLiteral → w <+: text → Begins text w .string none
  | openString {line : Bytes} : utf8 "\"" <+: text → (∀ w ∈ stringLiteral, ¬ w <+: text) → IsLine text line →
      Begins text (withoutReturn line) .invalid (some (.unterminatedString, (withoutReturn line).length))
  | lineComment {w : Bytes} : utf8 "//" <+: text → IsLine text w → Begins text w .lineComment none
  | blockComment {body : Bytes} : IsComment text body → (∀ b, IsComment text b → body.length ≤ b.length) →
      Begins text (utf8 "/*" ++ body ++ utf8 "*/") .blockComment none
  | openComment : utf8 "/*" <+: text → (∀ b, ¬ IsComment text b) →
      Begins text text .blockComment (some (.unterminatedComment, 2))
  | operator {t : Token} : ¬ utf8 "//" <+: text → ¬ utf8 "/*" <+: text → t.isOperator = true →
      utf8 t.spelling <+: text →
      (∀ u : Token, u.isOperator = true → utf8 u.spelling <+: text → (utf8 u.spelling).length ≤ (utf8 t.spelling).length) →
      Begins text (utf8 t.spelling) t none

/-- The problem of a lexeme that starts at an offset, as a diagnostic of the source. -/
def report (s : Source) (offset : Nat) : Option (Problem × Nat) → Diagnostics
  | none => []
  | some (problem, size) =>
    [{ problem := problem, location := s.location ⟨offset, offset + size⟩, source := s.name }]

/-- **Going through a text** that starts at an offset of the source: the lexemes and their problems. Blanks are passed
over, and so are characters that begin nothing, which are reported. -/
inductive Scans (s : Source) : Nat → Bytes → List Lexeme → Diagnostics → Prop where
  | done {offset : Nat} : Scans s offset [] [] []
  | blank {offset : Nat} {b : UInt8} {rest : Bytes} {xs : List Lexeme} {ds : Diagnostics} : isBlank b = true →
      Scans s (offset + 1) rest xs ds → Scans s offset (b :: rest) xs ds
  | stray {offset : Nat} {b : UInt8} {r rest : Bytes} {c : Char} {xs : List Lexeme} {ds : Diagnostics} :
      isBlank b = false → (∀ w t problem, ¬ Begins (b :: r) w t problem) →
      b :: r = String.utf8EncodeChar c ++ rest → Scans s (offset + c.utf8Size) rest xs ds →
      Scans s offset (b :: r) xs (report s offset (some (.unexpectedCharacter c, c.utf8Size)) ++ ds)
  | lexeme {offset : Nat} {b : UInt8} {r w : Bytes} {t : Token} {problem : Option (Problem × Nat)}
      {xs : List Lexeme} {ds : Diagnostics} :
      Begins (b :: r) w t problem → Scans s (offset + w.length) ((b :: r).drop w.length) xs ds →
      Scans s offset (b :: r)
        ({ token := t, text := w, location := s.location ⟨offset, offset + w.length⟩ } :: xs)
        (report s offset problem ++ ds)

/-! ## One lexeme -/

variable {b : UInt8} {r w : Bytes}

/-- A reserved word is the token that is spelled so. -/
theorem ofWord_spelling : ∀ t ∈ Token.all, Token.isReserved (utf8 t.spelling) = true →
    Token.ofWord (utf8 t.spelling) = t := by
  decide

theorem Longest.begins_ofWord (h : Longest word (b :: r) w) : Begins (b :: r) w (Token.ofWord w) none := by
  rcases Token.ofWord_cases w with ⟨hident, hnone⟩ | hmem
  · rw [hident]
    exact .name h (by simp [Token.isReserved, hnone])
  · refine .reserved h ?_ (Token.mem_reserved hmem).1.symm
    rw [Token.isReserved, List.lookup_isSome_iff]
    exact ⟨_, hmem, by simp⟩

/-- A word is cut off as far as it goes. -/
theorem cut_of_longest_word (h : Longest word (b :: r) w) :
    cut b r = { size := w.length, token := some (Token.ofWord w) } := by
  obtain ⟨c, k, rfl, hc, -⟩ := mem_oneOf_mul_kstar_iff.1 h.mem
  obtain ⟨rfl, -⟩ := List.cons_prefix_cons.1 h.isStart
  have htake := h.unique (longest_word hc)
  have hlength : (c :: k).length = run isWordByte (c :: r) := by
    rw [htake, List.length_take, Nat.min_eq_left (run_le _ _)]
  rw [cut_of_isLetter hc, cutWord, ← htake, hlength]

/-- A number starts with a digit. -/
theorem isDigit_of_mem_number (h : w ∈ number) (hstart : w <+: b :: r) : isDigit b = true := by
  have hdigits : ∀ u ∈ digits, u <+: b :: r → isDigit b = true := by
    intro u hu hstart
    obtain ⟨hne, hmem⟩ := mem_digits_iff.1 hu
    obtain ⟨c, k, rfl⟩ := List.exists_cons_of_ne_nil hne
    obtain ⟨rfl, -⟩ := List.cons_prefix_cons.1 hstart
    exact hmem c List.mem_cons_self
  rcases mem_number_iff.1 h with hw | ⟨u, hu, v, -, rfl⟩
  · exact hdigits w hw hstart
  · exact hdigits u hu ((List.prefix_append u _).trans hstart)

/-- A number is cut off as far as it goes, and a word that it runs into with it. -/
theorem cut_of_longest_number {v : Bytes} (h : Longest number (b :: r) w)
    (hv : Longest (oneOf isWordByte)∗ ((b :: r).drop w.length) v) :
    cut b r =
      if v = [] then { size := w.length, token := some (if byte '.' ∈ w then .float else .integer) }
      else { size := (w ++ v).length, token := some .invalid,
             fault := some (.malformedNumber (w ++ v), (w ++ v).length) } := by
  have hdigit := isDigit_of_mem_number h.mem h.isStart
  have hw := h.unique (longest_number hdigit)
  have hwlen : w.length = numberSize (b :: r) := by
    rw [hw, List.length_take, Nat.min_eq_left (numberSize_le _)]
  rw [hwlen] at hv
  have hexcess := hv.unique (longest_run isWordByte _)
  have hvlen : v.length = run isWordByte ((b :: r).drop (numberSize (b :: r))) := by
    rw [hexcess, List.length_take, Nat.min_eq_left (run_le _ _)]
  have htext : w ++ v = (b :: r).take (numberSize (b :: r) + v.length) := by
    rw [List.take_add, ← hw, hvlen, ← hexcess]
  have hcut : cutNumber (b :: r)
      = if 0 < v.length then
          { size := numberSize (b :: r) + v.length, token := some .invalid,
            fault := some (.malformedNumber (w ++ v), numberSize (b :: r) + v.length) }
        else { size := w.length, token := some (if byte '.' ∈ w then .float else .integer) } := by
    rw [htext, hvlen, hwlen, hw, if_congr (point_mem_number_iff (b :: r)) rfl rfl]
    rfl
  rw [cut_of_isDigit hdigit, hcut, List.length_append, hwlen]
  cases v with
  | nil => simp
  | cons c k => simp

/-- A string literal at the start of a text is cut off. -/
theorem cut_of_mem_stringLiteral (h : w ∈ stringLiteral) (hstart : w <+: b :: r) :
    cut b r = { size := w.length, token := some .string } := by
  obtain ⟨v, rfl, hv⟩ := mem_stringLiteral_iff.1 h
  obtain ⟨rfl, k, rfl⟩ := List.cons_prefix_cons.1 hstart
  have hend := hv.stringEnd_append k
  rw [cut_quote, cutString]
  simp [hend, Nat.add_comm]

theorem isLine_iff {text line : Bytes} : IsLine text line ↔ line = firstLine text := by
  constructor
  · rintro ⟨hline, rest, rfl, hrest⟩
    have hmem : ∀ c ∈ line, (c != byte '\n') = true := by
      intro c hc
      rw [bne_iff_ne]
      rintro rfl
      exact hline hc
    have hhead : ∀ c ∈ rest.head?, (c != byte '\n') = false := by
      intro c hc
      simp [hrest c hc]
    rw [firstLine, ← take_run, run_append hmem hhead, List.take_left]
  · rintro rfl
    refine ⟨?_, text.dropWhile (· != byte '\n'), List.takeWhile_append_dropWhile.symm, ?_⟩
    · intro hmem
      rw [firstLine, ← take_run] at hmem
      simpa using of_mem_take_run _ hmem
    · intro c hc
      rw [← drop_run] at hc
      simpa using head_drop_run _ text c hc

/-- A string that is not closed is cut off with its line, and reported. -/
theorem cut_of_open_string {line : Bytes} (hquote : utf8 "\"" <+: b :: r)
    (hopen : ∀ w ∈ stringLiteral, ¬ w <+: b :: r) (hline : IsLine (b :: r) line) :
    cut b r = { size := (withoutReturn line).length, token := some .invalid,
                fault := some (.unterminatedString, (withoutReturn line).length) } := by
  obtain ⟨rfl, -⟩ := List.cons_prefix_cons.1 hquote
  rw [isLine_iff.1 hline]
  obtain ⟨n, closed, hend⟩ : ∃ n closed, stringEnd r = (n, closed) := ⟨_, _, rfl⟩
  cases closed with
  | true =>
    have hliteral := mem_stringLiteral_iff.2 ⟨_, rfl, closesString_of_stringEnd hend⟩
    exact absurd (List.cons_prefix_cons.2 ⟨rfl, List.take_prefix n r⟩) (hopen _ hliteral)
  | false => exact cutString_open hend

/-- A block comment may end where `*/` stands. -/
theorem isComment_iff {body : Bytes} :
    IsComment (byte '/' :: byte '*' :: r) body ↔ body <+: r ∧ EndsComment (r.drop body.length) := by
  have hopening : utf8 "/*" = [byte '/', byte '*'] := rfl
  rw [IsComment, hopening, List.append_assoc, List.cons_append, List.cons_prefix_cons, List.cons_append,
    List.cons_prefix_cons, List.nil_append]
  simp only [true_and, EndsComment]
  constructor
  · rintro ⟨rest, rfl⟩
    refine ⟨⟨utf8 "*/" ++ rest, (List.append_assoc ..).symm⟩, rest, ?_⟩
    rw [List.append_assoc, List.drop_left]
  · rintro ⟨⟨k, rfl⟩, hend⟩
    rw [List.drop_left] at hend
    exact (List.prefix_append_right_inj body).2 hend

/-- A comment with a text of `j` bytes. -/
theorem isComment_take {j : Nat} (h : EndsComment (r.drop j)) :
    IsComment (byte '/' :: byte '*' :: r) (r.take j) ∧ (r.take j).length = j := by
  have hlength : (r.take j).length = j := List.length_take_of_le (Nat.le_of_lt (lt_length_of_endsComment h))
  refine ⟨isComment_iff.2 ⟨List.take_prefix j r, ?_⟩, hlength⟩
  rwa [hlength]

theorem opensLineComment_iff : utf8 "//" <+: b :: r ↔ b = byte '/' ∧ r.head? = some (byte '/') := pair_isPrefix_iff

theorem opensBlockComment_iff : utf8 "/*" <+: b :: r ↔ b = byte '/' ∧ r.head? = some (byte '*') := pair_isPrefix_iff

/-- A comment is cut off where it is closed first. -/
theorem cut_of_comment {body : Bytes} (h : IsComment (b :: r) body)
    (hfirst : ∀ c, IsComment (b :: r) c → body.length ≤ c.length) :
    cut b r = { size := (utf8 "/*" ++ body ++ utf8 "*/").length, token := some .blockComment } := by
  have hstart : utf8 "/*" <+: b :: r := (List.prefix_append _ _).trans ((List.prefix_append _ _).trans h)
  obtain ⟨rfl, hstar⟩ := opensBlockComment_iff.1 hstart
  obtain ⟨k, rfl⟩ := List.head?_eq_some_iff.1 hstar
  have hend : commentEnd? k = some (body.length + 2) := by
    rw [commentEnd?_eq_some_iff]
    refine ⟨body.length, rfl, (isComment_iff.1 h).2, ?_⟩
    intro j hj hend
    have hle := hfirst _ (isComment_take hend).1
    rw [(isComment_take hend).2] at hle
    omega
  have hsize : (utf8 "/*" ++ body ++ utf8 "*/").length = 2 + (body.length + 2) := by
    rw [List.length_append, List.length_append]
    show 2 + body.length + 2 = 2 + (body.length + 2)
    omega
  rw [cut_blockComment, cutBlockComment, hsize]
  simp only [List.drop_succ_cons, List.drop_zero, hend]

/-- A comment that is not closed is cut off with the whole text, and reported. -/
theorem cut_of_open_comment (h : utf8 "/*" <+: b :: r) (hopen : ∀ c, ¬ IsComment (b :: r) c) :
    cut b r = { size := (b :: r).length, token := some .blockComment, fault := some (.unterminatedComment, 2) } := by
  obtain ⟨rfl, hstar⟩ := opensBlockComment_iff.1 h
  obtain ⟨k, rfl⟩ := List.head?_eq_some_iff.1 hstar
  have hend : commentEnd? k = none := by
    rw [commentEnd?_eq_none_iff]
    intro j hj
    exact hopen _ (isComment_take hj).1
  rw [cut_blockComment, cutBlockComment]
  simp only [List.drop_succ_cons, List.drop_zero, hend]

theorem cut_of_line_comment (h : utf8 "//" <+: b :: r) (hline : IsLine (b :: r) w) :
    cut b r = { size := w.length, token := some .lineComment } := by
  obtain ⟨rfl, hslash⟩ := opensLineComment_iff.1 h
  obtain ⟨k, rfl⟩ := List.head?_eq_some_iff.1 hslash
  rw [isLine_iff.1 hline]
  rfl

/-- The longest operator is cut off. -/
theorem cut_of_operator {t : Token} (hline : ¬ utf8 "//" <+: b :: r) (hblock : ¬ utf8 "/*" <+: b :: r)
    (ht : t.isOperator = true) (hstart : utf8 t.spelling <+: b :: r)
    (hlongest : ∀ u : Token, u.isOperator = true → utf8 u.spelling <+: b :: r →
      (utf8 u.spelling).length ≤ (utf8 t.spelling).length) :
    cut b r = { size := (utf8 t.spelling).length, token := some t } := by
  have hop : Token.operatorAt? (b :: r) = some (utf8 t.spelling, t) := by
    rw [operatorAt?_eq_some_iff]
    refine ⟨mem_operators_iff.2 ⟨ht, rfl⟩, hstart, ?_⟩
    intro f hf hfstart
    obtain ⟨hfop, hfspelling⟩ := mem_operators_iff.1 hf
    rw [hfspelling] at hfstart ⊢
    exact hlongest f.2 hfop hfstart
  -- no other kind of piece starts with the byte of an operator
  have hfirst := Token.first_of_operator t t.mem_all ht
  cases htext : utf8 t.spelling with
  | nil => simp [htext] at hfirst
  | cons c k =>
    rw [htext] at hstart hfirst
    obtain ⟨rfl, -⟩ := List.cons_prefix_cons.1 hstart
    simp only [List.head?_cons, Option.any_some, Bool.and_eq_true, Bool.not_eq_true', bne_iff_ne] at hfirst
    obtain ⟨⟨⟨hblank, hletter⟩, hdigit⟩, hquote⟩ := hfirst
    rw [opensLineComment_iff] at hline
    rw [opensBlockComment_iff] at hblock
    rw [htext] at hop
    simp [cut, hblank, hletter, hdigit, hquote, hline, hblock, hop]

/-- What a text begins with is a beginning of it. -/
theorem Begins.isPrefix {text : Bytes} {t : Token} {problem : Option (Problem × Nat)} (h : Begins text w t problem) :
    w <+: text := by
  cases h with
  | reserved h => exact h.isStart
  | name h => exact h.isStart
  | integer h => exact h.isStart
  | float h => exact h.isStart
  | malformed h hv =>
    rw [← List.prefix_iff_eq_append.1 h.isStart]
    exact (List.prefix_append_right_inj _).2 hv.isStart
  | string _ h => exact h
  | openString _ _ hline =>
    rw [isLine_iff.1 hline]
    exact (withoutReturn_isPrefix _).trans (List.takeWhile_prefix _)
  | lineComment _ hline =>
    rw [isLine_iff.1 hline]
    exact List.takeWhile_prefix _
  | blockComment h => exact h
  | openComment => exact List.prefix_rfl
  | operator _ _ _ h => exact h

/-- Where no byte of a word follows, no word does. -/
theorem longest_kstar_nil {p : UInt8 → Bool} {text : Bytes} (h : ∀ b ∈ text.head?, p b = false) :
    Longest (oneOf p)∗ text [] := by
  have hrun : run p text = 0 := run_append (w := []) (by simp) h
  have hlongest := longest_run p text
  rwa [hrun, List.take_zero] at hlongest

/-- **A lexeme that a text begins with is cut off.** -/
theorem Begins.cut_eq {t : Token} {problem : Option (Problem × Nat)} (h : Begins (b :: r) w t problem) :
    cut b r = { size := w.length, token := some t, fault := problem } := by
  cases h with
  | reserved h hreserved ht =>
    subst ht
    rw [cut_of_longest_word h, ofWord_spelling t t.mem_all hreserved]
  | name h hreserved =>
    have hident : Token.ofWord w = .ident := by
      rw [Token.ofWord, Option.not_isSome_iff_eq_none.1 (Bool.eq_false_iff.1 hreserved)]
      rfl
    rw [cut_of_longest_word h, hident]
  | integer h hpoint hnext => rw [cut_of_longest_number h (longest_kstar_nil hnext), if_pos rfl, if_neg hpoint]
  | float h hpoint hnext => rw [cut_of_longest_number h (longest_kstar_nil hnext), if_pos rfl, if_pos hpoint]
  | malformed h hv hne => rw [cut_of_longest_number h hv, if_neg hne]
  | string h hstart => exact cut_of_mem_stringLiteral h hstart
  | openString hquote hopen hline => exact cut_of_open_string hquote hopen hline
  | lineComment h hline => exact cut_of_line_comment h hline
  | blockComment h hfirst => exact cut_of_comment h hfirst
  | openComment h hopen => exact cut_of_open_comment h hopen
  | operator hline hblock ht hstart hlongest => exact cut_of_operator hline hblock ht hstart hlongest

theorem exists_begins_number (hb : isDigit b = true) : ∃ w t problem, Begins (b :: r) w t problem := by
  have hw := longest_number (r := r) hb
  generalize (b :: r).take (numberSize (b :: r)) = w at hw
  by_cases hnext : ∀ c ∈ ((b :: r).drop w.length).head?, isWordByte c = false
  · by_cases hpoint : byte '.' ∈ w
    · exact ⟨_, _, _, .float hw hpoint hnext⟩
    · exact ⟨_, _, _, .integer hw hpoint hnext⟩
  · have hpos : 0 < run isWordByte ((b :: r).drop w.length) := by
      apply Nat.pos_of_ne_zero
      intro hzero
      apply hnext
      simpa [hzero] using head_drop_run isWordByte ((b :: r).drop w.length)
    exact ⟨_, _, _, .malformed hw (longest_run isWordByte _) (take_run_ne_nil hpos)⟩

theorem exists_begins_string (hb : b = byte '"') : ∃ w t problem, Begins (b :: r) w t problem := by
  by_cases hclosed : ∃ w ∈ stringLiteral, w <+: b :: r
  · obtain ⟨w, hw, hstart⟩ := hclosed
    exact ⟨_, _, _, .string hw hstart⟩
  · have hquote : utf8 "\"" <+: b :: r := by
      rw [hb]
      exact List.prefix_append (utf8 "\"") r
    refine ⟨_, _, _, .openString hquote ?_ (isLine_iff.2 rfl)⟩
    intro w hw hstart
    exact hclosed ⟨w, hw, hstart⟩

theorem exists_begins_blockComment : ∃ w t problem, Begins (byte '/' :: byte '*' :: r) w t problem := by
  cases hend : commentEnd? r with
  | none =>
    refine ⟨_, _, _, .openComment (opensBlockComment_iff.2 ⟨rfl, rfl⟩) ?_⟩
    intro c hc
    exact commentEnd?_eq_none_iff.1 hend _ (isComment_iff.1 hc).2
  | some n =>
    obtain ⟨k, -, hk, hfirst⟩ := commentEnd?_eq_some_iff.1 hend
    obtain ⟨hcomment, hlength⟩ := isComment_take hk
    refine ⟨_, _, _, .blockComment hcomment ?_⟩
    intro c hc
    rw [hlength]
    apply Nat.le_of_not_lt
    intro hlt
    exact hfirst c.length hlt (isComment_iff.1 hc).2

/-- **What is cut off with a token is a lexeme.** -/
theorem exists_begins {t : Token} (h : (cut b r).token = some t) : ∃ w t problem, Begins (b :: r) w t problem := by
  have hkind := cutKind b r
  generalize cut b r = c at h hkind
  cases hkind with
  | blank => cases h
  | word hb => exact ⟨_, _, _, (longest_word hb).begins_ofWord⟩
  | number hb => exact exists_begins_number hb
  | string hb => exact exists_begins_string hb
  | lineComment hb hr => exact ⟨_, _, _, .lineComment (opensLineComment_iff.2 ⟨hb, hr⟩) (isLine_iff.2 rfl)⟩
  | blockComment hb hr =>
    obtain ⟨k, rfl⟩ := List.head?_eq_some_iff.1 hr
    rw [hb]
    exact exists_begins_blockComment
  | @operator spelling t hline hblock hop =>
    obtain ⟨hmem, hstart, hlongest⟩ := operatorAt?_spec hop
    obtain ⟨ht, hspelling⟩ := mem_operators_iff.1 hmem
    change spelling = utf8 t.spelling at hspelling
    subst hspelling
    rw [← opensLineComment_iff] at hline
    rw [← opensBlockComment_iff] at hblock
    refine ⟨_, _, _, .operator hline hblock ht hstart ?_⟩
    intro u hu hustart
    exact hlongest (utf8 u.spelling, u) (mem_operators_iff.2 ⟨hu, rfl⟩) hustart
  | stray => cases h

/-! ## The whole text -/

variable {s : Source} {offset : Nat} {text : Bytes} {xs : List Lexeme} {ds : Diagnostics}

/-- The lexemes of a text that starts at an offset of the source, by its pieces. -/
def lexemesFrom (s : Source) (offset : Nat) (text : Bytes) : List Lexeme :=
  (piecesFrom offset 0 text).filterMap (Piece.lexeme? s)

/-- The problems of a text that starts at an offset of the source, by its pieces. -/
def faultsFrom (s : Source) (offset : Nat) (text : Bytes) : Diagnostics := s.faultsOf (piecesFrom offset 0 text)

theorem faultsFrom_cons :
    faultsFrom s offset (b :: r)
      = report s offset (cut b r).fault ++ faultsFrom s (offset + (cut b r).size) ((b :: r).drop (cut b r).size) := by
  rw [faultsFrom, piecesFrom_cons, Source.faultsOf_cons, Piece.diagnostics]
  cases (cut b r).fault <;> rfl

/-- A piece that is no token adds no lexeme. -/
theorem lexemesFrom_cons_of_none (h : (cut b r).token = none) :
    lexemesFrom s offset (b :: r)
      = lexemesFrom s (offset + (cut b r).size) ((b :: r).drop (cut b r).size) := by
  rw [lexemesFrom, piecesFrom_cons, List.filterMap_cons_none (by rw [Piece.lexeme?, h]; rfl)]
  rfl

/-- A piece that is a token adds it. -/
theorem lexemesFrom_cons_of_begins {t : Token} {problem : Option (Problem × Nat)} (h : Begins (b :: r) w t problem) :
    lexemesFrom s offset (b :: r)
      = { token := t, text := w, location := s.location ⟨offset, offset + w.length⟩ }
        :: lexemesFrom s (offset + w.length) ((b :: r).drop w.length) := by
  have htake : (b :: r).take w.length = w := (List.prefix_iff_eq_take.1 h.isPrefix).symm
  rw [lexemesFrom, piecesFrom_cons, h.cut_eq, htake]
  rfl

/-- A scan finds what stands in the pieces of the text. -/
theorem Scans.eq (h : Scans s offset text xs ds) : xs = lexemesFrom s offset text ∧ ds = faultsFrom s offset text := by
  induction h with
  | done => exact ⟨rfl, rfl⟩
  | @blank offset b rest _ _ hb _ ih =>
    have hcut : cut b rest = { size := 1 } := by simp [cut, hb]
    rw [lexemesFrom_cons_of_none (by rw [hcut]), faultsFrom_cons, hcut]
    exact ih
  | @stray offset b r rest c _ _ hblank hnone htext _ ih =>
    have htoken : (cut b r).token = none := by
      cases ht : (cut b r).token with
      | none => rfl
      | some t =>
        obtain ⟨w, u, problem, hbegins⟩ := exists_begins ht
        exact absurd hbegins (hnone w u problem)
    have hcut : cut b r = { size := c.utf8Size, fault := some (.unexpectedCharacter c, c.utf8Size) } := by
      rcases cut_of_token_eq_none htoken with ⟨hb, -⟩ | ⟨-, hstray⟩
      · rw [hb] at hblank
        cases hblank
      · rw [hstray, htext, cutStray_encode]
    have hdrop : (b :: r).drop c.utf8Size = rest := by
      rw [htext, List.drop_left' (String.length_utf8EncodeChar c)]
    rw [lexemesFrom_cons_of_none htoken, faultsFrom_cons, hcut, hdrop, ← ih.1, ← ih.2]
    exact ⟨rfl, rfl⟩
  | @lexeme offset b r w t problem _ _ h _ ih =>
    rw [lexemesFrom_cons_of_begins h, faultsFrom_cons, h.cut_eq, ← ih.1, ← ih.2]
    exact ⟨rfl, rfl⟩

/-- **What the scanner gives is a scan** by the rule of the longest token. -/
theorem scans (h : Utf8.IsEncoding text) : Scans s offset text (lexemesFrom s offset text) (faultsFrom s offset text) := by
  induction offset, text using pieces_induction with
  | nil => exact .done
  | cons offset b r ih =>
    have hrest := ih (drop_cut_isEncoding h)
    cases ht : (cut b r).token with
    | some t =>
      obtain ⟨w, t, problem, hbegins⟩ := exists_begins ht
      rw [hbegins.cut_eq] at hrest
      rw [lexemesFrom_cons_of_begins hbegins, faultsFrom_cons, hbegins.cut_eq]
      exact .lexeme hbegins hrest
    | none =>
      rw [lexemesFrom_cons_of_none ht, faultsFrom_cons]
      rcases cut_of_token_eq_none ht with ⟨hblank, hsize, hfault⟩ | ⟨hblank, hcut⟩
      · rw [hsize] at hrest ⊢
        rw [hfault]
        exact .blank hblank hrest
      · obtain ⟨c, k, htext, -⟩ := h.exists_char (List.cons_ne_nil b r)
        have hstray := cutStray_encode c k
        rw [← htext, ← hcut] at hstray
        rw [hstray] at hrest ⊢
        have hnone : ∀ w t problem, ¬ Begins (b :: r) w t problem := by
          intro w t problem hbegins
          rw [hbegins.cut_eq] at ht
          cases ht
        refine .stray hblank hnone htext ?_
        rwa [htext, List.drop_left' (String.length_utf8EncodeChar c)] at hrest ⊢

end Lexicon

/-- **The scanner is the longest-match lexer of the language**: it gives the lexemes `xs` and reports the problems `ds`
exactly if these are what going through the text by the rules gives. -/
theorem scans_iff (s : Source) (xs : List Lexeme) (ds : Diagnostics) :
    Lexicon.Scans s 0 s.text xs ds ↔ ∃ final, s.scan = (xs ++ [s.endMarker], final) ∧ final.diagnostics = ds := by
  rw [s.scan_eq]
  constructor
  · intro h
    obtain ⟨rfl, rfl⟩ := h.eq
    exact ⟨s.ended, rfl, rfl⟩
  · rintro ⟨final, hscan, rfl⟩
    obtain ⟨hlexemes, rfl⟩ := Prod.mk.inj hscan
    rw [← List.append_cancel_right hlexemes]
    exact Lexicon.scans s.isEncoding_text

end SmallJava
