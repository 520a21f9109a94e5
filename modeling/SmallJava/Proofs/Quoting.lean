import SmallJava.Proofs.Grammar.Leaves
import SmallJava.Proofs.Lexical.Scanning
import SmallJava.Proofs.Printing.Text
import SmallJava.Proofs.Reading.Program
import SmallJava.Tree.Literal

/-!
# String literals and their values

A value without line breaks is written as a literal that is read back as the same value, and the literal is one token
of a text. The other way round, every string literal in a text has a value.

* `StringLiteral.quote_faithful` — the literal of a value is read back as that value, and scanned as one token;
* `StringLiteral.scanned_decodes` — the string literals of a source, and those of the tree parsed from it, have
  values, which can be written again.

The inside of a literal is read a byte or a pair at a time (`unescape_plain`, `unescape_pair`), just as the spelling
of literals is defined (`ClosesString`).
-/

namespace SmallJava

/-! ## A text that is one token -/

namespace Source

/-- **A text that is cut off as one token** is scanned as that token, whatever the scanner does with comments. -/
theorem drain_of_cutsOff {s : Source} {t : Token} (h : CutsOff t s.text []) (ht : t.isComment = false) (keep : Bool) :
    ∃ final, { Scanner.ofSource s with keepComments := keep }.drain = ([⟨t, s.text, s.extent⟩, s.endMarker], final) ∧
      final.diagnostics = [] := by
  obtain ⟨b, r, htext, hcut⟩ := h
  rw [List.append_nil] at hcut
  have hpieces : s.pieces = [{ start := 0, text := s.text, token := some t, fault := none }] := by
    rw [pieces, htext, piecesFrom_cons, hcut, htext, List.take_length, List.drop_length]
    rfl
  refine ⟨{ Scanner.ofSource s with keepComments := keep }.endedWith (s.faultsOf s.pieces), ?_, ?_⟩
  · rw [Scanner.drain_eq]
    simp [Scanner.ofSource, hpieces, shown, Piece.isPassed, ht, Piece.lexeme?, extent, size]
  · simp [Scanner.endedWith, hpieces, Piece.diagnostics]

end Source

namespace StringLiteral

/-! ## Reading the inside of a literal -/

/-- One step: what stands before the first backslash, and the backslash with the byte behind it. -/
theorem unescape_eq (text : Bytes) :
    unescape text =
      match text.dropWhile (· != byte '\\') with
      | [] => .ok (text.takeWhile (· != byte '\\'))
      | [_] => .error .incompleteEscape
      | slash :: b :: rest =>
        (unescape rest).map
          (text.takeWhile (· != byte '\\') ++ (if isEscaped b then [b] else [slash, b]) ++ ·) := by
  rw [unescape]
  split
  · next h => simp only [h]
  · next h => simp only [h]
  · next h =>
    simp only [h]
    rfl

theorem unescape_nil : unescape [] = .ok [] := unescape_eq []

/-- A backslash is dropped before what has to be escaped, and kept before anything else. -/
theorem unescape_pair (b : UInt8) (r : Bytes) :
    unescape (byte '\\' :: b :: r) = (unescape r).map ((if isEscaped b then [b] else [byte '\\', b]) ++ ·) :=
  unescape_eq _

theorem unescape_plain {b : UInt8} (hb : b ≠ byte '\\') (r : Bytes) :
    unescape (b :: r) = (unescape r).map (b :: ·) := by
  have htake : (b :: r).takeWhile (· != byte '\\') = b :: r.takeWhile (· != byte '\\') := by simp [hb]
  have hdrop : (b :: r).dropWhile (· != byte '\\') = r.dropWhile (· != byte '\\') := by simp [hb]
  rw [unescape_eq, unescape_eq r, htake, hdrop]
  split
  · rfl
  · rfl
  · next rest _ => cases unescape rest <;> rfl

/-- The value of a literal is what its quotation marks enclose. -/
theorem unquote_enclosed (body : Bytes) : unquote (byte '"' :: (body ++ [byte '"'])) = unescape body := by
  simp [unquote]

/-! ## Values that are written -/

theorem escape_of_isEscaped {b : UInt8} (hb : isEscaped b = true) (v : Bytes) :
    escape (b :: v) = byte '\\' :: b :: escape v := by
  simp [escape, hb]

theorem escape_of_not_isEscaped {b : UInt8} (hb : isEscaped b = false) (v : Bytes) :
    escape (b :: v) = b :: escape v := by
  simp [escape, hb]

theorem isEscaped_eq_false_iff {b : UInt8} : isEscaped b = false ↔ b ≠ byte '"' ∧ b ≠ byte '\\' := by
  simp [isEscaped]

/-- **What is written is read back.** -/
theorem unescape_escape (value : Bytes) : unescape (escape value) = .ok value := by
  induction value with
  | nil => exact unescape_nil
  | cons b v ih =>
    cases hb : isEscaped b with
    | true =>
      rw [escape_of_isEscaped hb, unescape_pair, ih, if_pos hb]
      rfl
    | false =>
      rw [escape_of_not_isEscaped hb, unescape_plain (isEscaped_eq_false_iff.1 hb).2, ih]
      rfl

/-- The literal of a value without line breaks ends where it should. -/
theorem closesString_escape {value : Bytes} (h : byte '\n' ∉ value) : ClosesString (escape value ++ [byte '"']) := by
  induction value with
  | nil => exact .close
  | cons b v ih =>
    obtain ⟨hbreak, hv⟩ := not_or.1 (mt List.mem_cons.2 h)
    cases hb : isEscaped b with
    | true =>
      rw [escape_of_isEscaped hb]
      exact .escape (Ne.symm hbreak) (ih hv)
    | false =>
      obtain ⟨hquote, hslash⟩ := isEscaped_eq_false_iff.1 hb
      rw [escape_of_not_isEscaped hb]
      exact .plain hquote (Ne.symm hbreak) hslash (ih hv)

/-- Bytes are escaped one by one. -/
theorem escape_append (a b : Bytes) : escape (a ++ b) = escape a ++ escape b := List.flatMap_append

/-- What needs no escape stays as it is. -/
theorem escape_eq_self {value : Bytes} (h : ∀ b ∈ value, isEscaped b = false) : escape value = value := by
  induction value with
  | nil => rfl
  | cons b v ih =>
    obtain ⟨hb, hv⟩ := List.forall_mem_cons.1 h
    rw [escape_of_not_isEscaped hb, ih hv]

theorem lt_of_isEscaped {b : UInt8} (hb : isEscaped b = true) : b < 0x80 := by
  have hcases : b = byte '"' ∨ b = byte '\\' := by simpa [isEscaped] using hb
  rcases hcases with rfl | rfl <;> decide

/-- Only whole characters get a backslash. -/
theorem isEncoding_escape {value : Bytes} (h : Utf8.IsEncoding value) : Utf8.IsEncoding (escape value) := by
  obtain ⟨cs, rfl⟩ := h
  induction cs with
  | nil => exact Utf8.isEncoding_nil
  | cons c cs ih =>
    rw [List.flatMap_cons, escape_append]
    refine Utf8.IsEncoding.append ?_ ih
    by_cases hplain : ∀ b ∈ String.utf8EncodeChar c, isEscaped b = false
    · rw [escape_eq_self hplain]
      exact Utf8.isEncoding_char c
    · obtain ⟨b, hmem, hb⟩ : ∃ b ∈ String.utf8EncodeChar c, isEscaped b = true := by simpa using hplain
      have hascii : b < 0x80 := lt_of_isEscaped hb
      rw [Utf8.encode_eq_singleton hascii hmem, escape_of_isEscaped hb]
      exact (Utf8.isEncoding_singleton (by decide)).append (Utf8.isEncoding_singleton hascii)

/-- A literal is refused to a value with a line break, and to no other. -/
theorem quote_eq_error_iff {value : Bytes} : (∃ why, quote value = .error why) ↔ byte '\n' ∈ value := by
  by_cases h : byte '\n' ∈ value <;> simp [quote, h]

/-- A value without a line break has a literal. -/
theorem quote_eq_ok {value : Bytes} (h : byte '\n' ∉ value) :
    quote value = .ok (byte '"' :: (escape value ++ [byte '"'])) := by
  simp [quote, h]

theorem isEncoding_literal {value : Bytes} (h : Utf8.IsEncoding value) :
    Utf8.IsEncoding (byte '"' :: (escape value ++ [byte '"'])) :=
  have hquote : Utf8.IsEncoding [byte '"'] := Utf8.isEncoding_singleton (by decide)
  hquote.append ((isEncoding_escape h).append hquote)

/-- **The value of a quoted value is the value.** -/
theorem unquote_quote {value : Bytes} (h : byte '\n' ∉ value) :
    ∃ literal, quote value = .ok literal ∧ unquote literal = .ok value :=
  ⟨_, quote_eq_ok h, (unquote_enclosed _).trans (unescape_escape value)⟩

/-- **Literals are faithful.** Exactly the values with a line break have no literal. The literal of any other value is
read back as that value. If the value is well-formed UTF-8, then a source that consists of the literal is scanned,
without a problem and with or without comments, as one string that covers the whole text, and the end marker. -/
theorem quote_faithful (value : Bytes) :
    ((∃ why, quote value = .error why) ↔ byte '\n' ∈ value) ∧
      (byte '\n' ∉ value → ∃ literal, quote value = .ok literal ∧ unquote literal = .ok value ∧
        (Utf8.IsEncoding value → ∀ name, ∃ s, Source.ofBytes name literal = .ok s ∧
          ∀ keep, ∃ final,
            { Scanner.ofSource s with keepComments := keep }.drain
              = ([⟨.string, literal, s.extent⟩, s.endMarker], final) ∧
            final.diagnostics = [])) := by
  refine ⟨quote_eq_error_iff, fun hbreak => ?_⟩
  refine ⟨_, quote_eq_ok hbreak, (unquote_enclosed _).trans (unescape_escape value), fun hvalue name => ?_⟩
  obtain ⟨s, hs, htext⟩ := Source.ofBytes_of_isEncoding name (isEncoding_literal hvalue)
  have hcut : CutsOff .string s.text [] := by
    rw [htext]
    exact cutsOff_string (closesString_escape hbreak) []
  refine ⟨s, hs, fun keep => ?_⟩
  rw [← htext]
  exact Source.drain_of_cutsOff hcut rfl keep

/-! ## Literals that are scanned -/

/-- **The inside of every literal has a value**, and the value has no line break. -/
theorem unescape_of_closesString {w : Bytes} (h : ClosesString w) :
    ∃ body value, w = body ++ [byte '"'] ∧ unescape body = .ok value ∧ byte '\n' ∉ value := by
  induction h with
  | close => exact ⟨[], [], rfl, unescape_nil, List.not_mem_nil⟩
  | @escape c r hc _ ih =>
    obtain ⟨body, value, rfl, hbody, hvalue⟩ := ih
    refine ⟨byte '\\' :: c :: body, _, rfl, (unescape_pair c body).trans (congrArg _ hbody), ?_⟩
    have hslash : byte '\n' ≠ byte '\\' := by decide
    split <;> simp [hvalue, hc.symm, hslash]
  | @plain b r _ hbreak hslash _ ih =>
    obtain ⟨body, value, rfl, hbody, hvalue⟩ := ih
    refine ⟨b :: body, b :: value, rfl, (unescape_plain hslash body).trans (congrArg _ hbody), ?_⟩
    simp [hvalue, hbreak.symm]

/-- The literal has a value that can be written as a literal again. -/
def Decodes (literal : Bytes) : Prop :=
  ∃ value, unquote literal = .ok value ∧ byte '\n' ∉ value ∧
    ∃ again, quote value = .ok again ∧ unquote again = .ok value

/-- A string token is closed by its last quotation mark. -/
theorem closesString_of_isToken {literal : Bytes} (h : IsToken .string literal) :
    ∃ w, literal = byte '"' :: w ∧ ClosesString w := by
  generalize ht : Token.string = t at h
  cases h with
  | @word b r _ _ =>
    rcases Token.ofWord_cases (b :: r) with ⟨hident, -⟩ | hreserved
    · rw [hident] at ht
      cases ht
    · have hkind := (Token.mem_reserved hreserved).2
      rw [← ht] at hkind
      simp [Token.isKeyword] at hkind
  | string hw => exact ⟨_, rfl, hw⟩
  | operator hop => simp [← ht, Token.isOperator] at hop
  | _ => cases ht

/-- **What is spelled like a string literal has a value.** -/
theorem decodes_of_isToken {literal : Bytes} (h : IsToken .string literal) : Decodes literal := by
  obtain ⟨w, rfl, hw⟩ := closesString_of_isToken h
  obtain ⟨body, value, rfl, hbody, hbreak⟩ := unescape_of_closesString hw
  exact ⟨value, (unquote_enclosed body).trans hbody, hbreak, unquote_quote hbreak⟩

theorem Decodes.string {l : Literal} (h : Decodes l.text) (hl : l.kind = .string) :
    ∃ value, l.string = .ok value := by
  obtain ⟨value, hvalue, -⟩ := h
  exact ⟨value, by simp [Literal.string, hl, hvalue]⟩

/-- A string that is scanned is spelled like one. -/
theorem isToken_of_mem_drain {s : Source} {keep : Bool} {x : Lexeme}
    (hx : x ∈ { Scanner.ofSource s with keepComments := keep }.drain.1) (ht : x.token = .string) :
    IsToken .string x.text := by
  rw [Scanner.drain_eq] at hx
  rcases List.mem_append.1 hx with hx | hx
  · obtain ⟨p, hp, hpx⟩ := List.mem_filterMap.1 hx
    have hlexeme : x ∈ s.lexemes := List.mem_filterMap.2 ⟨p, (List.mem_filter.1 hp).1, hpx⟩
    have htoken : x ∈ s.tokens := List.mem_filter.2 ⟨hlexeme, by rw [ht]; rfl⟩
    exact ht ▸ (s.faithful htoken).isToken (by rw [ht]; decide)
  · rw [List.mem_singleton.1 hx] at ht
    cases ht

/-- The constants of the tree are tokens of the text. -/
theorem parse_literal {o : Options} {s : Source} {l : Literal}
    (h : Node.expr (.literal l) ∈ (Node.program (parse o s).program).preorder) : ∃ x ∈ s.tokens, l = x.literal := by
  obtain ⟨final, -, -, -, -, hderives⟩ := parse_reads o s
  have hbody := (hderives .lenient Grammar.Mode.admits_lenient).quotes (List.Subset.refl _)
  have hall : (Node.program (parse o s).program).All (Node.Quotes s.tokens) := by
    rw [Node.all_iff]
    simpa [Node.children, Node.Quotes] using hbody
  obtain ⟨x, hx, -, hl⟩ := hall _ h
  exact ⟨x, hx, hl⟩

/-- **String literals have values.** Every string that a scanner gives, with or without comments, has a value without
line breaks, and that value is written as a literal that has the same value. So every literal of kind string in the
tree of a parse has a string for its value. -/
theorem scanned_decodes (o : Options) (s : Source) :
    (∀ keep, ∀ x ∈ { Scanner.ofSource s with keepComments := keep }.drain.1, x.token = .string → Decodes x.text) ∧
      ∀ l, Node.expr (.literal l) ∈ (Node.program (parse o s).program).preorder → l.kind = .string →
        Decodes l.text ∧ ∃ value, l.string = .ok value := by
  refine ⟨fun keep x hx ht => decodes_of_isToken (isToken_of_mem_drain hx ht), fun l hl hkind => ?_⟩
  obtain ⟨x, hx, rfl⟩ := parse_literal hl
  have ht : x.token = .string := hkind
  have htoken : IsToken x.token x.text := (s.faithful hx).isToken (by rw [ht]; decide)
  have hdecodes : Decodes x.text := decodes_of_isToken (ht ▸ htoken)
  exact ⟨hdecodes, hdecodes.string hkind⟩

end StringLiteral

end SmallJava
