import SmallJava.Proofs.Lexical.Longest
import SmallJava.Proofs.Printing.Name

/-!
# Names, types and constants made of tokens

A name in a tree may be any text, and so may a constant. Those that are spelled as they should be are tokens, or are
made of tokens; where the tokens stand does not matter.

* `IsName`, `TypeName.IsSpelled`, `Literal.IsScanned` — how names, types and constants should be spelled, which
  `Node.IsSpelled` says of a node;
* `Token.lexeme` — a token somewhere;
* `TypeName.IsSpelled.qualName`, `TypeName.IsSpelled.typeRef` — tokens for names of types and for types.
-/

namespace SmallJava

open Grammar

/-! ## Spellings -/

/-- The text is a word that is not reserved. -/
def IsName (w : Bytes) : Prop := w ∈ Lexicon.word ∧ Token.isReserved w = false

/-- The name of the type is made of names with dots between them, and it has no negative number of dimensions. -/
def TypeName.IsSpelled (t : TypeName) : Prop :=
  0 ≤ t.dims ∧ ∃ words, words ≠ [] ∧ (∀ w ∈ words, IsName w) ∧ t.name = Bytes.join (utf8 ".") words

/-- As a source of its own, the text of the constant is scanned as one token of its kind, without a problem. -/
def Literal.IsScanned (l : Literal) : Prop :=
  ∃ s : Source, s.text = l.text ∧ (∃ x, s.scan.1 = [x, s.endMarker] ∧ x.spelled = (l.kind, l.text)) ∧
    s.scan.2.diagnostics = []

/-- Names, types and constants are spelled as they should be. -/
def Node.IsSpelled : Node → Prop
  | .expr (.ident i) => IsName i.name
  | .expr (.literal l) => l.IsScanned
  | .typeName t => t.IsSpelled
  | _ => True

/-- A name is a token of its text. -/
theorem IsName.isToken {w : Bytes} (h : IsName w) : IsToken .ident w := by
  obtain ⟨hword, hreserved⟩ := h
  obtain ⟨b, r, rfl, hb, hr⟩ := Lexicon.mem_oneOf_mul_kstar_iff.1 hword
  have hident : Token.ofWord (b :: r) = .ident := by
    rw [Token.ofWord, Option.not_isSome_iff_eq_none.1 (Bool.eq_false_iff.1 hreserved)]
    rfl
  exact hident ▸ .word hb hr

/-! ## Tokens -/

/-- A token somewhere, by its kind and its text. -/
def Token.lexeme (t : Token) (text : Bytes) : Lexeme := { token := t, text := text, location := default }

/-- A keyword, an operator or a mark somewhere. -/
def Token.mark (t : Token) : Lexeme := t.lexeme (utf8 t.spelling)

namespace Token

@[simp] theorem token_lexeme (t : Token) (text : Bytes) : (t.lexeme text).token = t := rfl

@[simp] theorem text_lexeme (t : Token) (text : Bytes) : (t.lexeme text).text = text := rfl

@[simp] theorem token_mark (t : Token) : t.mark.token = t := rfl

/-- A keyword or an operator stands for itself. -/
theorem faithful_mark {t : Token} (ht : t.isKeyword = true ∨ t.isOperator = true) : t.mark.Faithful where
  isToken _ := ht.elim isToken_keyword .operator
  isEncoding _ := Utf8.isEncoding_utf8 _

end Token

theorem IsName.isEncoding {w : Bytes} (h : IsName w) : Utf8.IsEncoding w := by
  obtain ⟨b, r, rfl, hb, hr⟩ := Lexicon.mem_oneOf_mul_kstar_iff.1 h.1
  have hbytes : ∀ c ∈ b :: r, isWordByte c = true := List.forall_mem_cons.2 ⟨isWordByte_iff.2 (.inl hb), hr⟩
  exact Utf8.isEncoding_of_ascii fun c hc => lt_of_isWordByte (hbytes c hc)

theorem IsName.faithful {w : Bytes} (h : IsName w) : (Token.ident.lexeme w).Faithful where
  isToken _ := h.isToken
  isEncoding _ := h.isEncoding

/-- A literal that the scanner could have given is faithful to its text. -/
theorem Literal.IsScanned.faithful {l : Literal} (h : l.IsScanned) (hl : l.kind.isLiteral = true) :
    (l.kind.lexeme l.text).Faithful := by
  obtain ⟨s, -, ⟨x, hx, hspelled⟩, -⟩ := h
  have hlexemes : s.lexemes = [x] := by
    rw [s.scan_eq] at hx
    exact List.append_cancel_right hx
  have hcomment : x.token.isComment = false := by
    rw [show x.token = l.kind from congrArg Prod.fst hspelled]
    cases hkind : l.kind <;> rw [hkind] at hl <;> first | rfl | cases hl
  have hfaithful : x.Faithful := s.faithful (List.mem_filter.2 ⟨by simp [hlexemes], by simp [hcomment]⟩)
  obtain ⟨hkind, htext⟩ := Prod.mk.inj hspelled
  exact ⟨hkind ▸ htext ▸ hfaithful.isToken, hkind ▸ htext ▸ hfaithful.isEncoding⟩

/-! ## Types -/

theorem Bytes.join_concat (sep : Bytes) {ws : List Bytes} (hws : ws ≠ []) (w : Bytes) :
    Bytes.join sep (ws ++ [w]) = Bytes.join sep ws ++ sep ++ w := by
  induction ws with
  | nil => exact absurd rfl hws
  | cons v vs ih =>
    cases vs with
    | nil => rfl
    | cons u us =>
      have hrest := ih (List.cons_ne_nil u us)
      simp only [List.cons_append] at hrest
      simp [join, hrest]

/-- Names with dots between them are a qualified name. -/
theorem exists_qualName {words : List Bytes} (hne : words ≠ []) (h : ∀ w ∈ words, IsName w) :
    ∃ xs t, QualName xs t ∧ (∀ x ∈ xs, x.Faithful) ∧ t.name = Bytes.join (utf8 ".") words := by
  induction words using List.reverseRecOn with
  | nil => exact absurd rfl hne
  | append_singleton ws w ih =>
    have hw : IsName w := h w (by simp)
    by_cases hws : ws = []
    · subst hws
      exact ⟨[Token.ident.lexeme w], _, .single rfl, by simp [hw.faithful], rfl⟩
    · obtain ⟨xs, t, ht, hf, hname⟩ := ih hws fun v hv => h v (by simp [hv])
      refine ⟨_, _, .dotted ht (Token.token_mark _) (Token.token_lexeme _ w), ?_, ?_⟩
      · exact List.forall_mem_append.2 ⟨hf, by simp +decide [Token.faithful_mark, hw.faithful]⟩
      · simp [Bytes.join_concat _ hws, hname]

/-- Any number of dimensions can be spelled. -/
theorem exists_brackets (n : Nat) : ∃ xs, Brackets xs n ∧ ∀ x ∈ xs, x.Faithful := by
  induction n with
  | zero => exact ⟨[], .none, List.forall_mem_nil _⟩
  | succ n ih =>
    obtain ⟨xs, hxs, hf⟩ := ih
    refine ⟨_, .pair (Token.token_mark _) (Token.token_mark _) hxs, ?_⟩
    simpa +decide [Token.faithful_mark] using hf

namespace TypeName.IsSpelled

variable {t : TypeName}

/-- A name that is spelled as it should be is made of names and dots. -/
theorem qualName (h : t.IsSpelled) : ∃ xs u, QualName xs u ∧ (∀ x ∈ xs, x.Faithful) ∧ u.name = t.name := by
  obtain ⟨-, words, hne, hwords, hname⟩ := h
  obtain ⟨xs, u, hu, hf, hjoin⟩ := exists_qualName hne hwords
  exact ⟨xs, u, hu, hf, hjoin.trans hname.symm⟩

/-- A type that is spelled as it should be is made of tokens. -/
theorem typeRef (h : t.IsSpelled) :
    ∃ xs u, TypeRef xs u ∧ (∀ x ∈ xs, x.Faithful) ∧ u.unlocated = t.unlocated := by
  obtain ⟨xs, u, hu, hfx, hname⟩ := h.qualName
  obtain ⟨ys, hys, hfy⟩ := exists_brackets t.dims.toNat
  refine ⟨xs ++ ys, _, .mk hu hys, List.forall_mem_append.2 ⟨hfx, hfy⟩, ?_⟩
  simp [unlocated, hname, Int.toNat_of_nonneg h.1]

end TypeName.IsSpelled

end SmallJava
