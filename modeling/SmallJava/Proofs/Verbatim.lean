import SmallJava.Proofs.Lexical.Coverage
import SmallJava.Proofs.Making.Name
import SmallJava.Proofs.Quoting
import SmallJava.Proofs.Spans

/-!
# Leaves quote the text

Names, constants and comments of a parsed tree are spelled as the text at their place, and a type is spelled as the
tokens at its place, one after the other, with what stands between them left out. This holds of all texts, also of those
that are not understood.

* `Source.tokensIn` — the tokens inside a span; tokens in a row are those inside their extent;
* `TypeRef.text_eq` — the tokens of a type make up its text;
* `Node.Verbatim` — what is said of one node;
* `parse_verbatim` — the whole statement.
-/

namespace SmallJava

open Grammar

/-! ## Tokens inside a span -/

theorem extent_append_stop (xs : List Lexeme) {ys : List Lexeme} (hy : ys ≠ []) :
    (extent (xs ++ ys)).span.stop = (extent ys).span.stop := by
  obtain ⟨ys, y, rfl⟩ := List.eq_nil_or_concat ys |>.resolve_left hy
  rw [List.concat_eq_append, ← List.append_assoc, extent_stop, extent_stop]

/-- The tokens inside a span. -/
def Source.tokensIn (s : Source) (span : Span) : List Lexeme := s.tokens.filter (span.contains ·.location.span)

section TokensIn

variable {s : Source} {xs ys : List Lexeme}

/-- Tokens in a row are those between the end of the token before and their own end. -/
theorem tokensIn_eq {before after : List Lexeme} {lo : Int} (hs : before ++ xs ++ after = s.tokens) (hx : xs ≠ [])
    (hbefore : ∀ x ∈ before, x.location.span.stop ≤ lo) (hlo : ∀ x ∈ xs, lo ≤ x.location.span.start) :
    s.tokensIn ⟨lo, (extent xs).span.stop⟩ = xs := by
  have hordered := s.tokens_ordered
  rw [← hs] at hordered
  have hin := hordered.sublist ((List.sublist_append_right before xs).trans (List.sublist_append_left _ after))
  obtain ⟨_, -, y, hy, he⟩ := extent_ends hx
  have hinside : ∀ x ∈ xs, Span.contains ⟨lo, (extent xs).span.stop⟩ x.location.span = true :=
    fun x hx => by simp [Span.contains, hlo x hx, (hin.within_extent x hx).2]
  have houtside : ∀ x, x ∈ before ∨ x ∈ after →
      Span.contains ⟨lo, (extent xs).span.stop⟩ x.location.span ≠ true := by
    intro x hx
    have hlt := hordered.nonempty x (by simp only [List.mem_append]; tauto)
    simp only [he, Location.through_stop, Span.contains, ne_eq, Bool.and_eq_true, decide_eq_true_eq]
    rcases hx with hx | hx
    · have hle := hbefore x hx
      omega
    · have hle := (List.pairwise_append.1 hordered.sorted).2.2 y (by simp [hy]) x hx
      omega
  have hfirst := List.filter_eq_nil_iff.2 fun x hx => houtside x (.inl hx)
  have hlast := List.filter_eq_nil_iff.2 fun x hx => houtside x (.inr hx)
  rw [Source.tokensIn, ← hs, List.filter_append, List.filter_append, hfirst, List.filter_eq_self.2 hinside, hlast,
    List.nil_append, List.append_nil]

/-- **Tokens in a row are those inside their extent.** -/
theorem tokensIn_extent (h : xs <:+: s.tokens) (hx : xs ≠ []) : s.tokensIn (extent xs).span = xs := by
  obtain ⟨before, after, hs⟩ := h
  have hordered := s.tokens_ordered
  rw [← hs] at hordered
  have hin := hordered.sublist ((List.sublist_append_right before xs).trans (List.sublist_append_left _ after))
  have hbefore := (List.pairwise_append.1 (List.pairwise_append.1 hordered.sorted).1).2.2
  obtain ⟨x, hxm, y, -, he⟩ := extent_ends hx
  refine tokensIn_eq hs hx (fun z hz => ?_) fun z hz => (hin.within_extent z hz).1
  rw [he]
  exact hbefore z hz x hxm

/-- Tokens in a row behind others are those between the ends of both. -/
theorem tokensIn_behind (h : xs ++ ys <:+: s.tokens) (hx : xs ≠ []) (hy : ys ≠ []) :
    s.tokensIn ⟨(extent xs).span.stop, (extent (xs ++ ys)).span.stop⟩ = ys := by
  obtain ⟨before, after, hs⟩ := h
  rw [← List.append_assoc] at hs
  have hordered := s.tokens_ordered
  rw [← hs] at hordered
  have hin := hordered.sublist (List.sublist_append_left (before ++ xs ++ ys) after)
  have hfront := hin.sublist (List.sublist_append_left (before ++ xs) ys)
  rw [extent_append_stop xs hy, ← extent_append_stop before hx]
  refine tokensIn_eq hs hy (fun x hxm => (hfront.within_extent x hxm).2) fun y hym => ?_
  obtain ⟨_, -, z, hz, he⟩ := extent_ends (List.append_ne_nil_of_right_ne_nil before hx)
  rw [he]
  exact (List.pairwise_append.1 hin.sorted).2.2 z hz y hym

end TokensIn

/-! ## The texts of names and types -/

theorem Lexeme.Faithful.text_eq {x : Lexeme} (hx : x.Faithful) {t : Token} (h : x.token = t)
    (ht : t.isKeyword = true ∨ t.isOperator = true) : x.text = utf8 t.spelling :=
  congrArg Prod.snd (hx.spelled_eq h ht)

theorem IsToken.isName {w : Bytes} (h : IsToken .ident w) : IsName w := by
  generalize ht : Token.ident = t at h
  cases h with
  | @word b r hb hr =>
    refine ⟨Lexicon.mem_oneOf_mul_kstar_iff.2 ⟨b, r, rfl, hb, hr⟩, ?_⟩
    rcases Token.ofWord_cases (b :: r) with ⟨-, hnot⟩ | hreserved
    · simp [Token.isReserved, hnot]
    · have hkind := (Token.mem_reserved hreserved).2
      rw [← ht] at hkind
      simp [Token.isKeyword] at hkind
  | operator hop =>
    rw [← ht] at hop
    cases hop
  | _ => cases ht

/-- A constant that is a token is scanned again on its own. -/
theorem Lexeme.Faithful.isScanned {x : Lexeme} (hx : x.Faithful) (ht : x.token.isLiteral = true) :
    x.literal.IsScanned := by
  have hatom : x.token.isAtom = true := by simp [Token.isAtom, ht]
  have hvalid := Token.ne_invalid_of_isAtom hatom
  obtain ⟨s, -, htext⟩ := Source.ofBytes_of_isEncoding "" (hx.isEncoding hvalid)
  have hcut : CutsOff x.token s.text [] := by
    rw [htext]
    exact (hx.isToken hvalid).cutsOff (Token.isOperator_of_isAtom hatom) ⟨by simp, rfl⟩
  obtain ⟨final, hscan, hfaults⟩ := Source.drain_of_cutsOff hcut (hx.isToken hvalid).isComment_eq_false true
  refine ⟨s, htext, ⟨⟨x.token, s.text, s.extent⟩, ?_, ?_⟩, ?_⟩
  · rw [Source.scan, hscan]
  · simp [Lexeme.spelled, Lexeme.literal, htext]
  · rw [Source.scan, hscan]
    exact hfaults

namespace Grammar

variable {xs : List Lexeme} {t : TypeName}

theorem QualName.name_eq (h : QualName xs t) (hf : ∀ x ∈ xs, x.Faithful) : t.name = xs.flatMap (·.text) := by
  induction h with
  | single => simp
  | @dotted xs t d x _ hd _ ih =>
    have hdot := (hf d (by simp)).text_eq hd (.inr rfl)
    simp [ih fun y hy => hf y (by simp [hy]), hdot, Token.spelling]

theorem Brackets.copies_eq {n : Nat} (h : Brackets xs n) (hf : ∀ x ∈ xs, x.Faithful) :
    Bytes.copies n (utf8 "[]") = xs.flatMap (·.text) := by
  induction h with
  | none => rfl
  | @pair l r xs n hl hr _ ih =>
    simp only [List.forall_mem_cons] at hf
    obtain ⟨hfl, hfr, hf⟩ := hf
    have htext : utf8 "[]" = l.text ++ r.text := by
      rw [hfl.text_eq hl (.inr rfl), hfr.text_eq hr (.inr rfl)]
      rfl
    have hnext : Bytes.copies (n + 1 : Nat) (utf8 "[]") = utf8 "[]" ++ Bytes.copies n (utf8 "[]") := by
      simp [Bytes.copies, List.replicate_succ]
    rw [hnext, ih hf, htext]
    simp

/-- **The tokens of a type make up its text.** -/
theorem TypeRef.text_eq (h : TypeRef xs t) (hf : ∀ x ∈ xs, x.Faithful) : t.text = xs.flatMap (·.text) := by
  cases h with
  | @mk xs ys t n hq hb =>
    have hname := hq.name_eq fun x hx => hf x (by simp [hx])
    have hdims := hb.copies_eq fun y hy => hf y (by simp [hy])
    simp [TypeName.text, hname, hdims]

end Grammar

/-! ## Parsed trees -/

/-- **A node quotes the text.** A name or a constant is spelled as the text at its place; a name is a word that is not
reserved, and a constant is scanned on its own as one token of its kind. The type directly below the node is spelled as
the tokens at its place. If the node makes an array with its length, then these tokens are the name of the type, and
its dimensions are counted by the pairs of brackets behind the length, the one with the length included. -/
structure Node.Verbatim (s : Source) (n : Node) : Prop where
  name : ∀ i, n = .expr (.ident i) → s.slice? i.location.span = some i.name ∧ IsName i.name
  constant : ∀ l, n = .expr (.literal l) → s.slice? l.location.span = some l.text ∧ l.IsScanned
  type : ∀ t, .typeName t ∈ n.children.map (·.node) → n.length? = none →
    t.text = (s.tokensIn t.location.span).flatMap (·.text)
  sized : ∀ t len, .typeName t ∈ n.children.map (·.node) → n.length? = some len →
    t.name = (s.tokensIn t.location.span).flatMap (·.text) ∧
      ∃ (r : Lexeme) (zs : List Lexeme) (count : Nat),
        s.tokensIn ⟨len.location.span.stop, n.location.span.stop⟩ = r :: zs ∧ r.token = .rSquare ∧
        Brackets zs count ∧ t.dims = (count : Int) + 1

theorem Node.verbatim_of_quotes {s : Source} {n : Node} (hq : n.Quotes s.tokens) (hw : n.Worded s.tokens) :
    n.Verbatim s := by
  have hslice : ∀ {x}, x ∈ s.tokens → s.slice? x.location.span = some x.text :=
    fun hx => s.slice?_of_mem_lexemes (s.mem_lexemes_of_mem_tokens hx)
  have htype : ∀ t, .typeName t ∈ n.children.map (·.node) → n.TypedBy s.tokens t :=
    fun t ht => hw t (type?_eq_some_of_mem ht)
  constructor
  · rintro i rfl
    obtain ⟨x, hx, hident, rfl⟩ := hq
    exact ⟨hslice hx, (hident ▸ (s.faithful hx).isToken (by simp [hident])).isName⟩
  · rintro l rfl
    obtain ⟨x, hx, hliteral, rfl⟩ := hq
    exact ⟨hslice hx, (s.faithful hx).isScanned hliteral⟩
  · intro t ht hlen
    cases htype t ht with
    | whole _ hxs href =>
      rw [href.location, tokensIn_extent hxs href.ne_nil]
      exact href.text_eq fun x hx => s.faithful (hxs.subset hx)
    | sized hlen' => cases hlen.symm.trans hlen'
  · intro t len ht hlen
    cases htype t ht with
    | whole hlen' => cases hlen'.symm.trans hlen
    | @sized kw l r xs ys zs name len' count hlen' hwhole hn hname hys hlocation hr hzs =>
      obtain rfl : len' = len := Option.some.inj (hlen'.symm.trans hlen)
      have hxs : xs <:+: s.tokens := List.IsInfix.trans ⟨[kw], l :: (ys ++ r :: zs), by simp⟩ hwhole
      refine ⟨?_, r, zs, count, ?_, hr, hzs, rfl⟩
      · rw [hname.location, tokensIn_extent hxs hname.ne_nil]
        exact hname.name_eq fun x hx => s.faithful (hxs.subset hx)
      · -- the length ends where the tokens in front of the closing bracket do
        have hfront : kw :: (xs ++ l :: (ys ++ r :: zs)) = (kw :: xs ++ [l] ++ ys) ++ r :: zs := by simp
        rw [hfront] at hwhole hn
        rw [hn, hlocation, ← extent_append_stop (kw :: xs ++ [l]) hys]
        exact tokensIn_behind hwhole (by simp) (List.cons_ne_nil r zs)

/-- **Leaves quote the text.** Whatever the text and the options are, all nodes of the tree quote it, and so do the
comments. -/
theorem parse_verbatim (o : Options) (s : Source) :
    (∀ n ∈ (Node.program (parse o s).program).preorder, n.Verbatim s) ∧
      ∀ c ∈ (parse o s).program.comments, s.slice? c.location.span = some c.text := by
  obtain ⟨final, -, -, -, -, hderives⟩ := parse_reads o s
  have hbody := hderives .lenient Mode.admits_lenient
  have hquotes : (Node.program (parse o s).program).All (Node.Quotes s.tokens) := by
    rw [Node.all_iff]
    simpa [Node.children, Node.Quotes] using hbody.quotes (List.Subset.refl _)
  have hworded : (Node.program (parse o s).program).All (Node.Worded s.tokens) := by
    rw [Node.all_iff]
    simpa [Node.children, Node.Worded, Node.type?] using hbody.worded
  refine ⟨fun n hn => Node.verbatim_of_quotes (hquotes n hn) (hworded n hn), fun c hc => ?_⟩
  obtain ⟨x, hx, rfl⟩ := mem_comments hc
  exact s.slice?_of_mem_lexemes hx

end SmallJava
