import SmallJava.Proofs.Lexical.Kinds
import SmallJava.Proofs.Lexical.Passing
import SmallJava.Proofs.Printing.Text

/-!
# Tokens with blanks between them

A blank belongs to no token but a string literal, and there the closing quote says where the token ends. So what is cut
off a text as a token is cut off again wherever a blank, or nothing, stands behind it (`IsToken.cutsOff_of_blank`), and
tokens of any texts, written one behind the other with blanks between them, are scanned as the same tokens
(`spaced_scans`).
-/

namespace SmallJava

/-! ## One token -/

/-- The text is empty, or it starts with a blank. -/
def StartsBlank (k : Bytes) : Prop := ∀ c ∈ k.head?, isBlank c = true

theorem startsBlank_nil : StartsBlank [] := by simp [StartsBlank]

namespace StartsBlank

variable {k : Bytes}

/-- A blank goes on with neither a word nor a number. -/
theorem clear (hk : StartsBlank k) : Clear k := by
  cases k with
  | nil => exact ⟨by simp, rfl⟩
  | cons c k =>
    have hblank : isBlank c = true := hk c rfl
    apply clear_cons
    · -- a byte of a word is no blank
      apply Bool.eq_false_iff.2
      intro hword
      rw [isBlank_of_isWordByte hword] at hblank
      cases hblank
    · rintro rfl
      cases hblank

/-- A text without blanks that starts `w ++ k` starts `w` already. -/
theorem isPrefix_append_iff (hk : StartsBlank k) {v : Bytes} (hv : v.any isBlank = false) (w : Bytes) :
    v <+: w ++ k ↔ v <+: w := by
  constructor
  · intro h
    rcases List.prefix_or_prefix_of_prefix h (List.prefix_append w k) with hshort | ⟨u, rfl⟩
    · exact hshort
    · -- what is left of `v` behind `w` would have to start with a blank
      have hrest : u <+: k := (List.prefix_append_right_inj w).1 h
      cases u with
      | nil => simp
      | cons b u =>
        obtain ⟨k', rfl⟩ := hrest
        have hfree := List.any_eq_false.1 hv b (by simp)
        exact absurd (hk b rfl) hfree
  · exact fun h => h.trans (List.prefix_append w k)

/-- Whether an operator starts a text is settled in front of the first blank. -/
theorem operatorAt?_append (hk : StartsBlank k) (w : Bytes) :
    Token.operatorAt? (w ++ k) = Token.operatorAt? w := by
  have hfree : ∀ e ∈ Token.operators, e.1.any isBlank = false := by decide
  unfold Token.operatorAt?
  refine List.find?_congr fun e he => ?_
  rw [Bool.eq_iff_iff, List.isPrefixOf_iff_prefix, List.isPrefixOf_iff_prefix]
  exact hk.isPrefix_append_iff (hfree e he) w

end StartsBlank

/-- No operator looks like the opening of a comment. -/
theorem Token.not_opening_of_operator : ∀ t ∈ Token.all, t.isOperator = true →
    ∀ v ∈ [utf8 "//", utf8 "/*"], v.isPrefixOf (utf8 t.spelling) = false := by
  decide

/-- An operator on its own is cut off as such. -/
theorem Token.operatorAt?_spelling : ∀ t ∈ Token.all, t.isOperator = true →
    Token.operatorAt? (utf8 t.spelling) = some (utf8 t.spelling, t) := by
  decide

theorem cutsOff_operator_of_blank {t : Token} (ht : t.isOperator = true) {k : Bytes} (hk : StartsBlank k) :
    CutsOff t (utf8 t.spelling) k := by
  have hfirst := Token.first_of_operator t t.mem_all ht
  have hopening := Token.not_opening_of_operator t t.mem_all ht
  have hop := Token.operatorAt?_spelling t t.mem_all ht
  rw [← hk.operatorAt?_append] at hop
  cases hspelling : utf8 t.spelling with
  | nil => simp [hspelling] at hfirst
  | cons b r =>
    rw [hspelling] at hfirst hopening hop
    simp only [List.head?_cons, Option.any_some, Bool.and_eq_true, Bool.not_eq_true', bne_iff_ne, ne_eq] at hfirst
    obtain ⟨⟨⟨hblank, hletter⟩, hdigit⟩, hquote⟩ := hfirst
    -- behind the operator there is no second byte of an opening either
    have hcomment : ∀ c, utf8 "/" ++ [c] ∈ [utf8 "//", utf8 "/*"] → ¬ (b = byte '/' ∧ (r ++ k).head? = some c) := by
      intro c hc hopens
      have hstart : utf8 "/" ++ [c] <+: b :: r ++ k := pair_isPrefix_iff.2 hopens
      have hfree : ∀ v ∈ [utf8 "//", utf8 "/*"], v.any isBlank = false := by decide
      rw [hk.isPrefix_append_iff (hfree _ hc), ← List.isPrefixOf_iff_prefix, hopening _ hc] at hstart
      cases hstart
    refine ⟨b, r, rfl, ?_⟩
    rw [cut, if_neg (by simp [hblank]), if_neg (by simp [hletter]), if_neg (by simp [hdigit]), if_neg hquote,
      if_neg (hcomment (byte '/') (by decide)), if_neg (hcomment (byte '*') (by decide)), ← List.cons_append, hop]

/-- **A token is cut off again in front of a blank**, and at the end of a text. -/
theorem IsToken.cutsOff_of_blank {t : Token} {w : Bytes} (h : IsToken t w) {k : Bytes} (hk : StartsBlank k) :
    CutsOff t w k := by
  cases hop : t.isOperator with
  | false => exact h.cutsOff hop hk.clear
  | true =>
    rw [h.eq_spelling (.inr hop)]
    exact cutsOff_operator_of_blank hop hk

/-! ## A whole text -/

/-- A separator: one blank or more. -/
structure IsGap (w : Bytes) : Prop where
  nonempty : w ≠ []
  blank : ∀ b ∈ w, isBlank b = true

theorem IsGap.startsBlank {w : Bytes} (h : IsGap w) (k : Bytes) : StartsBlank (w ++ k) := by
  obtain ⟨b, r, rfl⟩ := List.exists_cons_of_ne_nil h.nonempty
  intro c hc
  obtain rfl : b = c := Option.some.inj hc
  exact h.blank b List.mem_cons_self

/-- The texts one behind the other, with the separator `gap i` behind the one at `i` if another one follows. -/
def spaced (gap : Nat → Bytes) : List Bytes → Bytes
  | [] => []
  | [w] => w
  | w :: v :: ws => w ++ (gap 0 ++ spaced (fun i => gap (i + 1)) (v :: ws))

/-- **Tokens with blanks between them are a text of these tokens.** -/
theorem lexes_spaced {xs : List Lexeme} {gap : Nat → Bytes} (hxs : ∀ x ∈ xs, x.Faithful ∧ x.token ≠ .invalid)
    (hgap : ∀ i, i + 1 < xs.length → IsGap (gap i)) :
    Lexes (spaced gap (xs.map (·.text))) (xs.map Lexeme.spelled) := by
  induction xs generalizing gap with
  | nil => exact .nil
  | cons x xs ih =>
    obtain ⟨⟨hx, hvalid⟩, hrest⟩ := List.forall_mem_cons.1 hxs
    have htoken := hx.isToken hvalid
    -- the token in front of any text that starts with a blank
    have hfront : ∀ k K, StartsBlank k → Lexes k K → Lexes (x.text ++ k) (x.spelled :: K) := by
      intro k K hk hK
      exact .token (htoken.cutsOff_of_blank hk) htoken.isComment_eq_false (hx.isEncoding hvalid) hK
    cases xs with
    | nil =>
      have h := hfront [] [] startsBlank_nil .nil
      rwa [List.append_nil] at h
    | cons y ys =>
      have hfirst : IsGap (gap 0) := hgap 0 (by simp)
      have hlater : ∀ i, i + 1 < (y :: ys).length → IsGap (gap (i + 1)) := by
        intro i hi
        exact hgap (i + 1) (Nat.succ_lt_succ hi)
      have hblanks : Prints Any (gap 0) [] := .blanks (List.all_eq_true.2 hfirst.blank)
      exact hfront _ _ (hfirst.startsBlank _) (hblanks _ _ trivial (ih hrest hlater))

/-! ## Scanning -/

namespace Source

variable {s : Source} {keep : Bool}

/-- What a scanner gives, other than comments and the end marker, are the tokens of the source. -/
theorem mem_tokens_of_mem_drain {x : Lexeme} (hx : x ∈ { Scanner.ofSource s with keepComments := keep }.drain.1)
    (heof : x.token ≠ .eof) (hcomment : x.token.isComment = false) : x ∈ s.tokens := by
  rw [Scanner.drain_eq] at hx
  rcases List.mem_append.1 hx with hshown | hlast
  · show x ∈ s.tokensOf s.pieces
    rw [tokensOf_eq_shown keep]
    exact List.mem_filter.2 ⟨hshown, by simp [hcomment]⟩
  · rw [List.mem_singleton.1 hlast] at heof
    exact absurd rfl heof

/-- **A text of tokens and blanks is scanned as these tokens**, whatever the scanner does with comments. -/
theorem drain_of_lexes {L : List Spelled} (h : Lexes s.text L) (keep : Bool) :
    ∃ ys final, { Scanner.ofSource s with keepComments := keep }.drain = (ys ++ [s.endMarker], final) ∧
      ys.map Lexeme.spelled = L ∧ final.diagnostics = [] := by
  obtain ⟨hfaults, htokens⟩ := h.source
  have hshown : s.shown keep s.pieces = s.tokens := by
    show _ = s.tokensOf s.pieces
    rw [tokensOf_eq_shown keep, eq_comm, List.filter_eq_self]
    intro x hx
    obtain ⟨p, hp, hpx⟩ := List.mem_filterMap.1 hx
    obtain ⟨t, ht, rfl⟩ := Option.map_eq_some_iff.1 hpx
    have hplain := ((h.pieces 0).1 p (List.mem_filter.1 hp).1).2 t ht
    simpa using hplain
  refine ⟨s.tokens, { Scanner.ofSource s with keepComments := keep }.endedWith ([] ++ s.faults), ?_, htokens, ?_⟩
  · rw [Scanner.drain_eq, ← hshown]
    rfl
  · show [] ++ s.faults = []
    rw [hfaults, List.append_nil]

end Source

/-- **Tokens survive a new layout.** Take any lexemes that scanners have given, from whatever sources, other than invalid
tokens, end markers and comments, and write them one behind the other with one blank or more between neighbours. The
result is the text of a source, and it is scanned as the same tokens with the same texts, then the end marker, and
without a problem. -/
theorem spaced_scans (xs : List Lexeme) (gap : Nat → Bytes) (name : String)
    (hxs : ∀ x ∈ xs, (∃ (s : Source) (keep : Bool), x ∈ { Scanner.ofSource s with keepComments := keep }.drain.1) ∧
      x.token ≠ .invalid ∧ x.token ≠ .eof ∧ x.token.isComment = false)
    (hgap : ∀ i, i + 1 < xs.length → IsGap (gap i)) :
    ∃ s, Source.ofBytes name (spaced gap (xs.map (·.text))) = .ok s ∧
      ∀ keep, ∃ ys final, { Scanner.ofSource s with keepComments := keep }.drain = (ys ++ [s.endMarker], final) ∧
        ys.map Lexeme.spelled = xs.map Lexeme.spelled ∧ final.diagnostics = [] := by
  have hfaithful : ∀ x ∈ xs, x.Faithful ∧ x.token ≠ .invalid := by
    intro x hx
    obtain ⟨⟨s, keep, hscanned⟩, hvalid, heof, hcomment⟩ := hxs x hx
    exact ⟨s.faithful (Source.mem_tokens_of_mem_drain hscanned heof hcomment), hvalid⟩
  have hlexes := lexes_spaced hfaithful hgap
  obtain ⟨s, hs, htext⟩ := Source.ofBytes_of_isEncoding name hlexes.isEncoding
  rw [← htext] at hlexes
  exact ⟨s, hs, Source.drain_of_lexes hlexes⟩

/-- Tokens of all kinds that touch each other, and a comment. -/
def crowdedSource : Source :=
  { name := "t", text := utf8 "if(i+++1.5/\"/*\\\" é\"/**/<=x)", wellFormed := by decide +kernel }

theorem spaced_scans_crowded :
    let xs := crowdedSource.tokens.reverse
    (∀ x ∈ xs, x ∈ { Scanner.ofSource crowdedSource with keepComments := true }.drain.1 ∧
        x.token ≠ .invalid ∧ x.token ≠ .eof ∧ x.token.isComment = false) ∧
      IsGap (utf8 "\r\n\t") ∧
      spaced (fun _ => utf8 "\r\n\t") ((xs.take 4).map (·.text))
        = utf8 ")\r\n\tx\r\n\t<=\r\n\t\"/*\\\" é\"" ∧
      ∃ s, Source.ofBytes "t" (spaced (fun _ => utf8 "\r\n\t") (xs.map (·.text))) = .ok s ∧
        ∀ keep, ∃ ys final, { Scanner.ofSource s with keepComments := keep }.drain = (ys ++ [s.endMarker], final) ∧
          ys.map Lexeme.spelled = xs.map Lexeme.spelled ∧ final.diagnostics = [] := by
  intro xs
  have hxs : ∀ x ∈ xs, x ∈ { Scanner.ofSource crowdedSource with keepComments := true }.drain.1 ∧
      x.token ≠ .invalid ∧ x.token ≠ .eof ∧ x.token.isComment = false := by decide +kernel
  have hgap : IsGap (utf8 "\r\n\t") := ⟨by decide, List.all_eq_true.1 (by decide)⟩
  refine ⟨hxs, hgap, by decide +kernel, spaced_scans xs (fun _ => utf8 "\r\n\t") "t" ?_ fun _ _ => hgap⟩
  intro x hx
  exact ⟨⟨crowdedSource, true, (hxs x hx).1⟩, (hxs x hx).2⟩

end SmallJava
