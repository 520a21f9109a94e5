import SmallJava.Parse
import SmallJava.Proofs.Lexical.Pieces
import SmallJava.Proofs.Reading.Logic

/-!
# The tokens of a source

The tokens of a source stand in its text in order, none of them is empty, each is located where it stands, and a
malformed one is reported as a fault. So a parse starts from what the logic of parsers asks for:
`Source.suits` and `Source.at_start`.
-/

namespace SmallJava

open Grammar

namespace Source

/-- The token `x` stands in the source. -/
structure Holds (s : Source) (x : Lexeme) : Prop where
  located : x.location = s.location x.location.span
  start_nonneg : 0 ≤ x.location.span.start
  nonempty : x.location.span.start < x.location.span.stop
  stop_le : x.location.span.stop ≤ s.size

/-- Pieces lie within the text. -/
theorem piece_within (s : Source) {p : Piece} (hp : p ∈ s.pieces) : p.Within 0 s.size := by
  simpa [size] using (piecesFrom_within 0 s.text).1 p hp

/-- Each lexeme stands in the source, and is no end marker. -/
theorem holds_of_mem_lexemes (s : Source) {x : Lexeme} (hx : x ∈ s.lexemes) : s.Holds x ∧ x.token ≠ .eof := by
  obtain ⟨p, hp, hpx⟩ := List.mem_filterMap.1 hx
  obtain ⟨t, ht, rfl⟩ := Option.map_eq_some_iff.1 hpx
  have hw := s.piece_within hp
  have hlen := List.length_pos_iff.2 hw.nonempty
  have hstop := hw.le_stop
  refine ⟨⟨rfl, Int.natCast_nonneg _, ?_, ?_⟩, ?_⟩
  · simp only [location]
    omega
  · simp only [location]
    omega
  · rintro rfl
    exact hw.token.1 ht

/-- Lexemes stand one behind the other. -/
theorem lexemes_sorted (s : Source) :
    s.lexemes.Pairwise fun x y => x.location.span.stop ≤ y.location.span.start := by
  refine List.Pairwise.filterMap _ ?_ (piecesFrom_within 0 s.text).2
  intro p q hpq x hx y hy
  obtain ⟨t, -, rfl⟩ := Option.map_eq_some_iff.1 hx
  obtain ⟨u, -, rfl⟩ := Option.map_eq_some_iff.1 hy
  simp only [location]
  omega

theorem mem_lexemes_of_mem_tokens (s : Source) {x : Lexeme} (hx : x ∈ s.tokens) : x ∈ s.lexemes :=
  (List.mem_filter.1 hx).1

theorem holds_of_mem_tokens (s : Source) {x : Lexeme} (hx : x ∈ s.tokens) : s.Holds x :=
  (s.holds_of_mem_lexemes (s.mem_lexemes_of_mem_tokens hx)).1

theorem token_ne_eof (s : Source) {x : Lexeme} (hx : x ∈ s.tokens) : x.token ≠ .eof :=
  (s.holds_of_mem_lexemes (s.mem_lexemes_of_mem_tokens hx)).2

/-- Tokens are not empty, and stand one behind the other. -/
theorem tokens_ordered (s : Source) : Ordered s.tokens where
  nonempty _ hx := (s.holds_of_mem_tokens hx).nonempty
  sorted := s.lexemes_sorted.filter _

/-- The tokens of a source are what a parser may rely on. -/
theorem suits (s : Source) (o : Options) : (o.setup s).Suits s.tokens where
  eof := rfl
  tokens _ hx := s.token_ne_eof hx
  ordered := s.tokens_ordered
  before _ hx := (s.holds_of_mem_tokens hx).stop_le

/-- A parse starts before all tokens. -/
theorem at_start (s : Source) : ({ rest := s.tokens } : State).At s.tokens where
  place := ⟨[], rfl, rfl⟩
  halted h := nomatch h

/-- A malformed token has been reported. -/
theorem faults_ne_nil (s : Source) {x : Lexeme} (hx : x ∈ s.tokens) (hi : x.token = .invalid) : s.faults ≠ [] := by
  obtain ⟨p, hp, hpx⟩ := List.mem_filterMap.1 (s.mem_lexemes_of_mem_tokens hx)
  obtain ⟨t, ht, rfl⟩ := Option.map_eq_some_iff.1 hpx
  have hfault := (s.piece_within hp).token.2 (ht.trans (congrArg some hi))
  obtain ⟨f, hf⟩ := Option.ne_none_iff_exists'.1 hfault
  intro hnil
  have := List.flatMap_eq_nil_iff.1 hnil p hp
  simp [Piece.diagnostics, hf] at this

end Source

end SmallJava
