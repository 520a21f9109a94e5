import SmallJava.Proofs.Accounting.Stmt
import SmallJava.Proofs.Lexical.Coverage
import SmallJava.Proofs.Reading.Program
import SmallJava.Proofs.Sorting

/-!
# What is reported of a source

The account of a whole source (`readStatements_account`), and what it says about the problems one by one: the scanner
and the parser have codes of their own, and all problems are located in the source (`located_of_mem_diagnostics`).
-/

namespace SmallJava

/-- The tokens of a source, as a parse with given options reads them. -/
def Options.row (o : Options) (s : Source) : Row := ⟨o.setup s, s.tokens, s.suits o, Int.le_refl _⟩

/-- **A source is accounted for.** The marks of the statements match what the parser reports. -/
theorem readStatements_account (o : Options) (s : Source) :
    (o.row s).Account (Node.marksOf ((readStatements o s).1.map .stmt)) { rest := s.tokens } (readStatements o s).2 := by
  obtain ⟨final, hrun, -⟩ := parse_reads o s
  have hread : readStatements o s = ((parse o s).program.body, final) := by rw [readStatements, hrun]
  rw [hread]
  exact (o.row s).account_topStmts o.depthLimit hrun

/-- What is reported by the parser. -/
theorem readStatements_reported (o : Options) (s : Source) :
    ∀ d ∈ (readStatements o s).2.problems, (o.row s).Reported s.tokens d := by
  obtain ⟨final, hrun, -⟩ := parse_reads o s
  have hfinal : (readStatements o s).2 = final := by rw [readStatements, hrun]
  rw [hfinal]
  exact (o.row s).reported_topStmts o.depthLimit hrun

/-- The diagnostics of a parse are those of the scanner and those of the parser. -/
theorem mem_diagnostics_iff {o : Options} {s : Source} {d : Diagnostic} :
    d ∈ (parse o s).diagnostics ↔ d ∈ s.faults ∨ d ∈ (readStatements o s).2.problems := by
  show d ∈ Diagnostics.merge [s.faults, (readStatements o s).2.problems] ↔ _
  simp

/-! ## Lexical problems -/

theorem isLexical_of_cut {b : UInt8} {r : Bytes} {p : Problem} {n : Nat} (h : (cut b r).fault = some (p, n)) :
    p.code.isLexical = true := by
  cases faultKind h <;> rfl

/-- What the scanner reports has a lexical code. -/
theorem Source.isLexical_of_mem_faults {s : Source} {d : Diagnostic} (h : d ∈ s.faults) : d.code.isLexical = true := by
  obtain ⟨p, hp, q, n, hfault, rfl⟩ := s.mem_faults_iff.1 h
  obtain ⟨_, b, r, -, -, -, hcut⟩ := exists_cut_of_mem_piecesFrom hp
  exact isLexical_of_cut (hcut.symm.trans hfault)

/-! ## Places -/

/-- The location is that of a span of the source. -/
def Source.Locates (s : Source) (loc : Location) : Prop :=
  0 ≤ loc.span.start ∧ loc.span.start ≤ loc.span.stop ∧ loc.span.stop ≤ s.size ∧ loc = s.location loc.span

/-- What the scanner reports lies in the text. -/
theorem Source.located_of_mem_faults {s : Source} {d : Diagnostic} (h : d ∈ s.faults) : s.Locates d.location := by
  obtain ⟨-, u, v, htext, hstop, -⟩ := s.fault_boundaries h
  obtain ⟨p, hp, q, n, -, rfl⟩ := s.mem_faults_iff.1 h
  have hle : (p.start : Int) + n ≤ s.size := by
    rw [show (p.start : Int) + n = u.length from hstop.symm, Source.size, htext, List.length_append]
    omega
  exact ⟨Int.natCast_nonneg _, by simp only [Source.location]; omega, hle, rfl⟩

/-- The tokens of a source stand in it, and so does the marker behind them. -/
theorem Options.located_of_has {o : Options} {s : Source} {x : Lexeme} (h : (o.row s).Has x) :
    0 ≤ x.location.span.start ∧ x.location.span.stop ≤ s.size ∧ x.location = s.location x.location.span := by
  rcases List.mem_append.1 h with hx | hx
  · have hholds := s.holds_of_mem_tokens hx
    exact ⟨hholds.start_nonneg, hholds.stop_le, hholds.located⟩
  · rw [List.mem_singleton.1 hx]
    exact ⟨Int.natCast_nonneg _, Int.le_refl _, rfl⟩

/-- What the parser reports lies in the text. -/
theorem Row.Reported.located {o : Options} {s : Source} {d : Diagnostic} (h : (o.row s).Reported s.tokens d) :
    s.Locates d.location := by
  have hle := Row.Reported.start_le_stop h
  obtain ⟨x, y, hx, hy, hloc⟩ := Row.Reported.spans h
  obtain ⟨hstart, -, hx⟩ := Options.located_of_has hx
  obtain ⟨-, hstop, hy⟩ := Options.located_of_has hy
  rw [hloc] at hle ⊢
  refine ⟨hstart, hle, hstop, ?_⟩
  have hfirst : x.location.first = s.lineCol x.location.span.start := congrArg Location.first hx
  have hlast : y.location.last = s.lineCol y.location.span.stop := congrArg Location.last hy
  rw [Location.through, hfirst, hlast]
  rfl

/-- **All that is reported of a source is located in it.** -/
theorem located_of_mem_diagnostics {o : Options} {s : Source} {d : Diagnostic} (h : d ∈ (parse o s).diagnostics) :
    s.Locates d.location := by
  rcases mem_diagnostics_iff.1 h with hd | hd
  · exact Source.located_of_mem_faults hd
  · exact (readStatements_reported o s d hd).located

end SmallJava
