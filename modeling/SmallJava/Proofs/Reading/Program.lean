import SmallJava.Proofs.Lexical.Tokens
import SmallJava.Proofs.Reading.Stmt

/-!
# What a parse reads

A parse of a source reads all its tokens without bailing out, and its tree is derived from them in every mode that
the problems found allow.
-/

namespace SmallJava

open Grammar

/-- **A parse is a derivation.** The parser takes all tokens of the source, the tree is no deeper than the limit, and
it is derived from the tokens. -/
theorem parse_reads (o : Options) (s : Source) :
    ∃ final, Parser.topStmts o.depthLimit (o.setup s) { rest := s.tokens } = .ok (parse o s).program.body final ∧
      (parse o s).diagnostics = Diagnostics.merge [s.faults, final.problems] ∧
      ({ rest := s.tokens } : State).Takes s.tokens final ∧
      Stmt.nestings (parse o s).program.body ≤ o.depthLimit ∧
      ∀ m : Mode, m.Admits (o.setup s) s.tokens final → DerivesProgram m s.tokens (parse o s).program.body := by
  have hw := s.suits o
  obtain ⟨stmts, final, hrun⟩ := Parser.topStmts_succeeds hw o.depthLimit s.at_start
  obtain ⟨xs, ht, hpost⟩ := (Parser.reads_topStmts hw o.depthLimit s.at_start).ok hrun
  obtain ⟨rfl, -, hn⟩ := hpost .lenient Mode.admits_lenient
  have hbody : (parse o s).program.body = stmts := by
    simp [parse, readStatements, hrun]
  have hdiagnostics : (parse o s).diagnostics = Diagnostics.merge [s.faults, final.problems] := by
    simp [parse, readStatements, hrun]
  rw [hbody]
  exact ⟨final, hrun, hdiagnostics, ht, hn, fun m hm => (hpost m hm).2.1⟩

end SmallJava
