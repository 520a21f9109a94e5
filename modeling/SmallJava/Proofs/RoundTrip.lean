import Mathlib.Data.List.TakeWhile
import SmallJava.Proofs.Accepting.Program
import SmallJava.Proofs.Grammar.Fitting
import SmallJava.Proofs.Printing.Stmt
import SmallJava.Proofs.Reading.Program
import SmallJava.Proofs.Sorting

/-!
# Parsing what was printed

A tree without bad nodes can be printed, and the printed text is parsed to the same structure, whatever was wrong with
the text that the tree came from: what stands in the tree is derived from tokens, and those are printed.

* `parse_derives_whole` — a parse without bad nodes is a derivation without them;
* `format_program` — what can be printed is printed as a whole;
* `parse_of_lexes` — what is parsed of a text made of tokens;
* `parse_format` — the whole statement.
-/

namespace SmallJava

open Grammar

/-! ## The first parse -/

/-- The node stands for text that was understood. -/
def Node.IsWhole (n : Node) : Prop := n.kind ≠ .badStmt ∧ n.kind ≠ .badExpr

theorem Node.Fits.whole {m : Mode} {n : Node} (h : n.Fits m) (hn : n.IsWhole) : n.Fits { m with errors := False } := by
  unfold Fits at h ⊢
  split
  · exact hn.2 rfl
  · exact hn.1 rfl
  · exact h
  · exact h
  · trivial

/-- The productions that a tree without bad nodes needs: braces may be left open, and tokens may be given up. -/
def Grammar.Mode.whole (lax : Prop) : Mode := { errors := False, opens := True, halts := True, lax := lax }

/-- **A parse without bad nodes is a derivation without them**, and a proper one if no problem was found. -/
theorem parse_derives_whole {o : Options} {s : Source} (h : (Node.program (parse o s).program).All Node.IsWhole) :
    DerivesProgram (.whole ((parse o s).diagnostics ≠ [])) s.tokens (parse o s).program.body := by
  obtain ⟨final, -, hdiagnostics, -, -, hderives⟩ := parse_reads o s
  have hlax : final.problems ≠ [] → (parse o s).diagnostics ≠ [] := by
    intro hproblems hnil
    have hboth : s.faults = [] ∧ final.problems = [] := by simpa [hdiagnostics] using hnil
    exact hproblems hboth.2
  have hd := hderives { Mode.lenient with lax := (parse o s).diagnostics ≠ [] }
    ⟨fun _ => trivial, fun _ => trivial, fun _ _ => trivial, hlax⟩
  refine hd.refit (fun _ => trivial) (fun _ => trivial) fun t ht n hn => ?_
  have hwhole := h.child (c := .stmt t) (by simpa [Node.children] using ht)
  exact (hd.fits t ht n hn).whole (hwhole n hn)

/-! ## Printing -/

theorem writeChunks_of_unhindered {cs : List Chunk} (h : Chunk.Unhindered cs) :
    writeChunks cs = .complete (Chunk.texts cs) := by
  have hfind : cs.findSome? (·.obstacle) = none := List.findSome?_eq_none_iff.2 fun c hc => (h c hc).1
  have htake : cs.takeWhile (·.obstacle.isNone) = cs :=
    List.takeWhile_eq_self_iff.2 fun c hc => by simp [(h c hc).1]
  simp [writeChunks, hfind, htake, Chunk.texts]

/-- What can be printed is printed as a whole. -/
theorem format_program {p : Program} (h : Chunk.Unhindered (Stmt.lines [] p.body)) :
    (Node.program p).format = .complete (Chunk.texts (Stmt.lines [] p.body)) := by
  have hfind : (Stmt.lines [] p.body).findSome? (·.breakdown) = none :=
    List.findSome?_eq_none_iff.2 fun c hc => (h c hc).2
  simp [Node.format, Node.chunks, hfind, writeChunks_of_unhindered h]

/-- The printed text of a derived program is made of tokens that are derived to the same structure. -/
theorem Grammar.DerivesProgram.lexes {m : Mode} {xs : List Lexeme} {ts : List Stmt} (hm : ¬ m.errors)
    (h : DerivesProgram m xs ts) (hf : ∀ x ∈ xs, x.Faithful) :
    ∃ L, Lexes (Chunk.texts (Stmt.lines [] ts)) L ∧
      ∀ ys : List Lexeme, ys.map Lexeme.spelled = L →
        ∃ us, DerivesProgram m.exact ys us ∧ Stmt.unlocatedAll us = Stmt.unlocatedAll ts := by
  obtain ⟨L, hL⟩ := DerivesStmt.reprints hm h hf
  refine ⟨L, ?_, hL.derives⟩
  simpa [StmtSymbol.chunks] using hL.prints [] rfl [] [] trivial .nil

/-! ## The second parse -/

theorem Source.read_of_isEncoding (name : String) {text : Bytes} (h : Utf8.IsEncoding text) :
    ∃ s : Source, Source.read name (.ok text) = .ok s ∧ s.text = text := by
  obtain ⟨s, hs, htext⟩ := Source.ofBytes_of_isEncoding name h
  refine ⟨s, ?_, htext⟩
  rw [read, hs]
  rfl

theorem Problem.code_of_isMild {p : Problem} (h : p.isMild = true) :
    p.code = .invalidAssignmentTarget ∨ p.code = .tryRequiresCatchOrFinally := by
  cases p <;> first | exact .inl rfl | exact .inr rfl | cases h

/-- **What is parsed of a text made of tokens.** If the tokens are those that a tree is derived from, then the text is
parsed to that tree, unless there is a limit on errors that the tree might reach. -/
theorem parse_of_lexes {m : Mode} {text : Bytes} {L : List Spelled} {ts : List Stmt} {o : Options}
    (hlexes : Lexes text L)
    (hderives : ∀ ys : List Lexeme, ys.map Lexeme.spelled = L →
      ∃ us, DerivesProgram m.exact ys us ∧ Stmt.unlocatedAll us = Stmt.unlocatedAll ts)
    (hdepth : Stmt.nestings ts ≤ o.depthLimit) (herrors : o.errorLimit? = none ∨ ¬ m.lax) :
    ∃ second ys, parseInput o (.ok text) = .ok second ∧ DerivesProgram m.exact ys second.program.body ∧
      Stmt.unlocatedAll second.program.body = Stmt.unlocatedAll ts ∧
      (∀ d ∈ second.diagnostics, d.problem.isMild = true) ∧ (m.lax ∨ second.diagnostics = []) := by
  obtain ⟨s, hread, htext⟩ := Source.read_of_isEncoding o.name hlexes.isEncoding
  subst htext
  obtain ⟨hfaults, htokens⟩ := hlexes.source
  obtain ⟨us, hus, hsame⟩ := hderives s.tokens htokens
  have hnesting : Stmt.nestings us ≤ o.depthLimit := by
    rwa [← Stmt.nestings_unlocated, hsame, Stmt.nestings_unlocated]
  have hbears : (o.setup s).Bears m.exact := herrors
  obtain ⟨hbody, ps, hps, hmild, hlax⟩ := parse_eq_of_derives ⟨id, id, id⟩ hbears hus hnesting
  refine ⟨parse o s, s.tokens, by simp [parseInput, hread, Except.map], hbody ▸ hus, hbody ▸ hsame, ?_, ?_⟩
  · simpa [hps, hfaults] using hmild
  · exact hlax.imp_right fun hnil => by simp [hps, hfaults, hnil]

/-- What is parsed of a printed text, without a limit on errors. -/
theorem parse_printed {m : Mode} {text : Bytes} {L : List Spelled} {ts : List Stmt} {o : Options}
    (hlexes : Lexes text L)
    (hderives : ∀ ys : List Lexeme, ys.map Lexeme.spelled = L →
      ∃ us, DerivesProgram m.exact ys us ∧ Stmt.unlocatedAll us = Stmt.unlocatedAll ts)
    (hdepth : Stmt.nestings ts ≤ o.depthLimit) (herrors : o.maxErrors = 0) :
    ∃ second ys, parseInput o (.ok text) = .ok second ∧ DerivesProgram m.exact ys second.program.body ∧
      Stmt.unlocatedAll second.program.body = Stmt.unlocatedAll ts ∧
      (∀ d ∈ second.diagnostics, d.problem.isMild = true) ∧ (m.lax ∨ second.diagnostics = []) :=
  parse_of_lexes hlexes hderives hdepth (.inl (by simp [Options.errorLimit?, herrors]))

/-- **Round trip.** If the tree of a parse has no bad nodes, then it can be printed. A parse of the printed text that
allows for the same nesting and for any number of errors gives a tree of the same structure: it differs from the
first one in locations and comments only. The second parse finds no problems but improper targets of assignments and
unhandled `try` statements, and none at all if the first parse found none; and its tree is printed to the same
text. -/
theorem parse_format (o : Options) (s : Source)
    (hwhole : ∀ n ∈ (Node.program (parse o s).program).preorder, n.kind ≠ .badStmt ∧ n.kind ≠ .badExpr) :
    ∃ text, (Node.program (parse o s).program).format = .complete text ∧
      ∀ again : Options, again.maxDepth = o.maxDepth → again.maxErrors = 0 →
        ∃ second, parseInput again (.ok text) = .ok second ∧
          second.program.unlocated = (parse o s).program.unlocated ∧
          (∀ d ∈ second.diagnostics, d.code = .invalidAssignmentTarget ∨ d.code = .tryRequiresCatchOrFinally) ∧
          ((parse o s).diagnostics = [] → second.diagnostics = []) ∧
          (Node.program second.program).format = .complete text := by
  have hd := parse_derives_whole hwhole
  obtain ⟨L, hlexes, hderives⟩ := hd.lexes id fun x hx => s.faithful hx
  refine ⟨_, format_program (hd.unhindered id []), fun again hmax herrors => ?_⟩
  have hdepth : Stmt.nestings (parse o s).program.body ≤ again.depthLimit := by
    obtain ⟨-, -, -, -, hnesting, -⟩ := parse_reads o s
    simpa [Options.depthLimit, hmax] using hnesting
  obtain ⟨second, ys, hsecond, hus, hsame, hmild, hlax⟩ := parse_printed hlexes hderives hdepth herrors
  refine ⟨second, hsecond, by simp [Program.unlocated, hsame], fun d hd => Problem.code_of_isMild (hmild d hd),
    fun hnone => hlax.resolve_left (not_not_intro hnone), ?_⟩
  rw [format_program (hus.unhindered id []), ← Stmt.texts_lines_unlocated, hsame, Stmt.texts_lines_unlocated]

/-- A text with a character that is skipped, a block that is left open, a `try` statement without a handler behind which
the parse is halted by the limit on errors, and an assignment to a call. -/
def haltedSource : Source :=
  { name := "", text := utf8 "#\x7btry\x7bf()=- -a;\x7d ) x", wellFormed := by decide +kernel }

theorem parse_format_halted :
    (parse { maxErrors := 2 } haltedSource).diagnostics.map (·.code)
        = [.unexpectedCharacter, .tryRequiresCatchOrFinally, .tooManyErrors, .invalidAssignmentTarget] ∧
      (∀ n ∈ (Node.program (parse { maxErrors := 2 } haltedSource).program).preorder,
        n.kind ≠ .badStmt ∧ n.kind ≠ .badExpr) ∧
      ∃ text, (Node.program (parse { maxErrors := 2 } haltedSource).program).format = .complete text ∧
        ∃ second, parseInput {} (.ok text) = .ok second ∧
          second.program.unlocated = (parse { maxErrors := 2 } haltedSource).program.unlocated ∧
          (∀ d ∈ second.diagnostics, d.code = .invalidAssignmentTarget ∨ d.code = .tryRequiresCatchOrFinally) ∧
          (Node.program second.program).format = .complete text := by
  have hwhole : ∀ n ∈ (Node.program (parse { maxErrors := 2 } haltedSource).program).preorder,
      n.kind ≠ .badStmt ∧ n.kind ≠ .badExpr := by
    decide +kernel
  refine ⟨by decide +kernel, hwhole, ?_⟩
  obtain ⟨text, htext, hagain⟩ := parse_format { maxErrors := 2 } haltedSource hwhole
  obtain ⟨second, hsecond, hsame, hcodes, -, hformat⟩ := hagain {} rfl rfl
  exact ⟨text, htext, second, hsecond, hsame, hcodes, hformat⟩

end SmallJava
