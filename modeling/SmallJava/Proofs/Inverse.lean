import SmallJava.Proofs.Grammar.Path
import SmallJava.Proofs.Language
import SmallJava.Proofs.Making.Stmt
import SmallJava.Proofs.RoundTrip

/-!
# Trees that are read back

Printing can be undone not only for trees that a parse has given. A tree that somebody has built is read back from its
printed text if every node of it is well shaped: then there are tokens that the tree is derived from, and with them the
round trip goes as for parsed trees. So two such trees with one text have the same structure.

* `Node.WellShaped` — what is asked of every node;
* `parse_text_of_sound` — the round trip of a tree that there are tokens for;
* `format_inverts` — the whole statement.
-/

namespace SmallJava

open Grammar

/-- **A well-shaped node.** It is not a bad node; it has the shape that parsed nodes have; names, types and constants
are spelled as they should be; and no expression among the statements of a body or a block starts with a brace. That no
part is missing need not be asked, since there are no such nodes. -/
@[mk_iff]
structure Node.WellShaped (n : Node) : Prop where
  whole : n.IsWhole
  shaped : n.Shaped
  spelled : n.IsSpelled
  unbraced : n.IsUnbraced

namespace Node

variable {n : Node}

/-- A node with its shape is one of the language. -/
theorem WellShaped.fits_plain (h : n.WellShaped) : n.Fits .plain := by
  unfold Fits
  split
  · exact h.whole.2 rfl
  · exact h.whole.1 rfl
  · exact .inl trivial
  · exact .inl trivial
  · trivial

/-- A node with its shape is sound in every mode that it fits. -/
theorem WellShaped.sound {m : Mode} (h : n.WellShaped) (hfits : n.Fits m) : n.Sound m :=
  ⟨hfits, h.shaped, h.spelled, h.unbraced⟩

/-- A tree of nodes that have their shape is sound in the mode of the language. -/
theorem All.sound_plain (h : n.All WellShaped) : n.All (Sound .plain) := h.mono fun _ hm => hm.sound hm.fits_plain

/-- Without improper targets and unhandled `try` statements, the tree is one of the tight grammar. -/
theorem All.sound_tight (h : n.All WellShaped) (hhandled : n.All IsHandled) (hassigns : n.All AssignsToPlace) :
    n.All (Sound .tight) := by
  have hfits : n.All (Fits .tight) :=
    (all_fits_tight_iff (h.mono fun _ hm => hm.fits_plain)).2 ⟨hhandled, hassigns⟩
  exact fun m hm => (h m hm).sound (hfits m hm)

end Node

/-! ## The round trip -/

/-- Whether anything stands in the way of printing depends on the outlines of the chunks. -/
theorem Chunk.Unhindered.congr {cs ds : List Chunk} (h : cs.map Chunk.outline = ds.map Chunk.outline)
    (hcs : Chunk.Unhindered cs) : Chunk.Unhindered ds := by
  intro d hd
  have hmem : d.outline ∈ cs.map Chunk.outline := h ▸ List.mem_map_of_mem hd
  obtain ⟨c, hc, hcd⟩ := List.mem_map.1 hmem
  obtain ⟨hobstacle, hbreakdown⟩ := hcs c hc
  simp only [Chunk.outline, Prod.mk.injEq, hobstacle, hbreakdown, Option.isNone_none] at hcd
  exact ⟨Option.isNone_iff_eq_none.1 hcd.2.1.symm, hcd.2.2.symm⟩

/-- **The round trip of a tree that there are tokens for.** -/
theorem parse_text_of_sound {m : Mode} (hm : ¬ m.errors) {p : Program} (h : (Node.program p).All (Node.Sound m)) :
    (Node.program p).format = .complete (Chunk.texts (Stmt.lines [] p.body)) ∧
      ∀ o : Options, Stmt.nestings p.body ≤ o.depthLimit → o.errorLimit? = none ∨ ¬ m.lax →
        ∃ result, parseInput o (.ok (Chunk.texts (Stmt.lines [] p.body))) = .ok result ∧
          result.program.unlocated = p.unlocated ∧
          (∀ d ∈ result.diagnostics, d.problem.isMild = true) ∧ (m.lax ∨ result.diagnostics = []) := by
  obtain ⟨xs, us, hd, hf, hsame⟩ := Node.isMade hm h
  have houtlines : (Stmt.lines [] us).map Chunk.outline = (Stmt.lines [] p.body).map Chunk.outline := by
    rw [← Stmt.outlines_lines_unlocated, hsame, Stmt.outlines_lines_unlocated]
  refine ⟨format_program ((DerivesStmt.unhindered hm hd []).congr houtlines), fun o hdepth herrors => ?_⟩
  obtain ⟨L, hlexes, hderives⟩ := DerivesProgram.lexes hm hd hf
  rw [Chunk.texts_eq houtlines] at hlexes
  have hnesting : Stmt.nestings us ≤ o.depthLimit := by
    rwa [← Stmt.nestings_unlocated, hsame, Stmt.nestings_unlocated]
  obtain ⟨result, ys, hresult, -, hbody, hmild, hlax⟩ := parse_of_lexes hlexes hderives hnesting herrors
  exact ⟨result, hresult, by simp [Program.unlocated, hbody, hsame], hmild, hlax⟩

/-- Well-shaped trees with the same text have the same structure: there is a limit on nesting that both are within, and
the parse of the text under it gives both. -/
theorem unlocated_eq_of_texts {p q : Program} (hp : (Node.program p).All Node.WellShaped)
    (hq : (Node.program q).All Node.WellShaped)
    (htexts : Chunk.texts (Stmt.lines [] q.body) = Chunk.texts (Stmt.lines [] p.body)) :
    q.unlocated = p.unlocated := by
  let o : Options := { maxDepth := (Stmt.nestings p.body + Stmt.nestings q.body + 1 : Nat) }
  have hlimit : o.depthLimit = Stmt.nestings p.body + Stmt.nestings q.body + 1 := by
    simp only [Options.depthLimit, o]
    split <;> omega
  obtain ⟨-, hparse⟩ := parse_text_of_sound id hp.sound_plain
  obtain ⟨first, hfirst, hsame, -⟩ := hparse o (by omega) (.inl rfl)
  obtain ⟨-, hparse⟩ := parse_text_of_sound id hq.sound_plain
  obtain ⟨second, hsecond, hsame', -⟩ := hparse o (by omega) (.inl rfl)
  rw [htexts, hfirst, Except.ok.injEq] at hsecond
  rw [← hsame', ← hsecond, hsame]

/-- **Printing can be undone.** A tree all of whose nodes are well shaped is printed, whoever has built it. A parse of
the text under a limit that no path of the tree exceeds gives a tree of the same structure: it differs from the first
one in locations and comments only. No problem is reported but improper targets of assignments and unhandled `try`
statements, and none at all if the tree has no such nodes; if it has some, there must be no limit on errors. So trees
with the same text have the same structure. -/
theorem format_inverts (p : Program) (hp : (Node.program p).All Node.WellShaped) :
    ∃ text, (Node.program p).format = .complete text ∧
      (∀ o : Options, (∀ path, (Node.program p).IsPath path → (Node.program p).constructs path ≤ o.depthLimit) →
        o.maxErrors ≤ 0 ∨ (Node.program p).All Node.IsHandled ∧ (Node.program p).All Node.AssignsToPlace →
        ∃ result, parseInput o (.ok text) = .ok result ∧ result.program.unlocated = p.unlocated ∧
          (∀ d ∈ result.diagnostics, d.code = .invalidAssignmentTarget ∨ d.code = .tryRequiresCatchOrFinally) ∧
          ((Node.program p).All Node.IsHandled → (Node.program p).All Node.AssignsToPlace →
            result.diagnostics = [])) ∧
      ∀ q : Program, (Node.program q).All Node.WellShaped → (Node.program q).format = .complete text →
        q.unlocated = p.unlocated := by
  obtain ⟨hformat, hplain⟩ := parse_text_of_sound id hp.sound_plain
  refine ⟨_, hformat, fun o hpaths herrors => ?_, fun q hq htext => ?_⟩
  · have hdepth := Node.constructs_le_iff.1 hpaths
    -- The tree is one of the tight grammar or not, and only in the second case the limit on errors matters.
    by_cases hproper : (Node.program p).All Node.IsHandled ∧ (Node.program p).All Node.AssignsToPlace
    · obtain ⟨-, htight⟩ := parse_text_of_sound id (hp.sound_tight hproper.1 hproper.2)
      obtain ⟨result, hresult, hsame, hmild, hlax⟩ := htight o hdepth (.inr id)
      exact ⟨result, hresult, hsame, fun d hd => Problem.code_of_isMild (hmild d hd),
        fun _ _ => hlax.resolve_left id⟩
    · have hmax : o.errorLimit? = none := if_pos (herrors.resolve_right hproper)
      obtain ⟨result, hresult, hsame, hmild, -⟩ := hplain o hdepth (.inl hmax)
      exact ⟨result, hresult, hsame, fun d hd => Problem.code_of_isMild (hmild d hd),
        fun hhandled hassigns => absurd ⟨hhandled, hassigns⟩ hproper⟩
  · obtain ⟨hformat', -⟩ := parse_text_of_sound id hq.sound_plain
    rw [hformat'] at htext
    exact unlocated_eq_of_texts hp hq (Formatted.complete.inj htext)

/-- The tree of `f() = - -1`, which no parse has given: nothing in it has a place. -/
def builtExpr : Expr :=
  .assign default .assign (.call default (.ident { location := default, name := utf8 "f" }) [])
    (.unary default .minus
      (.unary default .minus (.literal { location := default, kind := .integer, text := utf8 "1" }) .before) .before)

/-- A tree with an unhandled `try` statement and an improper target. -/
def builtProgram : Program where
  location := default
  body := [.tryCatch default (.mk default []) [] none, .expr default builtExpr]
  comments := []

theorem Literal.isScanned_one : Literal.IsScanned { location := default, kind := .integer, text := utf8 "1" } := by
  let s : Source := { name := "", text := utf8 "1", wellFormed := by decide +kernel }
  refine ⟨s, rfl, ⟨s.scan.1.headI, ?_, ?_⟩, ?_⟩ <;> decide +kernel

theorem builtExpr_wellShaped : (Node.expr builtExpr).All Node.WellShaped := by
  have hname : IsName (utf8 "f") :=
    ⟨Lexicon.mem_oneOf_mul_kstar_iff.2 ⟨byte 'f', [], by decide +kernel⟩, by decide +kernel⟩
  simp [builtExpr, @Node.all_iff _ (.expr _), Node.wellShaped_iff, Node.IsWhole, Node.Shaped, Node.OwnShape,
    Node.IsSpelled, Node.IsUnbraced, Node.children, Expr.children, Node.kind, Expr.kind, Expr.Shaped, Token.isAssign,
    Token.isLiteral, Parser.isPrefixOperator, hname, Literal.isScanned_one]

theorem builtProgram_wellShaped : (Node.program builtProgram).All Node.WellShaped := by
  have hunbraced : builtExpr.text.head? ≠ some (byte '\x7b') := by decide +kernel
  simp [builtProgram, @Node.all_iff _ (.program _), @Node.all_iff _ (.stmt _), Node.wellShaped_iff, Node.IsWhole,
    Node.Shaped, Node.OwnShape, Node.StandsBelow, Node.IsSpelled, Node.IsUnbraced, Stmt.IsUnbraced, Node.children,
    Stmt.children, Block.node, Node.kind, Stmt.kind, Stmt.Shaped, hunbraced, builtExpr_wellShaped]

theorem format_inverts_builtProgram :
    (Node.program builtProgram).All Node.WellShaped ∧
      (Node.program builtProgram).format = .complete (utf8 "try \x7b\x7d\nf() = - -1;\n") ∧
      ∃ result, parseInput {} (.ok (utf8 "try \x7b\x7d\nf() = - -1;\n")) = .ok result ∧
        result.program.unlocated = builtProgram.unlocated ∧
        ∀ d ∈ result.diagnostics, d.code = .invalidAssignmentTarget ∨ d.code = .tryRequiresCatchOrFinally := by
  obtain ⟨text, htext, hparse, -⟩ := format_inverts builtProgram builtProgram_wellShaped
  have hwritten : text = utf8 "try \x7b\x7d\nf() = - -1;\n" := by
    rw [show text = (Node.program builtProgram).format.textOrEmpty by rw [htext]; rfl]
    decide +kernel
  subst hwritten
  have hnesting : (Node.program builtProgram).nesting ≤ ({} : Options).depthLimit := by decide +kernel
  obtain ⟨result, hresult, hsame, hcodes, -⟩ := hparse {} (Node.constructs_le_iff.2 hnesting) (.inl le_rfl)
  exact ⟨builtProgram_wellShaped, htext, result, hresult, hsame, hcodes⟩

end SmallJava
