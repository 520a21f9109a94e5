import SmallJava.Proofs.Language
import SmallJava.Proofs.RoundTrip
import SmallJava.Proofs.Steps

/-!
# Nothing fails silently

Bad nodes stand for text that was not understood. Some of them are made without a report of their own: behind a
malformed token nothing is reported, since the scanner has done so, and nothing is reported once the parse has been
halted, since there was a reason to halt it. Still, a tree with a bad node never comes without an error.

* `parse_severity` — all that a parse reports are errors, because each step of it adds nothing else;
* `whole_of_parse` — a parse that reports nothing has understood all of the text;
* `parse_reports_bad` — the two together, and what they mean for printing.
-/

namespace SmallJava

open Grammar

/-! ## What is reported -/

namespace State

variable {setup : Setup} {s s' : State}

/-- What is new among the problems after a report is an error in the text at hand. -/
theorem mem_problems_report {p : Problem} {loc : Location} {d : Diagnostic}
    (h : d ∈ (s.report setup p loc).problems) :
    d ∈ s.problems ∨ d.severity = .error ∧ d.source = setup.name := by
  cases hs : s.halted with
  | true =>
    rw [report_of_halted hs] at h
    exact .inl h
  | false =>
    obtain ⟨more, hproblems, hmore⟩ := problems_report hs p loc
    rw [hproblems, List.mem_append, List.mem_cons] at h
    rcases h with h | rfl | h
    · exact .inl h
    · exact .inr ⟨rfl, rfl⟩
    · -- the limit on errors is reached, which is a problem too
      rw [hmore d h]
      exact .inr ⟨rfl, rfl⟩

/-- All problems are errors in the text at hand. -/
def ReportsErrors (setup : Setup) (s : State) : Prop :=
  ∀ d ∈ s.problems, d.severity = .error ∧ d.source = setup.name

theorem Step.reportsErrors (h : Step setup s s') (hs : s.ReportsErrors setup) : s'.ReportsErrors setup := by
  have hreport : ∀ p loc, (s.report setup p loc).ReportsErrors setup := by
    intro p loc d hd
    rcases mem_problems_report hd with hd | hd
    · exact hs d hd
    · exact hd
  cases h with
  | next => exact hs
  | skip n => exact hs
  | note e => exact hs
  | report p loc hp => exact hreport p loc
  | halt =>
    intro d hd
    rw [stop_problems] at hd
    exact hreport _ _ d hd

end State

theorem Source.severity_of_mem_faults {s : Source} {d : Diagnostic} (h : d ∈ s.faults) : d.severity = .error := by
  obtain ⟨p, -, hp⟩ := List.mem_flatMap.1 h
  unfold Piece.diagnostics at hp
  split at hp
  · cases hp
  · rw [List.mem_singleton.1 hp]

/-- **All diagnostics of a parse are errors.** -/
theorem parse_severity {o : Options} {s : Source} {d : Diagnostic} (h : d ∈ (parse o s).diagnostics) :
    d.severity = .error := by
  obtain ⟨final, hrun, hdiagnostics, -⟩ := parse_reads o s
  have hfinal : final.ReportsErrors (o.setup s) :=
    ((Parser.walks.topStmts o.depthLimit).ok hrun).keeps (fun _ _ => State.Step.reportsErrors) fun d hd => nomatch hd
  have hmem : d ∈ s.faults ∨ d ∈ final.problems := by simpa [hdiagnostics] using h
  rcases hmem with hd | hd
  · exact Source.severity_of_mem_faults hd
  · exact (hfinal d hd).1

/-! ## What is understood -/

/-- In a derivation without error productions there are no bad nodes. -/
theorem Node.Fits.isWhole {m : Mode} (hm : ¬ m.errors) {n : Node} (h : n.Fits m) : n.IsWhole := by
  cases n with
  | stmt t =>
    cases t with
    | bad loc => exact absurd h hm
    | _ => exact ⟨by simp [kind, Stmt.kind], by simp [kind, Stmt.kind]⟩
  | expr x =>
    cases x with
    | bad loc => exact absurd h hm
    | _ => exact ⟨by simp [kind, Expr.kind], by simp [kind, Expr.kind]⟩
  | _ => exact ⟨by simp [kind], by simp [kind]⟩

/-- **A parse that reports nothing has understood all of the text.** -/
theorem whole_of_parse {o : Options} {s : Source} (h : (parse o s).diagnostics = []) :
    (Node.program (parse o s).program).All Node.IsWhole := by
  have hd := (wellFormed_of_parse h).2.derived
  refine Node.all_iff.2 ⟨⟨by simp [Node.kind], by simp [Node.kind]⟩, fun c hc => ?_⟩
  obtain ⟨t, ht, rfl⟩ : ∃ t ∈ (parse o s).program.body, c = .stmt t := by
    simpa [Node.children, eq_comm] using hc
  exact (hd.fits t ht).mono fun n => Node.Fits.isWhole id

/-- **Nothing fails silently.** If the tree of a parse has a bad node, then there is an error among the diagnostics. So
the tree of a parse without diagnostics can be printed. -/
theorem parse_reports_bad (o : Options) (s : Source) :
    ((∃ n ∈ (Node.program (parse o s).program).preorder, n.kind = .badStmt ∨ n.kind = .badExpr) →
      ∃ d ∈ (parse o s).diagnostics, d.severity = .error) ∧
    ((parse o s).diagnostics = [] → ∃ text, (Node.program (parse o s).program).format = .complete text) := by
  constructor
  · rintro ⟨n, hn, hbad⟩
    have hne : (parse o s).diagnostics ≠ [] := by
      intro hnil
      obtain ⟨hstmt, hexpr⟩ := whole_of_parse hnil n hn
      exact hbad.elim hstmt hexpr
    obtain ⟨d, hd⟩ := List.exists_mem_of_ne_nil _ hne
    exact ⟨d, hd, parse_severity hd⟩
  · intro hnil
    exact ⟨_, format_program ((wellFormed_of_parse hnil).2.derived.unhindered id [])⟩

end SmallJava
