import SmallJava.Proofs.Accounting.Program
import SmallJava.Proofs.Limits

/-!
# The diagnostics of a parse

The scanner goes over the whole text, whatever the parser makes of it, and the parser has codes of its own. So the
lexical problems of a parse are those of a scan, and putting both kinds in order does not change their order, since no
two of them start at the same place.

* `parse_attributes` — each diagnostic is an error in the source, and located there;
* `parse_diagnostics` — all of this, with the order.
-/

namespace SmallJava

variable {o : Options} {s : Source}

/-- **Each diagnostic is an error of the source.** -/
theorem parse_attributes {d : Diagnostic} (h : d ∈ (parse o s).diagnostics) :
    d.severity = .error ∧ d.source = s.name ∧ s.Locates d.location := by
  refine ⟨parse_severity h, ?_, located_of_mem_diagnostics h⟩
  rcases mem_diagnostics_iff.1 h with hd | hd
  · obtain ⟨p, -, q, n, -, rfl⟩ := s.mem_faults_iff.1 hd
    rfl
  · have hreports : (readStatements o s).2.ReportsErrors (o.setup s) :=
      (readStatements_steps o s).1.keeps (fun _ _ => State.Step.reportsErrors) fun d hd => nomatch hd
    exact (hreports d hd).2

/-- The diagnostics are in the order of the text. -/
theorem diagnostics_ascending (hsize : s.size < 0x8000000000000000) :
    (parse o s).diagnostics.Pairwise fun d e => d.location.span.start ≤ e.location.span.start := by
  have hrange : ∀ d ∈ [s.faults, (readStatements o s).2.problems].flatten,
      0 ≤ d.start ∧ d.start < 0x8000000000000000 := by
    intro d hd
    have := start_within o s d hd
    omega
  exact (Diagnostics.merge_orders hrange).ascending

/-- No two lexical problems start at the same place. -/
theorem Source.eq_of_mem_faults {d e : Diagnostic} (hd : d ∈ s.faults) (he : e ∈ s.faults)
    (h : d.location.span.start = e.location.span.start) : d = e := by
  by_contra hne
  have hapart : s.faults.Pairwise fun d e => d.location.span.start ≠ e.location.span.start :=
    s.faults_sorted.imp fun hlt => Int.ne_of_lt hlt
  have hsymm : Std.Symm fun d e : Diagnostic => d.location.span.start ≠ e.location.span.start :=
    ⟨fun _ _ hne => hne.symm⟩
  exact hapart.forall hd he hne h

/-- **The lexical problems among the diagnostics**, in order, are those of the scanner. -/
theorem lexical_diagnostics (hsize : s.size < 0x8000000000000000) :
    (parse o s).diagnostics.filter (·.code.isLexical) = s.faults := by
  have hperm : ((parse o s).diagnostics.filter (·.code.isLexical)).Perm s.faults := by
    have hmerged : ((parse o s).diagnostics.filter (·.code.isLexical)).Perm
        ([s.faults, (readStatements o s).2.problems].flatten.filter (·.code.isLexical)) :=
      (Diagnostics.merge_perm _).filter _
    have hfaults : s.faults.filter (·.code.isLexical) = s.faults :=
      List.filter_eq_self.2 fun d hd => Source.isLexical_of_mem_faults hd
    have hproblems : (readStatements o s).2.problems.filter (·.code.isLexical) = [] := by
      refine List.filter_eq_nil_iff.2 fun d hd => ?_
      simp [(readStatements_reported o s d hd).code]
    simpa [hfaults, hproblems] using hmerged
  refine hperm.eq_of_pairwise ?_ ((diagnostics_ascending hsize).filter _) (s.faults_sorted.imp fun hlt => Int.le_of_lt hlt)
  intro d e hd he hde hed
  exact Source.eq_of_mem_faults (hperm.mem_iff.1 hd) he (Int.le_antisymm hde hed)

/-- **The diagnostics of a parse are complete, located and ordered.** With any options, each of them is an error, has the
name of the source, and a span in the source with the location of that span. They are ordered by where they start, and
those with a lexical code are, in this order, what the scanner reports when it goes over the whole source. Offsets are
compared as machine words, so the order takes a text of less than 2⁶³ bytes. No parse ends before the scanner does: no
token is left, also when the parse was halted, and then the scanner of the stream that the tokens were taken from, with
any looking ahead, has reported what a scanner of the whole source reports. The diagnostics are these and the problems
of the parser. -/
theorem parse_diagnostics (o : Options) (s : Source) :
    (∀ d ∈ (parse o s).diagnostics, d.severity = .error ∧ d.source = s.name ∧
      0 ≤ d.location.span.start ∧ d.location.span.start ≤ d.location.span.stop ∧ d.location.span.stop ≤ s.size ∧
      d.location = s.location d.location.span) ∧
    (s.size < 0x8000000000000000 →
      ((parse o s).diagnostics.Pairwise fun d e => d.location.span.start ≤ e.location.span.start) ∧
      (parse o s).diagnostics.filter (·.code.isLexical) = s.scan.2.diagnostics) ∧
    (readStatements o s).2.rest = [] ∧
    ∀ calls : List Stream.Call, (∀ call ∈ calls, call.sets = false) →
      s.tokens.length ≤ calls.count .next + (readStatements o s).2.rest.length →
      let ended := ((Stream.ofSource s).listen o.keepComments).run (calls ++ [.token])
      ended.2.scanner.diagnostics = s.scan.2.diagnostics ∧
      (parse o s).diagnostics = Diagnostics.merge [ended.2.scanner.diagnostics, (readStatements o s).2.problems] := by
  have hscan : s.scan.2.diagnostics = s.faults := by
    rw [s.scan_eq]
    rfl
  refine ⟨fun d hd => parse_attributes hd, fun hsize => ⟨diagnostics_ascending hsize, ?_⟩,
    (readStatements_steps o s).2, fun calls hcalls hcount => ?_⟩
  · rw [lexical_diagnostics hsize, hscan]
  · dsimp only
    rw [(stream_after o s hcalls hcount).2, hscan]
    exact ⟨rfl, rfl⟩

/-- A number runs into a word before the first errors, and behind them, where a parse that reports two errors is halted,
there is a character that is not expected. -/
def overloadedSource : Source :=
  { name := "t", text := utf8 "x = 1y;\na = ; b = ;\n# c = ;", wellFormed := by decide +kernel }

theorem parse_diagnostics_overloaded :
    let diagnostics := (parse { maxErrors := 2 } overloadedSource).diagnostics
    overloadedSource.size < 0x8000000000000000 ∧
    diagnostics.map (·.code)
      = [.malformedNumber, .unexpectedToken, .unexpectedToken, .tooManyErrors, .unexpectedCharacter] ∧
    (∀ d ∈ diagnostics, d.severity = .error ∧ d.source = "t") ∧
    diagnostics.filter (·.code.isLexical) = overloadedSource.scan.2.diagnostics ∧
    (readStatements { maxErrors := 2 } overloadedSource).2.halted = true ∧
    (∀ call ∈ List.replicate 14 Stream.Call.next, call.sets = false) ∧
    (((Stream.ofSource overloadedSource).listen false).run
      (List.replicate 14 .next ++ [.token])).2.scanner.diagnostics = overloadedSource.scan.2.diagnostics := by
  intro diagnostics
  have hsize : overloadedSource.size < 0x8000000000000000 := by decide +kernel
  have hcalls : ∀ call ∈ List.replicate 14 Stream.Call.next, call.sets = false := by decide
  obtain ⟨hattributes, hordered, -, hended⟩ := parse_diagnostics { maxErrors := 2 } overloadedSource
  exact ⟨hsize, by decide +kernel, fun d hd => ⟨(hattributes d hd).1, (hattributes d hd).2.1⟩, (hordered hsize).2,
    by decide +kernel, hcalls, (hended _ hcalls (by decide +kernel)).1⟩

end SmallJava
