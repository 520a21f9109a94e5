import SmallJava.Proofs.Grammar.Path
import SmallJava.Proofs.Limits

/-!
# The nesting limit

A limit on nesting bounds the tree, however long the text is: going from the root to any node of it, one passes
through no more nesting constructs than the limit allows. A text that would need more is reported once, and the parse
is halted there.

* `State.NestedOnce` — what every step of a parse keeps about the problem of too deep nesting;
* `parse_nested` — the limit bounds the tree, and is reported at most once, with nothing behind it.
-/

namespace SmallJava

/-! ## The report -/

namespace State

variable {setup : Setup} {s s' : State}

/-- What is known of too deep nesting: behind it there is nothing but that there are too many errors, and the parse has
been halted. -/
structure NestedOnce (s : State) : Prop where
  last : s.problems.Pairwise fun d e => d.code = .maxNestingDepthExceeded → e.code = .tooManyErrors
  halted : (∃ d ∈ s.problems, d.code = .maxNestingDepthExceeded) → s.halted = true

/-- Problems that are added before the parse is halted. -/
theorem NestedOnce.add (hs : s.NestedOnce) (hgoes : s.halted = false) {d : Diagnostic} {more : Diagnostics}
    (hproblems : s'.problems = s.problems ++ d :: more) (hmore : ∀ e ∈ more, e.code = .tooManyErrors)
    (hd : d.code = .maxNestingDepthExceeded → s'.halted = true) : s'.NestedOnce := by
  have hnone : ∀ e ∈ s.problems, e.code ≠ .maxNestingDepthExceeded := by
    intro e he hcode
    rw [hs.halted ⟨e, he, hcode⟩] at hgoes
    cases hgoes
  constructor
  · rw [hproblems, List.pairwise_append, List.pairwise_cons]
    refine ⟨hs.last, ⟨fun e he _ => hmore e he, ?_⟩, fun e he _ _ hcode => absurd hcode (hnone e he)⟩
    exact List.pairwise_of_forall_mem_list fun _ _ e he _ => hmore e he
  · rintro ⟨e, he, hcode⟩
    rw [hproblems, List.mem_append, List.mem_cons] at he
    rcases he with he | rfl | he
    · exact absurd hcode (hnone e he)
    · exact hd hcode
    · rw [hmore e he] at hcode
      cases hcode

/-- Too deep nesting is reported once at most. -/
theorem NestedOnce.countP_le (hs : s.NestedOnce) : s.problems.countP (·.code = .maxNestingDepthExceeded) ≤ 1 := by
  by_cases hsome : ∃ d ∈ s.problems, d.code = .maxNestingDepthExceeded
  · obtain ⟨d, hd, hcode⟩ := hsome
    refine (countP_eq_one hs.last ?_ hd (by simpa using hcode)).le
    intro a b ha hb hlast
    simp only [decide_eq_true_eq] at ha hb
    rw [hlast ha] at hb
    cases hb
  · refine (List.countP_eq_zero.2 fun d hd => ?_).trans_le (Nat.zero_le 1)
    simpa using fun hcode => hsome ⟨d, hd, hcode⟩

/-- **A step reports too deep nesting only if the parse goes on**, and then halts it. -/
theorem Step.nestedOnce (h : Step setup s s') (hs : s.NestedOnce) : s'.NestedOnce := by
  have htooMany : ∀ {more : Diagnostics} {loc : Location},
      (∀ e ∈ more, e = { problem := .tooManyErrors, location := loc, source := setup.name }) →
        ∀ e ∈ more, e.code = .tooManyErrors := by
    intro more loc hmore e he
    rw [hmore e he]
    rfl
  cases h with
  | next | skip | note => exact ⟨hs.last, hs.halted⟩
  | report p loc hp =>
    cases hhalted : s.halted with
    | true => rwa [report_of_halted hhalted]
    | false =>
      obtain ⟨more, hproblems, hmore⟩ := problems_report hhalted p loc
      exact hs.add hhalted hproblems (htooMany hmore) fun hd => absurd hd hp.1
  | halt =>
    cases hhalted : s.halted with
    | true => rwa [report_of_halted hhalted, stop_of_halted hhalted]
    | false =>
      obtain ⟨more, hproblems, hmore⟩ := problems_report hhalted _ _
      exact hs.add hhalted (stop_problems.trans hproblems) (htooMany hmore) fun _ => halted_stop _

end State

/-- The scanner knows no nesting. -/
theorem Source.code_of_mem_faults {s : Source} {d : Diagnostic} (h : d ∈ s.faults) :
    d.code ≠ .maxNestingDepthExceeded := by
  intro hcode
  have hlexical := Source.isLexical_of_mem_faults h
  rw [hcode] at hlexical
  cases hlexical

/-- **The nesting limit bounds the tree.** On every path from the root there are at most as many nesting constructs as
the limit allows: `maxDepth`, or 256 if that is not positive. That constructs are nested too deeply is reported at most
once; and of the problems that the parser reports, in the order in which it finds them, only that there are too many
errors may stand behind it. The diagnostics of the parse are these problems and those of the tokens. -/
theorem parse_nested (o : Options) (s : Source) :
    (∀ path, (Node.program (parse o s).program).IsPath path →
      (Node.program (parse o s).program).constructs path ≤ if o.maxDepth ≤ 0 then 256 else o.maxDepth.toNat) ∧
    (parse o s).diagnostics.countP (·.code = .maxNestingDepthExceeded) ≤ 1 ∧
    (parse o s).diagnostics = Diagnostics.merge [s.faults, (readStatements o s).2.problems] ∧
    (readStatements o s).2.problems.Pairwise fun d e =>
      d.code = .maxNestingDepthExceeded → e.code = .tooManyErrors := by
  have hreported : (readStatements o s).2.NestedOnce :=
    (readStatements_steps o s).1.keeps (fun _ _ => State.Step.nestedOnce) ⟨.nil, by simp⟩
  refine ⟨Node.constructs_le_iff.2 ?_, ?_, rfl, hreported.last⟩
  · obtain ⟨-, -, -, -, hnesting, -⟩ := parse_reads o s
    exact hnesting
  · rw [show (parse o s).diagnostics = Diagnostics.merge [s.faults, (readStatements o s).2.problems] from rfl,
      (Diagnostics.merge_perm _).countP_eq]
    have hfaults : s.faults.countP (·.code = .maxNestingDepthExceeded) = 0 := by
      refine List.countP_eq_zero.2 fun d hd => ?_
      simpa using Source.code_of_mem_faults hd
    simpa [hfaults] using hreported.countP_le

end SmallJava
