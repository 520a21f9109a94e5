import SmallJava.Proofs.Stability

/-!
# Merged diagnostics

Lists of diagnostics are merged in stable order: by where they start, and those that start together in the order of the
lists and in their order in a list. Offsets are compared by the sign of a difference of machine words, so this takes
offsets that are not negative and fit a word. What a list of diagnostics says as a whole does not depend on the order,
and so it can be told from the lists that are merged.

* `Diagnostics.sorted_orders`, `Diagnostics.sorted_eq_self` — sorting one list, and a list that is sorted already;
* `Diagnostics.hasErrors_merge`, `Diagnostics.countCode_merge` — errors and codes are those of the lists;
* `Diagnostics.merge_stable` — all of this.
-/

namespace SmallJava.Diagnostics

open StableSort

/-- Each of the diagnostics starts at an offset that is a word and not negative. -/
def InRange (ds : Diagnostics) : Prop :=
  ∀ d ∈ ds, 0 ≤ d.location.span.start ∧ d.location.span.start < 0x8000000000000000

instance (ds : Diagnostics) : Decidable (InRange ds) :=
  inferInstanceAs (Decidable (∀ d ∈ ds, 0 ≤ d.location.span.start ∧ d.location.span.start < 0x8000000000000000))

variable {ds : Diagnostics} {lists : List Diagnostics}

theorem inRange_flatten (h : ∀ ds ∈ lists, ds.InRange) : InRange lists.flatten := by
  intro d hd
  obtain ⟨ds, hds, hmem⟩ := List.mem_flatten.1 hd
  exact h ds hds d hmem

/-! ## Order -/

theorem sorted_perm (ds : Diagnostics) : (sorted ds).Perm ds := stableSort_perm _ _

theorem sorted_orders (h : InRange ds) : Orders Diagnostic.start ds (sorted ds) := by
  apply stableSort_orders
  intro d hd e he
  exact Diagnostic.before_eq (h d hd) (h e he)

theorem InRange.sorted (h : InRange ds) : InRange (sorted ds) := by
  intro d hd
  exact h d ((sorted_perm ds).mem_iff.1 hd)

/-- What is in order stays as it is. -/
theorem sorted_eq_self (h : InRange ds) (hds : Ascending Diagnostic.start ds) : sorted ds = ds := by
  have hself : Orders Diagnostic.start ds ds := ⟨hds, fun _ => rfl⟩
  exact (sorted_orders h).unique hself

/-- Sorting twice is sorting once. -/
theorem sorted_sorted (h : InRange ds) : sorted (sorted ds) = sorted ds :=
  sorted_eq_self h.sorted (sorted_orders h).ascending

/-! ## What the order has no part in -/

/-- There is an error among merged lists if there is one in any of them. -/
theorem hasErrors_merge (lists : List Diagnostics) : hasErrors (merge lists) = lists.any hasErrors := by
  unfold hasErrors
  rw [(merge_perm lists).any_eq, List.any_flatten]

/-- A code is counted in each list. -/
theorem countCode_merge (lists : List Diagnostics) (c : Code) :
    countCode (merge lists) c = lists.foldr (fun ds n => countCode ds c + n) 0 := by
  have hflatten : countCode lists.flatten c = lists.foldr (fun ds n => countCode ds c + n) 0 := by
    induction lists with
    | nil => rfl
    | cons ds lists ih =>
      rw [List.foldr_cons, ← ih]
      exact List.countP_append
  rw [← hflatten]
  exact (merge_perm lists).countP_eq _

/-- There is something to say about the errors if there is one. -/
theorem summary?_eq_none_iff : summary? ds = none ↔ hasErrors ds = false := by
  unfold summary? hasErrors
  cases h : ds.filter (·.severity = .error) with
  | nil => simpa using h
  | cons e es =>
    have he : e ∈ ds.filter (·.severity = .error) := by simp [h]
    have hany : ds.any (·.severity = .error) = true := List.any_eq_true.2 ⟨e, List.mem_filter.1 he⟩
    simp only [reduceCtorEq, hany, Bool.true_eq_false]

/-- **Diagnostics are merged stably.** Merging keeps all diagnostics and adds none. If they start at offsets that are
words and not negative, then the result is in ascending order of the offsets, and those with the same offset are in the
order of the lists, one behind the other. Sorting does the same to one list, and sorting twice is sorting once. The
result has an error if one of the lists has, counts each code as often as the lists together, and has nothing to say
about errors if no list has one. -/
theorem merge_stable (lists : List Diagnostics) :
    (merge lists).Perm lists.flatten ∧
    ((∀ ds ∈ lists, ds.InRange) → Orders Diagnostic.start lists.flatten (merge lists)) ∧
    (∀ ds : Diagnostics, (sorted ds).Perm ds ∧
      (ds.InRange → Orders Diagnostic.start ds (sorted ds) ∧ sorted (sorted ds) = sorted ds)) ∧
    (hasErrors (merge lists) = true ↔ ∃ ds ∈ lists, hasErrors ds = true) ∧
    (∀ c, countCode (merge lists) c = lists.foldr (fun ds n => countCode ds c + n) 0) ∧
    (summary? (merge lists) = none ↔ ∀ ds ∈ lists, hasErrors ds = false) := by
  refine ⟨merge_perm lists, ?_, ?_, ?_, countCode_merge lists, ?_⟩
  · intro h
    exact merge_orders (inRange_flatten h)
  · intro ds
    exact ⟨sorted_perm ds, fun h => ⟨sorted_orders h, sorted_sorted h⟩⟩
  · rw [hasErrors_merge, List.any_eq_true]
  · rw [summary?_eq_none_iff, hasErrors_merge, List.any_eq_false]
    simp only [Bool.not_eq_true]

/-- A diagnostic at an offset, told from others at that offset by the name of its source. -/
def noticeAt (start : Nat) (severity : Severity) (source : String) : Diagnostic :=
  { problem := .tooManyErrors, location := { span := ⟨start, start + 1⟩, first := default, last := default },
    source := source, severity := severity }

/-- More warnings than a block takes, at five offsets in turn. -/
def scattered : Diagnostics := (List.range 21).map fun i => noticeAt (i * 8 % 5) .warning (toString i)

/-- Two errors at two of these offsets. -/
def belated : Diagnostics := [noticeAt 2 .error "x", noticeAt 0 .error "y"]

theorem merge_stable_scattered :
    (∀ ds ∈ [scattered, belated], ds.InRange) ∧
      Orders Diagnostic.start [scattered, belated].flatten (merge [scattered, belated]) ∧
      (merge [scattered, belated]).map (·.source)
        = ["0", "5", "10", "15", "20", "y", "2", "7", "12", "17", "4", "9", "14", "19", "x", "1", "6", "11", "16",
           "3", "8", "13", "18"] ∧
      sorted (sorted scattered) = sorted scattered ∧
      hasErrors (merge [scattered, belated]) = true ∧
      countCode (merge [scattered, belated]) .tooManyErrors = 23 := by
  have hrange : ∀ ds ∈ [scattered, belated], ds.InRange := by decide +kernel
  obtain ⟨-, horders, hsorted, herrors, hcount, -⟩ := merge_stable [scattered, belated]
  refine ⟨hrange, horders hrange, by decide +kernel, ((hsorted scattered).2 (by decide +kernel)).2, ?_, ?_⟩
  · exact herrors.2 ⟨belated, by simp, by decide +kernel⟩
  · rw [hcount]
    decide +kernel

end SmallJava.Diagnostics
