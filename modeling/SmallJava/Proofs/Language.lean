import SmallJava.Proofs.Accepting.Program
import SmallJava.Proofs.Grammar.Fitting
import SmallJava.Proofs.Reading.Program
import SmallJava.Proofs.Sorting

/-!
# The language that is accepted

A source is accepted if its parse finds no problem. This module says which sources are: those without lexical faults
whose tokens are derived from the grammar, with a tree that meets three conditions that the grammar does not state.

* `Node.IsHandled`, `Node.AssignsToPlace` — the conditions on `try` statements and on assignments;
* `WellFormed` — a derived tree that meets all conditions;
* `parse_accepts` — the whole statement.
-/

namespace SmallJava

open Grammar

/-! ## Conditions on trees -/

namespace Expr

/-- The expression inside all parentheses around it. -/
def unwrapped : Expr → Expr
  | .paren _ x => x.unwrapped
  | x => x

/-- Whether this is a name, an element or a member. -/
def isPlace : Expr → Bool
  | .ident _ | .index .. | .select .. => true
  | _ => false

/-- What can be assigned to is a place in parentheses, or something that was not understood. -/
theorem isAssignable_iff (x : Expr) :
    x.isAssignable = true ↔ x.unwrapped.isPlace = true ∨ ∃ loc, x.unwrapped = .bad loc := by
  fun_induction unwrapped x with
  | case1 loc x ih => rw [isAssignable, ih]
  | case2 x hx => cases x <;> simp_all [isAssignable, isPlace]

end Expr

namespace Node

/-- Every `try` statement has a `catch` clause or a `finally` block. -/
def IsHandled : Node → Prop
  | .stmt (.tryCatch _ _ catches cleanup) => catches ≠ [] ∨ cleanup ≠ none
  | _ => True

/-- The target of every assignment is a name, an element or a member, perhaps in parentheses. -/
def AssignsToPlace : Node → Prop
  | .expr (.assign _ _ target _) => target.unwrapped.isPlace = true
  | _ => True

/-- What holds of all nodes holds of those inside the parentheses. -/
theorem All.unwrapped {P : Node → Prop} {x : Expr} (h : (Node.expr x).All P) : (Node.expr x.unwrapped).All P := by
  fun_induction Expr.unwrapped x with
  | case1 loc x ih => exact ih (h.child (by simp [children, Expr.children]))
  | case2 x hx => exact h

/-- In the language, what can be assigned to is a place in parentheses. -/
theorem All.isAssignable_iff {x : Expr} (h : (Node.expr x).All (Fits .plain)) :
    x.isAssignable = true ↔ x.unwrapped.isPlace = true := by
  rw [x.isAssignable_iff]
  refine ⟨fun hx => hx.resolve_right ?_, .inl⟩
  rintro ⟨loc, hbad⟩
  have hfits := h.unwrapped.self
  rw [hbad] at hfits
  exact hfits

/-- Among the nodes of plain trees, the tight ones are those that meet both conditions. -/
theorem fits_tight_iff {n : Node} (h : n.All (Fits .plain)) : n.Fits .tight ↔ n.IsHandled ∧ n.AssignsToPlace := by
  cases n with
  | expr x =>
    cases x with
    | bad loc => exact absurd h.self id
    | assign loc op target value =>
      have htarget : (Node.expr target).All (Fits .plain) := h.child (by simp [children, Expr.children])
      simp [Fits, Mode.tight, IsHandled, AssignsToPlace, htarget.isAssignable_iff]
    | _ => simp [Fits, IsHandled, AssignsToPlace]
  | stmt s =>
    cases s with
    | bad loc => exact absurd h.self id
    | tryCatch loc body catches cleanup => cases cleanup <;> simp [Fits, Mode.tight, IsHandled, AssignsToPlace]
    | _ => simp [Fits, IsHandled, AssignsToPlace]
  | _ => simp [Fits, IsHandled, AssignsToPlace]

/-- The tight grammar asks for handlers and for places to assign to, and nothing else. -/
theorem all_fits_tight_iff {n : Node} (h : n.All (Fits .plain)) :
    n.All (Fits .tight) ↔ n.All IsHandled ∧ n.All AssignsToPlace := by
  have hbelow : ∀ m ∈ n.preorder, (m.Fits .tight ↔ m.IsHandled ∧ m.AssignsToPlace) :=
    fun m hm => fits_tight_iff (h.below hm)
  unfold All
  rw [← forall₂_and]
  exact forall₂_congr hbelow

end Node

/-- The tree `ts` makes the tokens `xs` a well-formed text: the grammar derives it from the tokens, every `try` is
handled, assignments are to places, and constructs are at most `limit` deep inside each other. -/
structure WellFormed (limit : Nat) (xs : List Lexeme) (ts : List Stmt) : Prop where
  derived : DerivesProgram .plain xs ts
  handled : ∀ t ∈ ts, (Node.stmt t).All Node.IsHandled
  assigns : ∀ t ∈ ts, (Node.stmt t).All Node.AssignsToPlace
  nesting : Stmt.nestings ts ≤ limit

/-- What is well-formed is derived by the tight grammar, within the limit. -/
theorem wellFormed_iff {limit : Nat} {xs : List Lexeme} {ts : List Stmt} :
    WellFormed limit xs ts ↔ DerivesProgram .tight xs ts ∧ Stmt.nestings ts ≤ limit := by
  constructor
  · rintro ⟨hd, hh, ha, hn⟩
    refine ⟨hd.refit id id fun t ht => ?_, hn⟩
    exact (Node.all_fits_tight_iff (hd.fits t ht)).2 ⟨hh t ht, ha t ht⟩
  · rintro ⟨hd, hn⟩
    have hplain : DerivesProgram .plain xs ts := hd.mono id id id fun _ => trivial
    have hall := fun t ht => (Node.all_fits_tight_iff (hplain.fits t ht)).1 (hd.fits t ht)
    exact ⟨hplain, fun t ht => (hall t ht).1, fun t ht => (hall t ht).2, hn⟩

/-! ## Acceptance -/

/-- A parse that finds no problem gives a well-formed tree. -/
theorem wellFormed_of_parse {o : Options} {s : Source} (h : (parse o s).diagnostics = []) :
    s.faults = [] ∧ WellFormed o.depthLimit s.tokens (parse o s).program.body := by
  obtain ⟨final, -, hdiagnostics, -, hn, hderives⟩ := parse_reads o s
  rw [hdiagnostics] at h
  obtain ⟨hfaults, hproblems⟩ : s.faults = [] ∧ final.problems = [] := by simpa using h
  have hadmits : Mode.tight.Admits (o.setup s) s.tokens final := by
    refine ⟨?_, fun hp => absurd hproblems hp, fun hp => absurd hproblems hp, fun hp => absurd hproblems hp⟩
    rintro (hp | ⟨x, hx, hinvalid⟩)
    · exact absurd hproblems hp
    · exact absurd hfaults (s.faults_ne_nil hx hinvalid)
  exact ⟨hfaults, wellFormed_iff.2 ⟨hderives .tight hadmits, hn⟩⟩

/-- A well-formed tree is what the parse gives, without a problem. -/
theorem parse_of_wellFormed {o : Options} {s : Source} {ts : List Stmt} (hfaults : s.faults = [])
    (h : WellFormed o.depthLimit s.tokens ts) : (parse o s).diagnostics = [] := by
  obtain ⟨hd, hn⟩ := wellFormed_iff.1 h
  obtain ⟨-, ps, hps, -, hlax⟩ := parse_eq_of_derives ⟨id, id, id⟩ (.inr id) hd hn
  rw [hps]
  simpa [hfaults] using hlax.resolve_left id

/-- **The parser accepts exactly its grammar.** A parse finds no problem if and only if the text has no lexical fault
and its tokens have a well-formed tree. The tree is then the only one that the grammar derives, and it is the body
of the program. -/
theorem parse_accepts (o : Options) (s : Source) :
    ((parse o s).diagnostics = [] ↔ s.faults = [] ∧ ∃ ts, WellFormed o.depthLimit s.tokens ts) ∧
      ((parse o s).diagnostics = [] →
        ∀ ts, DerivesProgram .plain s.tokens ts ↔ ts = (parse o s).program.body) := by
  refine ⟨⟨fun h => ?_, ?_⟩, fun h ts => ?_⟩
  · obtain ⟨hfaults, hbody⟩ := wellFormed_of_parse h
    exact ⟨hfaults, _, hbody⟩
  · rintro ⟨hfaults, ts, hts⟩
    exact parse_of_wellFormed hfaults hts
  · obtain ⟨-, hbody⟩ := wellFormed_of_parse h
    constructor
    · intro hts
      exact DerivesProgram.unique hts hbody.derived
    · rintro rfl
      exact hbody.derived

end SmallJava
