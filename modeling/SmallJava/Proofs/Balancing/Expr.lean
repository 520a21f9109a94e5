import SmallJava.Proofs.Balancing.Logic
import SmallJava.Proofs.Reading.Expr

/-!
# Expressions and brackets

The parsers for names, types and expressions leave the open brackets as they are, wherever they are started in front of
a semicolon: `tracks_typeName`, `tracks_expr`. An improper target is reported when its operator has been taken, so the
tokens of the target are known then (`tracked_assignment`).
-/

namespace SmallJava.Parser

open Grammar

variable {setup : Setup} {all : List Lexeme} {s : State} {σ : List Token}

/-! ## Names and types -/

section Names

variable (hmax : setup.maxErrors = none) (hs : s.Heads all)

include hmax hs

theorem tracks_ident : Tracks setup ident s σ σ :=
  .bind hs (tracks_want hmax hs rfl (by decide)) fun _ _ _ hs₁ => .pure hs₁.running σ

omit hmax in
/-- Two tokens that are there are taken. -/
theorem tracks_next_next {β : Type} {τ υ : List Token} {x y : Lexeme} {r : List Lexeme} {f : Lexeme → Lexeme → Parser β}
    (hrest : s.rest = x :: y :: r) (hx : openBehind σ x.token = some τ) (hy : openBehind τ y.token = some υ)
    (hxs : x.token ≠ .semi) (hys : y.token ≠ .semi)
    (hf : ∀ s' : State, s'.Heads all → Tracks setup (f x y) s' υ υ) :
    Tracks setup (next >>= fun x => next >>= fun y => f x y) s σ υ := by
  have h₁ := State.Reaches.next hs.running hrest hx hxs
  have h₂ := State.Reaches.next (hs.reaches h₁).running rfl hy hys
  have hrun : (next >>= fun x => next >>= fun y => f x y) setup s
      = f x y setup { s with rest := r, last := some y } := by
    show f (s.current setup) _ setup _ = _
    simp [State.current, hrest]
  unfold Tracks
  rw [hrun]
  exact .after (h₁.trans h₂) (hf _ (hs.reaches (h₁.trans h₂)))

omit hmax in
/-- There are no brackets in a name. -/
theorem tracks_dottedStep (t : TypeName) : Tracks setup (dottedStep t) s σ σ := by
  unfold dottedStep
  rw [tracks_get_bind]
  split
  · next x y r hrest =>
    split
    · next h =>
      exact tracks_next_next hs hrest (by rw [h.1]; rfl) (by rw [h.2]; rfl) (by simp [h.1]) (by simp [h.2])
        fun s' hs' => .pure hs'.running σ
    · exact .pure hs.running σ
  · exact .pure hs.running σ

theorem tracks_qualifiedName : Tracks setup qualifiedName s σ σ :=
  .bind hs (tracks_want hmax hs rfl (by decide)) fun _ _ _ hs₁ =>
    tracks_loop hs₁ (fun t _ hs' => tracks_dottedStep hs' t) _

omit hmax in
/-- The brackets of a dimension are opened and closed at once. -/
theorem tracks_bracketsStep (extend : Bool) (t : TypeName) : Tracks setup (bracketsStep extend t) s σ σ := by
  unfold bracketsStep
  rw [tracks_get_bind]
  split
  · next x y r hrest =>
    split
    · next h =>
      exact tracks_next_next hs hrest (by rw [h.1]; rfl) (by rw [h.2]; rfl) (by simp [h.1]) (by simp [h.2])
        fun s' hs' => .pure hs'.running σ
    · exact .pure hs.running σ
  · exact .pure hs.running σ

omit hmax in
theorem tracks_dimensions (t : TypeName) (extend : Bool) : Tracks setup (dimensions t extend) s σ σ :=
  tracks_loop hs (fun t _ hs' => tracks_bracketsStep hs' extend t) t

theorem tracks_typeName : Tracks setup typeName s σ σ :=
  .bind hs (tracks_qualifiedName hmax hs) fun t _ _ hs₁ => tracks_dimensions hs₁ t true

end Names

/-! ## Operators -/

/-- The parser leaves the open brackets as they are. -/
def TracksExpr (setup : Setup) (all : List Lexeme) (p : Parser Expr) : Prop :=
  ∀ (s : State) (σ : List Token), s.Heads all → Tracks setup p s σ σ

/-- The parsers of the level below leave the open brackets as they are, and read operands. -/
def InnerTracks (setup : Setup) (all : List Lexeme) (inner : Option Inner) : Prop :=
  ∀ i, inner = some i → TracksExpr setup all i.expr ∧ TracksExpr setup all i.unary ∧
    ∃ d, ReadsTerm setup all .unary i.unary d

/-- A binary operator neither opens nor closes anything, and is no semicolon. -/
theorem openBehind_of_precedence {t : Token} {p : Nat} (h : t.precedence? = some p) (σ : List Token) :
    openBehind σ t = some σ ∧ t ≠ .semi := by
  cases t <;> simp [Token.precedence?] at h <;> exact ⟨rfl, by decide⟩

theorem openBehind_of_isAssign {t : Token} (h : t.isAssign = true) (σ : List Token) :
    openBehind σ t = some σ ∧ t ≠ .semi := by
  cases t <;> simp [Token.isAssign] at h <;> exact ⟨rfl, by decide⟩

theorem openBehind_of_isPrefixOperator {t : Token} (h : isPrefixOperator t = true) (σ : List Token) :
    openBehind σ t = some σ ∧ t ≠ .semi := by
  cases t <;> simp [isPrefixOperator] at h <;> exact ⟨rfl, by decide⟩

/-- An operator and its operand leave what is open as it was. -/
theorem tracks_binaryStep {operand : Parser Expr} (ho : TracksExpr setup all operand) (hs : s.Heads all) (p : Nat)
    (x : Expr) : Tracks setup (binaryStep p operand x) s σ σ := by
  unfold binaryStep
  rw [tracks_current_bind]
  split
  · next hop =>
    obtain ⟨hb, hne⟩ := openBehind_of_precedence hop σ
    refine .bind hs (tracks_next hs hb hne) fun _ s₁ _ hs₁ => ?_
    exact .bind hs₁ (ho s₁ σ hs₁) fun _ _ _ hs₂ => .pure hs₂.running σ
  · exact .pure hs.running σ

theorem tracks_binary {operand : Parser Expr} (ho : TracksExpr setup all operand) :
    TracksExpr setup all (binary operand) := by
  suffices h : ∀ n, TracksExpr setup all (binaryLevels operand n) from h 6
  intro n
  induction n with
  | zero => exact ho
  | succ n ih =>
    intro s σ hs
    exact .bind hs (ih s σ hs) fun x s₁ _ hs₁ => tracks_loop hs₁ (fun y s' hs' => tracks_binaryStep ih hs' _ y) x

/-- **An assignment, once its target has been read.** -/
theorem tracked_assignment (hmax : setup.maxErrors = none) {e : Parser Expr} (he : TracksExpr setup all e)
    {s₁ : State} {xs : List Lexeme} {x : Expr} (hs : s.Heads all) (h : s.Reaches σ xs σ s₁) (hne : xs ≠ [])
    (hloc : x.location = extent xs) :
    Tracked setup s σ σ ((do
      if (← token).isAssign then
        let op ← next
        if !x.isAssignable then report (.cannotAssign x.describe) x.location
        let v ← e
        return .assign (x.location.through v.location) op.token x v
      else return x : Parser Expr) setup s₁) := by
  have hs₁ := hs.reaches h
  show Tracked setup s σ σ ((if (s₁.current setup).token.isAssign then _ else _ : Parser Expr) setup s₁)
  split
  · next hop =>
    obtain ⟨hb, hsemi⟩ := openBehind_of_isAssign hop σ
    have hnext := State.Reaches.next hs₁.running (hs₁.rest_eq setup) hb hsemi
    have hall := h.trans hnext
    let s₂ : State := { s₁ with rest := s₁.rest.tail, last := some (s₁.current setup) }
    have hvalue : ∀ s₃ : State, s.Reaches σ (xs ++ [s₁.current setup]) σ s₃ →
        Tracked setup s σ σ ((e >>= fun v =>
          pure (.assign (x.location.through v.location) (s₁.current setup).token x v) : Parser Expr) setup s₃) :=
      fun s₃ h₃ => .after h₃ <| Tracks.bind (hs.reaches h₃) (he s₃ σ (hs.reaches h₃)) fun _ _ _ hs₄ =>
        .pure hs₄.running σ
    cases hx : x.isAssignable with
    | true => exact hvalue s₂ hall
    | false =>
      -- an improper target is reported, and the parse goes on
      have hreport : s₂.report setup (.cannotAssign x.describe) x.location
          = s₂.addProblem setup (.cannotAssign x.describe) x.location := by
        simp [State.report, hmax, s₂, hs₁.running]
      have htarget : Misassigned (xs ++ [s₁.current setup])
          { problem := .cannotAssign x.describe, location := x.location, source := setup.name } :=
        ⟨rfl, [], xs, s₁.current setup, [], rfl, hne, hop, hloc⟩
      have hthen := hvalue _ (hall.addProblem htarget)
      rw [← hreport] at hthen
      exact hthen
  · exact ⟨xs, h⟩

section Levels

variable (hmax : setup.maxErrors = none) (hw : setup.Suits all) {inner : Option Inner}
  (hi : InnerTracks setup all inner) {e : Parser Expr} (he : TracksExpr setup all e)

include hmax

include hw hi in
/-- An assignment may be reported for its target, and goes on all the same. -/
theorem tracks_exprWith : TracksExpr setup all (exprWith inner) := by
  intro s σ hs
  refine tracks_nested hmax hs fun i hsome => ?_
  obtain ⟨hexpr, hunary, d, hreads⟩ := hi i hsome
  have hbinary := tracks_binary hunary s σ hs
  unfold Tracks at hbinary ⊢
  cases hrun : binary i.unary setup s with
  | error b s₁ =>
    rw [hrun] at hbinary
    rw [bind_error _ hrun]
    exact hbinary
  | ok x s₁ =>
    rw [hrun] at hbinary
    obtain ⟨xs, hx⟩ := hbinary
    rw [bind_ok _ hrun]
    -- the tokens taken are those of the target
    obtain ⟨ys, htakes, hderives⟩ := (reads_binary hw hreads s hs.place).ok hrun
    obtain rfl : ys = xs := List.append_cancel_right (htakes.rest.symm.trans hx.takes.rest)
    obtain ⟨hderived, -⟩ := hderives .lenient Mode.admits_lenient
    exact tracked_assignment hmax hexpr hs hx hderived.ne_nil (hderived.location rfl x (by simp))

/-! ## Operands -/

include he

/-- Parentheses are open as long as arguments are read. -/
theorem tracks_arguments (hs : s.Heads all) : Tracks setup (arguments e) s σ σ := by
  refine .bind hs (tracks_want (τ := .rParen :: σ) hmax hs rfl (by decide)) fun _ s₁ _ hs₁ => ?_
  refine .bind hs₁ (tracks_separatedUntil hs₁ (fun s' hs' => he s' _ hs') _) fun _ s₂ _ hs₂ => ?_
  exact .bind hs₂ (tracks_want hmax hs₂ rfl (by decide)) fun _ _ _ hs₃ => .pure hs₃.running σ

omit he in
include hi in
/-- A brace is open as long as elements are read. -/
theorem tracks_arrayLit (hs : s.Heads all) : Tracks setup (arrayLit inner) s σ σ := by
  refine tracks_nested hmax hs fun i hsome => ?_
  obtain ⟨hexpr, -⟩ := hi i hsome
  have helement : ∀ (elems : List Expr) (s : State), s.Heads all →
      Tracks setup (elementStep i.expr elems) s (.rBrace :: σ) (.rBrace :: σ) := by
    intro elems s hs
    unfold elementStep
    rw [tracks_token_bind]
    split
    · exact .pure hs.running _
    · exact tracks_itemStep hs (hexpr s _ hs) elems
  refine .bind hs (tracks_want (τ := .rBrace :: σ) hmax hs rfl (by decide)) fun _ s₁ _ hs₁ => ?_
  refine .bind hs₁ (tracks_loop hs₁ helement []) fun _ s₂ _ hs₂ => ?_
  exact .bind hs₂ (tracks_want hmax hs₂ rfl (by decide)) fun _ _ _ hs₃ => .pure hs₃.running σ

include hi in
/-- Brackets are open as long as a length is read. -/
theorem tracks_allocation (hs : s.Heads all) : Tracks setup (allocation inner e) s σ σ := by
  refine .bind hs (tracks_want hmax hs rfl (by decide)) fun _ s₁ _ hs₁ => ?_
  refine .bind hs₁ (tracks_qualifiedName hmax hs₁) fun t s₂ _ hs₂ => ?_
  rw [tracks_token_bind]
  split
  · refine .bind hs₂ (tracks_arguments hmax he hs₂) fun _ s₃ _ hs₃ => ?_
    rw [tracks_spanFrom_bind]
    exact .pure hs₃.running σ
  · next hl =>
    rw [tracks_get_bind]
    split
    · refine .bind hs₂ (tracks_dimensions hs₂ t true) fun _ s₃ _ hs₃ => ?_
      refine .bind hs₃ (tracks_arrayLit hmax hi hs₃) fun _ s₄ _ hs₄ => ?_
      rw [tracks_spanFrom_bind]
      exact .pure hs₄.running σ
    · refine .bind hs₂ (tracks_next (τ := .rSquare :: σ) hs₂ (by rw [hl]; rfl) (by simp [hl])) fun _ s₃ _ hs₃ => ?_
      refine .bind hs₃ (he s₃ _ hs₃) fun _ s₄ _ hs₄ => ?_
      refine .bind hs₄ (tracks_want hmax hs₄ rfl (by decide)) fun _ s₅ _ hs₅ => ?_
      refine .bind hs₅ (tracks_dimensions hs₅ t false) fun _ s₆ _ hs₆ => ?_
      rw [tracks_spanFrom_bind]
      exact .pure hs₆.running σ
  · rw [tracks_current_bind]
    exact tracks_fail hmax hs₂ rfl

include hi in
/-- A parenthesis is open as long as the expression in it is read. -/
theorem tracks_primary (hs : s.Heads all) : Tracks setup (primary inner e) s σ σ := by
  unfold primary
  rw [tracks_current_bind]
  split
  case h_7 => exact .bind hs (tracks_ident hmax hs) fun _ _ _ hs₁ => .pure hs₁.running σ
  case h_8 hl =>
    refine tracks_nested hmax hs fun i hsome => ?_
    obtain ⟨hexpr, -⟩ := hi i hsome
    refine .bind hs (tracks_next (τ := .rParen :: σ) hs (by rw [hl]; rfl) (by simp [hl])) fun _ s₁ _ hs₁ => ?_
    refine .bind hs₁ (hexpr s₁ _ hs₁) fun _ s₂ _ hs₂ => ?_
    exact .bind hs₂ (tracks_want hmax hs₂ rfl (by decide)) fun _ _ _ hs₃ => .pure hs₃.running σ
  case h_9 => exact .bind hs (tracks_arrayLit hmax hi hs) fun _ _ _ hs₁ => .pure hs₁.running σ
  case h_10 => exact tracks_allocation hmax hi he hs
  case h_11 hx => exact absurd hx (hs.token_ne_invalid setup)
  case h_12 => exact tracks_fail hmax hs rfl
  -- what is left is the literals
  all_goals
    next h =>
      exact .bind hs (tracks_next hs (by rw [h]; rfl) (by simp [h])) fun _ _ _ hs₁ => .pure hs₁.running σ

/-- A suffix closes what it opens. -/
theorem tracks_suffixStep (hs : s.Heads all) (x : Expr) : Tracks setup (suffixStep e x) s σ σ := by
  unfold suffixStep
  rw [tracks_token_bind]
  split
  · next hl =>
    refine .bind hs (tracks_next (τ := .rSquare :: σ) hs (by rw [hl]; rfl) (by simp [hl])) fun _ s₁ _ hs₁ => ?_
    refine .bind hs₁ (he s₁ _ hs₁) fun _ s₂ _ hs₂ => ?_
    exact .bind hs₂ (tracks_want hmax hs₂ rfl (by decide)) fun _ _ _ hs₃ => .pure hs₃.running σ
  · exact .bind hs (tracks_arguments hmax he hs) fun _ _ _ hs₁ => .pure hs₁.running σ
  · next hd =>
    refine .bind hs (tracks_next hs (by rw [hd]; rfl) (by simp [hd])) fun _ s₁ _ hs₁ => ?_
    exact .bind hs₁ (tracks_ident hmax hs₁) fun _ _ _ hs₂ => .pure hs₂.running σ
  · next hop => exact .bind hs (tracks_next hs (by rw [hop]; rfl) (by simp [hop])) fun _ _ _ hs₁ => .pure hs₁.running σ
  · next hop => exact .bind hs (tracks_next hs (by rw [hop]; rfl) (by simp [hop])) fun _ _ _ hs₁ => .pure hs₁.running σ
  · exact .pure hs.running σ

omit he in
include hw hi in
/-- **An operand closes what it opens.** -/
theorem tracks_unaryWith : TracksExpr setup all (unaryWith inner) := by
  intro s σ hs
  unfold unaryWith
  rw [tracks_token_bind]
  split
  · next hop =>
    obtain ⟨hb, hne⟩ := openBehind_of_isPrefixOperator hop σ
    refine tracks_nested hmax hs fun i hsome => ?_
    obtain ⟨-, hunary, -⟩ := hi i hsome
    refine .bind hs (tracks_next hs hb hne) fun _ s₁ _ hs₁ => ?_
    exact .bind hs₁ (hunary s₁ σ hs₁) fun _ _ _ hs₂ => .pure hs₂.running σ
  · have hexpr := tracks_exprWith hmax hw hi
    exact .bind hs (tracks_primary hmax hi hexpr hs) fun x s₁ _ hs₁ =>
      tracks_loop hs₁ (fun y s' hs' => tracks_suffixStep hmax hexpr hs' y) x

end Levels

/-- **Expressions leave the open brackets as they are**, and so do operands. -/
theorem innerTracks (hmax : setup.maxErrors = none) (hw : setup.Suits all) (d : Nat) :
    TracksExpr setup all (expr d) ∧ TracksExpr setup all (unary d) := by
  induction d with
  | zero =>
    have hi : InnerTracks setup all none := nofun
    rw [expr, unary]
    exact ⟨tracks_exprWith hmax hw hi, tracks_unaryWith hmax hw hi⟩
  | succ d ih =>
    have hi : InnerTracks setup all (some { expr := expr d, unary := unary d }) := by
      rintro _ ⟨⟩
      exact ⟨ih.1, ih.2, d, (reads_levels hw d).2⟩
    rw [expr, unary]
    exact ⟨tracks_exprWith hmax hw hi, tracks_unaryWith hmax hw hi⟩

end SmallJava.Parser
