import SmallJava.Proofs.Accepting.Logic
import SmallJava.Proofs.Reading.Name

/-!
# Names, types and lists are accepted

The parsers for names, types and comma-separated lists accept what the grammar derives, if what follows does not
go on with it.

* `accepts_qualifiedName`, `accepts_dimensions`, `accepts_typeName` — names and types;
* `Separated` — items with commas between them, with `finishes_items` and `repeats_items` for the loops over them.
-/

namespace SmallJava

open Grammar

namespace Parser

variable {setup : Setup} {m : Mode} {all xs ys rest : List Lexeme} {s : State}

/-! ## Names and types -/

theorem accepts_ident {x : Lexeme} (hs : s.Ready all (x :: rest)) (hx : x.token = .ident) :
    Accepts setup m ident s [x] x.ident :=
  accepts_want_bind hs hx fun _ _ hs' => .pure hs'.running

/-- A dotted name is its first part, and steps that add the others. -/
theorem repeats_dotted (setup : Setup) (m : Mode) (all : List Lexeme) {t : TypeName} (h : QualName xs t) :
    ∃ x zs, xs = x :: zs ∧ x.token = .ident ∧
      ∀ (s : State) (rest : List Lexeme), s.Ready all (zs ++ rest) →
        Repeats setup m dottedStep { location := x.location, name := x.text, dims := 0 } s zs t := by
  induction h with
  | @single x hx => exact ⟨x, [], rfl, hx, fun s rest hs => .refl hs.running⟩
  | @dotted xs t d y hq hd hy ih =>
    obtain ⟨x, zs, rfl, hx, hrepeats⟩ := ih
    refine ⟨x, zs ++ [d, y], rfl, hx, fun s rest hs => ?_⟩
    have hloc : t.location.through y.location = extent (x :: zs ++ [d, y]) := by
      rw [hq.location]
      exact through_location hq.ne_nil [d] y
    rw [List.append_assoc] at hs
    refine (hrepeats s _ hs).trans hs fun s₁ hs₁ => .one ?_ (by simp)
    unfold dottedStep
    rw [accepts_get_bind, hs₁.rest]
    simp only [List.cons_append, List.nil_append, hd, hy, and_self, if_true]
    refine accepts_next_bind hs₁ fun s₂ _ hs₂ => accepts_next_bind hs₂ fun s₃ _ hs₃ => ?_
    rw [hloc, hq.dims]
    exact .pure hs₃.running

/-- A dotted name is accepted as a whole where no dot follows. -/
theorem accepts_qualifiedName {t : TypeName} (h : QualName xs t) (hs : s.Ready all (xs ++ rest))
    (hrest : headToken rest ≠ .dot) : Accepts setup m qualifiedName s xs t := by
  obtain ⟨x, zs, rfl, hx, hrepeats⟩ := repeats_dotted setup m all h
  refine accepts_want_bind hs hx fun s₁ _ hs₁ => Finishes.loop ?_
  refine (hrepeats s₁ rest hs₁).finish_last hs₁ fun s₂ hs₂ => ?_
  unfold dottedStep
  rw [accepts_get_bind, hs₂.rest]
  split
  · next d y r =>
    have hd : d.token ≠ .dot := hrest
    rw [if_neg fun h => hd h.1]
    exact .pure hs₂.running
  · exact .pure hs₂.running

/-- Whether the tokens start with an empty pair of brackets. -/
def startsBrackets : List Lexeme → Bool
  | x :: y :: _ => x.token = .lSquare && y.token = .rSquare
  | _ => false

/-- Brackets start with an opening one. -/
theorem startsBrackets_of_headToken (h : headToken xs ≠ .lSquare) : startsBrackets xs = false := by
  match xs with
  | [] => rfl
  | [x] => rfl
  | x :: y :: r =>
    have hx : x.token ≠ .lSquare := h
    simp [startsBrackets, hx]

/-- Each pair of brackets adds a dimension, and extends the location if it is to be extended. -/
theorem repeats_brackets {n : Nat} (h : Brackets xs n) (extend : Bool) (t : TypeName) (hs : s.Ready all (xs ++ rest)) :
    Repeats setup m (bracketsStep extend) t s xs { t with
      location := if extend = true ∧ xs ≠ [] then t.location.through (extent xs) else t.location,
      dims := t.dims + n } := by
  induction h generalizing t s with
  | none =>
    rw [if_neg fun h => h.2 rfl]
    simpa using .refl hs.running
  | @pair l r xs n hl hr _ ih =>
    have hstep : Accepts setup m (bracketsStep extend t) s [l, r] (.yield { t with
        location := if extend then t.location.through r.location else t.location, dims := t.dims + 1 }) := by
      unfold bracketsStep
      rw [accepts_get_bind, hs.rest]
      simp only [List.cons_append, hl, hr, and_self, if_true]
      exact accepts_next_bind hs fun s₂ _ hs₂ => accepts_next_bind hs₂ fun s₃ _ hs₃ => .pure hs₃.running
    have hall := (Repeats.one hstep (by simp)).trans hs fun s' hs' => ih _ hs'
    have hloc : (if xs = [] then t.location.through r.location else t.location.through (extent xs))
        = t.location.through (extent (l :: r :: xs)) := by
      split
      · next h =>
        rw [h]
        rfl
      · next h =>
        have hpair : l :: r :: xs = [l, r] ++ xs := rfl
        rw [hpair, extent_append (by simp) h]
        rfl
    have hdims : t.dims + 1 + (n : Int) = t.dims + (n + 1) := by omega
    cases extend with
    | true => simpa [hloc, hdims] using hall
    | false => simpa [hdims] using hall

/-- Dimensions are accepted as a whole where no other pair of brackets follows. -/
theorem accepts_dimensions {t t' : TypeName} {extend : Bool} (h : Dimensioned t extend xs t')
    (hs : s.Ready all (xs ++ rest)) (hrest : startsBrackets rest = false) :
    Accepts setup m (dimensions t extend) s xs t' := by
  obtain ⟨n, hn, rfl⟩ := h
  refine Finishes.loop ((repeats_brackets hn extend t hs).finish_last hs fun s₁ hs₁ => ?_)
  unfold bracketsStep
  rw [accepts_get_bind, hs₁.rest]
  split
  · next l r _ =>
    have hne : ¬ (l.token = .lSquare ∧ r.token = .rSquare) := by simpa [startsBrackets] using hrest
    rw [if_neg hne]
    exact .pure hs₁.running
  · exact .pure hs₁.running

/-- A type is a dotted name with dimensions. -/
theorem dimensioned_of_typeRef {t' : TypeName} (h : TypeRef xs t') :
    ∃ ys zs t, xs = ys ++ zs ∧ QualName ys t ∧ Dimensioned t true zs t' := by
  cases h with
  | @mk ys zs t n hq hb =>
    refine ⟨ys, zs, t, rfl, hq, n, hb, ?_⟩
    simp [hq.through_dims zs, hq.dims]

/-- A type is accepted before a name. -/
theorem accepts_typeName {t : TypeName} (h : TypeRef xs t) (hs : s.Ready all (xs ++ rest))
    (hrest : headToken rest = .ident) : Accepts setup m typeName s xs t := by
  obtain ⟨ys, zs, q, rfl, hq, hdims⟩ := dimensioned_of_typeRef h
  rw [List.append_assoc] at hs
  have hdot : headToken (zs ++ rest) ≠ .dot := by
    obtain ⟨n, hn, -⟩ := hdims
    cases hn with
    | none => simp [hrest]
    | pair hl _ _ => simp [hl]
  refine (accepts_qualifiedName hq hs hdot).bind hs fun s₁ _ hs₁ => ?_
  exact accepts_dimensions hdims hs₁ (startsBrackets_of_headToken (by simp [hrest]))

/-! ## Lists -/

section Lists

variable {α : Type} {item : Parser α} {step : List α → Parser (ForInStep (List α))} {P : List Lexeme → α → Prop}
  {F : Token → Prop}

/-- Items with commas between them. -/
inductive Separated (P : List Lexeme → α → Prop) : List Lexeme → List α → Prop where
  | one {xs : List Lexeme} {a : α} : P xs a → Separated P xs [a]
  | more {xs ys : List Lexeme} {c : Lexeme} {a : α} {as : List α} :
      P xs a → c.token = .comma → Separated P ys as → Separated P (xs ++ c :: ys) (a :: as)

/-- The parser accepts an item if what follows ends it. -/
def AcceptsItem (setup : Setup) (m : Mode) (all : List Lexeme) (item : Parser α) (P : List Lexeme → α → Prop)
    (F : Token → Prop) : Prop :=
  ∀ xs a, P xs a → ∀ (s : State) (rest : List Lexeme), s.Ready all (xs ++ rest) → F (headToken rest) →
    Accepts setup m item s xs a

/-- An item and a comma: the loop goes on. -/
theorem accepts_itemStep_comma {a : α} {c : Lexeme} {as : List α} (hitem : AcceptsItem setup m all item P F)
    (hF : F .comma) (ha : P xs a) (hc : c.token = .comma) (hs : s.Ready all (xs ++ c :: rest)) :
    Accepts setup m (itemStep item as) s (xs ++ [c]) (.yield (as ++ [a])) := by
  refine (hitem xs a ha s _ hs (by simpa [hc] using hF)).bind hs fun s₁ _ hs₁ => ?_
  exact accepts_got_bind hs₁ hc fun s₂ _ hs₂ => .pure hs₂.running

/-- An item and no comma: the loop is done. -/
theorem accepts_itemStep_last {a : α} {as : List α} (hw : setup.Suits all) (hitem : AcceptsItem setup m all item P F)
    (ha : P xs a) (hs : s.Ready all (xs ++ rest)) (hF : F (headToken rest)) (hrest : headToken rest ≠ .comma) :
    Accepts setup m (itemStep item as) s xs (.done (as ++ [a])) := by
  refine (hitem xs a ha s _ hs hF).last hs fun s₁ _ hs₁ => ?_
  exact accepts_got_bind_of_ne hw hs₁ hrest (.pure hs₁.running)

/-- The step of a loop reads an item where one may start. -/
def StepsByItem (setup : Setup) (all : List Lexeme) (item : Parser α) (step : List α → Parser (ForInStep (List α)))
    (P : List Lexeme → α → Prop) : Prop :=
  ∀ xs a, P xs a → ∀ (s : State) (rest : List Lexeme) (as : List α), s.Ready all (xs ++ rest) →
    step as setup s = itemStep item as setup s

/-- Where an item may start, the step reads one. -/
theorem StepsByItem.accepts {a : α} {as : List α} {r : ForInStep (List α)} {ys : List Lexeme}
    (hstep : StepsByItem setup all item step P) (ha : P xs a) (hs : s.Ready all (xs ++ rest))
    (h : Accepts setup m (itemStep item as) s ys r) : Accepts setup m (step as) s ys r := by
  obtain ⟨s', hrun, hpass⟩ := h
  exact ⟨s', (hstep xs a ha s rest as hs).trans hrun, hpass⟩

/-- Items and a comma: the loop goes on. -/
theorem repeats_items {as : List α} {c : Lexeme} (hitem : AcceptsItem setup m all item P F)
    (hstep : StepsByItem setup all item step P) (hF : F .comma) (h : Separated P xs as) (hc : c.token = .comma)
    (hs : s.Ready all (xs ++ c :: rest)) (before : List α) :
    Repeats setup m step before s (xs ++ [c]) (before ++ as) := by
  induction h generalizing s before with
  | one ha => exact .one (hstep.accepts ha hs (accepts_itemStep_comma hitem hF ha hc hs)) (by simp)
  | @more xs ys c' a as ha hc' _ ih =>
    rw [List.append_assoc, List.cons_append] at hs
    have hfirst : Accepts setup m (step before) s (xs ++ [c']) (.yield (before ++ [a])) :=
      hstep.accepts ha hs (accepts_itemStep_comma hitem hF ha hc' hs)
    have hs' : s.Ready all ((xs ++ [c']) ++ (ys ++ c :: rest)) := by simpa using hs
    have hall := (Repeats.one hfirst (by simp)).trans hs' fun s₁ hs₁ => ih hs₁ (before ++ [a])
    simpa using hall

/-- Items that no comma follows: the loop ends. -/
theorem finishes_items {as : List α} (hw : setup.Suits all) (hitem : AcceptsItem setup m all item P F)
    (hstep : StepsByItem setup all item step P) (hF : F .comma) (h : Separated P xs as)
    (hs : s.Ready all (xs ++ rest)) (hrest : F (headToken rest)) (hcomma : headToken rest ≠ .comma)
    (before : List α) : Finishes setup m step before s xs (before ++ as) := by
  induction h generalizing s before with
  | one ha => exact .done (hstep.accepts ha hs (accepts_itemStep_last hw hitem ha hs hrest hcomma))
  | @more xs ys c a as ha hc _ ih =>
    rw [List.append_assoc, List.cons_append] at hs
    have hfirst : Accepts setup m (step before) s (xs ++ [c]) (.yield (before ++ [a])) :=
      hstep.accepts ha hs (accepts_itemStep_comma hitem hF ha hc hs)
    have hs' : s.Ready all ((xs ++ [c]) ++ (ys ++ rest)) := by simpa using hs
    have hall := (Repeats.one hfirst (by simp)).finish hs' fun s₁ hs₁ => ih hs₁ (before ++ [a])
    simpa using hall

theorem accepts_separated {as : List α} (hw : setup.Suits all) (hitem : AcceptsItem setup m all item P F)
    (hF : F .comma) (h : Separated P xs as) (hs : s.Ready all (xs ++ rest)) (hrest : F (headToken rest))
    (hcomma : headToken rest ≠ .comma) : Accepts setup m (separated item) s xs as :=
  (finishes_items hw hitem (fun _ _ _ _ _ _ _ => rfl) hF h hs hrest hcomma []).loop

end Lists

end Parser

end SmallJava
