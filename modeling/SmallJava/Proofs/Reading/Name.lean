import SmallJava.Proofs.Reading.Logic

/-!
# Names, types and lists

What the parsers for names, types and comma-separated lists read, as derivations of the grammar.

* `reads_ident`, `reads_qualifiedName`, `reads_typeName` — names and types;
* `reads_itemStep`, `reads_separated` — lists, for any relation that holds of one item and of a list with one
  item more.
-/

namespace SmallJava

open Grammar

namespace Grammar

/-! ## Building from left to right -/

/-- A dot and a name go on with a dotted name. -/
theorem QualName.extend {xs : List Lexeme} {t : TypeName} {d x : Lexeme} (h : QualName xs t)
    (hd : d.token = .dot) (hx : x.token = .ident) :
    QualName (xs ++ [d, x])
      { t with location := t.location.through x.location, name := t.name ++ utf8 "." ++ x.text } := by
  have hloc : t.location.through x.location = extent (xs ++ [d, x]) := by
    rw [h.location]
    exact through_location h.ne_nil [d] x
  rw [hloc, h.dims]
  exact .dotted h hd hx

theorem Brackets.concat {xs : List Lexeme} {n : Nat} {l r : Lexeme} (h : Brackets xs n)
    (hl : l.token = .lSquare) (hr : r.token = .rSquare) : Brackets (xs ++ [l, r]) (n + 1) := by
  induction h with
  | none => exact .pair hl hr .none
  | pair hl' hr' _ ih => exact .pair hl' hr' ih

/-- From a name over its dimensions. -/
theorem QualName.through_dims {xs : List Lexeme} {t : TypeName} (h : QualName xs t) (ys : List Lexeme) :
    (if ys = [] then t.location else t.location.through (extent ys)) = extent (xs ++ ys) := by
  rw [h.location]
  split
  · next hy => rw [hy, List.append_nil]
  · next hy => exact through_extent h.ne_nil [] hy

/-- A type is a dotted name and its dimensions. -/
theorem TypeRef.of_dims {xs ys : List Lexeme} {t : TypeName} {n : Nat} (hq : QualName xs t) (hb : Brackets ys n) :
    TypeRef (xs ++ ys)
      { t with location := if ys = [] then t.location else t.location.through (extent ys), dims := t.dims + n } := by
  rw [hq.through_dims ys, hq.dims, Int.zero_add]
  exact .mk hq hb

end Grammar

namespace Parser

variable {setup : Setup} {all : List Lexeme} {s : State}

/-! ## Names and types -/

theorem reads_ident (hw : setup.Suits all) (hs : s.At all) :
    Reads setup all ident s fun _ xs i => ∃ x, xs = [x] ∧ x.token = .ident ∧ i = x.ident := by
  refine .bind hs (reads_want hw hs (by decide)) fun xs x s' _ _ => .pure fun m _ => ?_
  rintro ⟨rfl, hx⟩
  exact ⟨x, rfl, hx, rfl⟩

/-- A dotted name goes on as one. -/
theorem reads_dottedStep (hs : s.At all) (xs zs : List Lexeme) (h : Prop) (t : TypeName) :
    Reads setup all (dottedStep t) s
      (StepPost (fun _ zs t => h → QualName (xs ++ zs) t) (fun _ zs t => h → QualName (xs ++ zs) t) zs t) := by
  unfold dottedStep
  rw [reads_get_bind]
  split
  · next d y r hrest =>
    split
    · next htok =>
      refine reads_next_cons hs hrest fun s₁ _ hs₁ hrest₁ => ?_
      refine reads_next_cons hs₁ hrest₁ fun s₂ _ _ _ => .pure fun m _ => ⟨by simp, fun hI hx => ?_⟩
      rw [← List.append_assoc]
      exact (hI hx).extend htok.1 htok.2
    · exact .pure fun m _ hI hx => by simpa using hI hx
  · exact .pure fun m _ hI hx => by simpa using hI hx

/-- A dotted name takes all the dots that names follow. -/
theorem reads_qualifiedName (hw : setup.Suits all) (hs : s.At all) :
    Reads setup all qualifiedName s fun _ xs t => QualName xs t := by
  refine .bind hs (reads_want hw hs (by decide)) fun xs x s' _ hs' => ?_
  refine reads_loop hs' ?_ fun zs s₁ t _ hs₁ => reads_dottedStep hs₁ xs zs _ t
  rintro m ⟨rfl, hx⟩
  exact .single hx

/-- The type `t` with the dimensions `xs` behind it, over which the location is extended if that is asked for. -/
def Dimensioned (t : TypeName) (extend : Bool) (xs : List Lexeme) (t' : TypeName) : Prop :=
  ∃ n, Brackets xs n ∧ t' = { t with
    location := if extend = true ∧ xs ≠ [] then t.location.through (extent xs) else t.location,
    dims := t.dims + n }

/-- Another pair of brackets adds a dimension. -/
theorem Dimensioned.concat {t t' : TypeName} {extend : Bool} {xs : List Lexeme} {l r : Lexeme}
    (h : Dimensioned t extend xs t') (hl : l.token = .lSquare) (hr : r.token = .rSquare) :
    Dimensioned t extend (xs ++ [l, r])
      { t' with location := if extend then t'.location.through r.location else t'.location, dims := t'.dims + 1 } := by
  obtain ⟨n, hn, rfl⟩ := h
  refine ⟨n + 1, hn.concat hl hr, ?_⟩
  have hnew : t.location.through (extent (xs ++ [l, r])) = t.location.through r.location := by
    cases xs with
    | nil => rfl
    | cons x xs =>
      rw [extent_append (by simp) (by simp)]
      rfl
  have hold : (if xs = [] then t.location else t.location.through (extent xs)).through r.location
      = t.location.through r.location := by
    split <;> rfl
  cases extend with
  | true => simp [hnew, hold, Int.add_assoc]
  | false => simp [Int.add_assoc]

theorem reads_bracketsStep (hs : s.At all) (t : TypeName) (extend : Bool) (zs : List Lexeme) (t' : TypeName) :
    Reads setup all (bracketsStep extend t') s
      (StepPost (fun _ => Dimensioned t extend) (fun _ => Dimensioned t extend) zs t') := by
  unfold bracketsStep
  rw [reads_get_bind]
  split
  · next l y r hrest =>
    split
    · next htok =>
      refine reads_next_cons hs hrest fun s₁ _ hs₁ hrest₁ => ?_
      refine reads_next_cons hs₁ hrest₁ fun s₂ _ _ _ => .pure fun m _ => ⟨by simp, fun hI => ?_⟩
      exact hI.concat htok.1 htok.2
    · exact .pure fun m _ hI => by simpa using hI
  · exact .pure fun m _ hI => by simpa using hI

/-- The dimensions taken are added to the type. -/
theorem reads_dimensions (hs : s.At all) (t : TypeName) (extend : Bool) :
    Reads setup all (dimensions t extend) s fun _ xs t' => Dimensioned t extend xs t' :=
  reads_loop hs (fun _ => ⟨0, .none, by simp⟩) fun zs _ t' _ hs' => reads_bracketsStep hs' t extend zs t'

/-- **What is read as a type is one.** -/
theorem reads_typeName (hw : setup.Suits all) (hs : s.At all) :
    Reads setup all typeName s fun _ xs t => TypeRef xs t := by
  refine .bind hs (reads_qualifiedName hw hs) fun xs t s' _ hs' => ?_
  refine (reads_dimensions hs' t true).mono ?_
  rintro m ys t' ⟨n, hn, rfl⟩ hq
  have h := TypeRef.of_dims hq hn
  by_cases hy : ys = [] <;> simpa [hy] using h

/-! ## Lists -/

section Lists

variable {α : Type} {item : Parser α} {P : Mode → List Lexeme → α → Prop} {L : Mode → List Lexeme → List α → Prop}

/-- Where an item has to follow: at the start, or after a comma. -/
def BeforeItem (L : Mode → List Lexeme → List α → Prop) (m : Mode) (xs : List Lexeme) (as : List α) : Prop :=
  (xs = [] ∧ as = []) ∨ ∃ ys c, xs = ys ++ [c] ∧ c.token = .comma ∧ L m ys as

/-- One more item makes a list of the items before it. -/
theorem reads_itemStep (hw : setup.Suits all)
    (hone : ∀ m xs a, P m xs a → L m xs [a])
    (hmore : ∀ m xs as c ys a, L m xs as → c.token = .comma → P m ys a → L m (xs ++ c :: ys) (as ++ [a]))
    (hs : s.At all) (hitem : Reads setup all item s P) (zs : List Lexeme) (as : List α) :
    Reads setup all (itemStep item as) s (StepPost (BeforeItem L) L zs as) := by
  have hjoin : ∀ m ys a, P m ys a → BeforeItem L m zs as → L m (zs ++ ys) (as ++ [a]) := by
    rintro m ys a ha (⟨rfl, rfl⟩ | ⟨ws, c, rfl, hc, hl⟩)
    · exact hone m ys a ha
    · simpa using hmore m ws as c ys a hl hc ha
  refine .bind hs hitem fun ys a s₁ _ hs₁ => ?_
  refine .bind hs₁ (reads_got hw hs₁ (by decide)) fun cs b s₂ _ hs₂ => ?_
  cases b with
  | true =>
    refine .pure fun m _ => ?_
    rintro (⟨-, c, rfl, hc⟩ | ⟨h, -⟩)
    · intro ha
      refine ⟨by simp, fun hI => .inr ⟨zs ++ ys, c, by simp, hc, hjoin m ys a ha hI⟩⟩
    · simp at h
  | false =>
    refine .pure fun m _ => ?_
    rintro (⟨h, -⟩ | ⟨-, rfl⟩)
    · simp at h
    · intro ha hI
      simpa using hjoin m ys a ha hI

/-- One or more items, with commas between them. -/
theorem reads_separated (hw : setup.Suits all)
    (hone : ∀ m xs a, P m xs a → L m xs [a])
    (hmore : ∀ m xs as c ys a, L m xs as → c.token = .comma → P m ys a → L m (xs ++ c :: ys) (as ++ [a]))
    (hitem : ∀ s : State, s.At all → Reads setup all item s P) (hs : s.At all) :
    Reads setup all (separated item) s L :=
  reads_loop (I := BeforeItem L) hs (fun _ => .inl ⟨rfl, rfl⟩) fun zs s' as _ hs' =>
    reads_itemStep hw hone hmore hs' (hitem s' hs') zs as

theorem reads_separatedUntil (hw : setup.Suits all)
    (hone : ∀ m xs a, P m xs a → L m xs [a])
    (hmore : ∀ m xs as c ys a, L m xs as → c.token = .comma → P m ys a → L m (xs ++ c :: ys) (as ++ [a]))
    (hitem : ∀ s : State, s.At all → Reads setup all item s P) (hs : s.At all) (ending : Token) :
    Reads setup all (separatedUntil ending item) s fun m xs as => (xs = [] ∧ as = []) ∨ L m xs as := by
  unfold separatedUntil
  rw [reads_token_bind]
  split
  · exact .pure fun m _ => .inl ⟨rfl, rfl⟩
  · exact (reads_separated hw hone hmore hitem hs).mono fun m xs as h => .inr h

/-- What may stand behind a token, with the token. -/
theorem reads_optionalAfter (hw : setup.Suits all) (hs : s.At all) {t : Token} (ht : t ≠ .eof) {p : Parser α}
    (hp : ∀ s : State, s.At all → Reads setup all p s P) :
    Reads setup all (optionalAfter t p) s fun m xs o =>
      (xs = [] ∧ o = none) ∨ ∃ x ys a, xs = x :: ys ∧ x.token = t ∧ o = some a ∧ P m ys a := by
  refine .bind hs (reads_got hw hs ht) fun xs b s₁ _ hs₁ => ?_
  cases b with
  | true =>
    refine .bind hs₁ (hp s₁ hs₁) fun ys a s₂ _ hs₂ => .pure fun m _ => ?_
    rintro ha (⟨-, x, rfl, hx⟩ | ⟨h, -⟩)
    · exact .inr ⟨x, ys, a, by simp, hx, rfl, ha⟩
    · simp at h
  | false =>
    refine .pure fun m _ => ?_
    rintro (⟨h, -⟩ | ⟨-, rfl⟩)
    · simp at h
    · exact .inl ⟨rfl, rfl⟩

end Lists

end Parser

end SmallJava
