import SmallJava.Proofs.Printing.Expr

/-!
# Printing the parts of statements

Conditions, optional expressions, declarations, parameters and modifiers are reprinted: what is printed of them is
made of tokens that are derived to the same structure again.
-/

namespace SmallJava

open Grammar

/-- Behind a text that it must not run into, the text adds the tokens `L`. -/
def Continues (text : Bytes) (L : List Spelled) : Prop :=
  ∀ a A, Prints Clear a A → Prints Clear (a ++ text) (A ++ L)

theorem continues_nil : Continues [] [] := fun _ _ h => by simpa using h

/-- The text of a declaration without modifiers and without its end. -/
def declText (t : TypeName) (i : Ident) (init : Option Expr) : Bytes :=
  t.text ++ utf8 " " ++ i.name ++ match init with
    | some x => utf8 " = " ++ x.text
    | none => []

theorem VarDecl.text_chunk (d : VarDecl) (after : String) :
    (d.chunk after).text = modifiersText d.modifiers ++ declText d.type d.name d.init ++ utf8 after := by
  cases h : d.init <;> simp [VarDecl.chunk, declText, h]

namespace Prints

variable {a : Bytes} {A : List Spelled}

/-- Blanks, where anything may stand. -/
theorem spaces (h : Prints Any a A) {w : Bytes} (hw : w.all isBlank = true) : Prints Any (a ++ w) A := by
  simpa using (Prints.blanks hw).before h

/-- Modifiers. -/
theorem modifiers {mods : List Lexeme} (h : Prints Any a A) (hf : ∀ k ∈ mods, k.Faithful)
    (hm : ∀ k ∈ mods, k.token.isModifier = true) :
    Prints Any (a ++ modifiersText (mods.map (·.token))) (A ++ mods.map Lexeme.spelled) := by
  induction mods generalizing a A with
  | nil => simpa [modifiersText] using h
  | cons k mods ih =>
    obtain ⟨hfk, hf⟩ := List.forall_mem_cons.1 hf
    obtain ⟨hk, hm⟩ := List.forall_mem_cons.1 hm
    have hkeyword : k.token.isKeyword = true := by
      cases ht : k.token <;> rw [ht] at hk <;> first | rfl | cases hk
    have hword : k.token.word = k.token.spelling := by
      cases ht : k.token <;> rw [ht] at hk <;> first | rfl | cases hk
    have hfirst := (h.keyword hkeyword).blank
    rw [← hfk.spelled_eq rfl (.inl hkeyword)] at hfirst
    simpa [modifiersText, hword] using ih hfirst hf hm

end Prints

namespace Grammar

variable {m : Mode} {xs ys : List Lexeme}

/-- Tokens spelled like modifiers are the same modifiers. -/
theorem respell_modifiers (hm : ∀ k ∈ xs, k.token.isModifier = true)
    (hs : ys.map Lexeme.spelled = xs.map Lexeme.spelled) :
    (∀ k ∈ ys, k.token.isModifier = true) ∧ ys.map (·.token) = xs.map (·.token) := by
  have htokens : ys.map (·.token) = xs.map (·.token) := by
    simpa [Function.comp_def, Lexeme.spelled] using congrArg (List.map Prod.fst) hs
  refine ⟨fun k hk => ?_, htokens⟩
  have hmem : k.token ∈ xs.map (·.token) := htokens ▸ List.mem_map_of_mem hk
  obtain ⟨x, hx, hxk⟩ := List.mem_map.1 hmem
  exact hxk ▸ hm x hx

/-- A condition is printed in parentheses, with a blank before them, and derived to the same structure again. -/
theorem Condition.reprints {c : Expr} (hm : ¬ m.errors) (h : Condition m xs c) (hf : ∀ x ∈ xs, x.Faithful) :
    ∃ L, Continues (utf8 " (" ++ c.text ++ utf8 ")") L ∧
      ∀ ys : List Lexeme, ys.map Lexeme.spelled = L →
        ∃ u, Condition m.exact ys u ∧ u.unlocated = c.unlocated := by
  cases h with
  | bad he => exact absurd he hm
  | good hl hc hr =>
    obtain ⟨L, hL⟩ := hc.reprints hm fun x hx => hf x (by simp [hx])
    refine ⟨Token.lParen.spelled :: (L ++ [Token.rParen.spelled]), fun a A h => ?_, fun ys hys => ?_⟩
    · have hopen := hL.prints.before (h.blank.clear.mark (t := .lParen) rfl)
      have htext : utf8 " (" = utf8 " " ++ utf8 "(" := rfl
      simpa [htext, Token.spelling] using (hopen.mark (t := .rParen) rfl).clear
    · obtain ⟨l, rest, rfl, hl, hrest⟩ := List.map_eq_cons_iff.1 hys
      obtain ⟨xs', r, ws, rfl, hxs, hr, hws⟩ := split_spelled hrest
      obtain rfl := List.map_eq_nil_iff.1 hws
      obtain ⟨u, hu, huc⟩ := hL.single hxs
      exact ⟨u, .good (Lexeme.token_of_spelled hl) hu (Lexeme.token_of_spelled hr), huc⟩

/-- An expression that may be left out is printed with a blank before it, or not at all. -/
theorem OptExpr.reprints {o : Option Expr} (hm : ¬ m.errors) (h : OptExpr m xs o) (hf : ∀ x ∈ xs, x.Faithful) :
    ∃ L, Continues (Chunk.texts (spacedChunks o)) L ∧
      ∀ ys : List Lexeme, ys.map Lexeme.spelled = L →
        ∃ u, OptExpr m.exact ys u ∧ u.map Expr.unlocated = o.map Expr.unlocated := by
  cases h with
  | none =>
    refine ⟨[], continues_nil, fun ys hys => ?_⟩
    obtain rfl := List.map_eq_nil_iff.1 hys
    exact ⟨_, .none, rfl⟩
  | some hx =>
    obtain ⟨L, hL⟩ := hx.reprints hm hf
    refine ⟨L, fun a A h => ?_, fun ys hys => ?_⟩
    · simpa [spacedChunks] using hL.prints.before h.blank
    · obtain ⟨u, hu, hux⟩ := hL.single hys
      exact ⟨_, .some hu, by simp [hux]⟩

/-- A declaration is printed from its type to its value, and derived to the same structure again. -/
theorem Declares.reprints {t : TypeName} {i : Ident} {o : Option Expr} (hm : ¬ m.errors) (h : Declares m xs t i o)
    (hf : ∀ x ∈ xs, x.Faithful) :
    ∃ L, Prints Clear (declText t i o) L ∧
      ∀ ys : List Lexeme, ys.map Lexeme.spelled = L → ∃ u j p, Declares m.exact ys u j p ∧
        u.unlocated = t.unlocated ∧ j.unlocated = i.unlocated ∧ p.map Expr.unlocated = o.map Expr.unlocated := by
  cases h with
  | @bare xs t i ht hi =>
    refine ⟨xs.map Lexeme.spelled ++ [i.spelled], ?_, fun ys hys => ?_⟩
    · have htype := (ht.prints fun x hx => hf x (by simp [hx])).blank
      simpa [declText, Lexeme.ident] using htype.ident (hf i (by simp)) hi
    · obtain ⟨xs', j, ws, rfl, hxs, hj, hws⟩ := split_spelled hys
      obtain rfl := List.map_eq_nil_iff.1 hws
      obtain ⟨u, hu, hut⟩ := ht.respell hxs
      exact ⟨u, _, none, .bare hu ((Lexeme.token_eq hj).trans hi), hut, Lexeme.ident_unlocated hj, rfl⟩
  | @init xs ys t i a x ht hi ha hx =>
    obtain ⟨L, hL⟩ := hx.reprints hm fun x hx => hf x (by simp [hx])
    refine ⟨xs.map Lexeme.spelled ++ i.spelled :: Token.assign.spelled :: L, ?_, fun zs hzs => ?_⟩
    · have htype := (ht.prints fun x hx => hf x (by simp [hx])).blank
      have hname := htype.ident (hf i (by simp)) hi
      have hassign := hL.prints.before (hname.blank.operator (t := .assign) rfl)
      have htext : utf8 " = " = utf8 " " ++ utf8 "=" ++ utf8 " " := rfl
      simpa [declText, Lexeme.ident, htext, Token.spelling] using hassign
    · obtain ⟨xs', j, rest, rfl, hxs, hj, hrest⟩ := split_spelled hzs
      obtain ⟨b, ys', rfl, hb, hys⟩ := List.map_eq_cons_iff.1 hrest
      obtain ⟨u, hu, hut⟩ := ht.respell hxs
      obtain ⟨v, hv, hvx⟩ := hL.single hys
      refine ⟨u, _, some v, .init hu ((Lexeme.token_eq hj).trans hi) (Lexeme.token_of_spelled hb) hv, hut,
        Lexeme.ident_unlocated hj, ?_⟩
      simp [hvx]

/-- The first part of a `for` is printed like a declaration or an expression, without a semicolon. -/
theorem ForInit.reprints {o : Option Stmt} (hm : ¬ m.errors) (h : ForInit m xs o) (hf : ∀ x ∈ xs, x.Faithful) :
    ∃ L, Prints Clear (Chunk.texts (initChunks o)) L ∧
      ∀ ys : List Lexeme, ys.map Lexeme.spelled = L →
        ∃ u, ForInit m.exact ys u ∧ u.map Stmt.unlocated = o.map Stmt.unlocated := by
  cases h with
  | none =>
    refine ⟨[], by simpa [initChunks] using Prints.nil, fun ys hys => ?_⟩
    obtain rfl := List.map_eq_nil_iff.1 hys
    exact ⟨_, .none, rfl⟩
  | decl hd =>
    obtain ⟨L, hL, hderives⟩ := hd.reprints hm hf
    refine ⟨L, ?_, fun ys hys => ?_⟩
    · simpa [initChunks, VarDecl.text_chunk, modifiersText] using hL
    · obtain ⟨u, j, p, hu, hut, hji, hpo⟩ := hderives ys hys
      exact ⟨_, .decl hu, by simp [VarDecl.unlocated, hut, hji, hpo]⟩
  | expr hx =>
    obtain ⟨L, hL⟩ := hx.reprints hm hf
    refine ⟨L, ?_, fun ys hys => ?_⟩
    · simpa [initChunks] using hL.prints
    · obtain ⟨u, hu, hux⟩ := hL.single hys
      exact ⟨_, .expr hu, by simp [hux]⟩

/-! ## Parameters -/

theorem IsParam.prints {p : Param} (h : IsParam xs p) (hf : ∀ x ∈ xs, x.Faithful) :
    Prints Clear p.text (xs.map Lexeme.spelled) := by
  cases h with
  | @mk xs t i ht hi =>
    have htype := (ht.prints fun x hx => hf x (by simp [hx])).blank
    simpa [Param.text, Lexeme.ident] using htype.ident (hf i (by simp)) hi

/-- Parameters have a comma and a blank between them. -/
theorem ParamList.prints {ps : List Param} (h : ParamList xs ps) (hf : ∀ x ∈ xs, x.Faithful) :
    Prints Clear (Bytes.join (utf8 ", ") (ps.map (·.text))) (xs.map Lexeme.spelled) := by
  induction h with
  | one hp => simpa [Bytes.join] using hp.prints hf
  | @more xs ys c p ps hp hc hps ih =>
    have hfirst := hp.prints fun x hx => hf x (by simp [hx])
    have hrest := ih fun x hx => hf x (by simp [hx])
    obtain ⟨q, qs, rfl⟩ : ∃ q qs, ps = q :: qs := by cases hps <;> exact ⟨_, _, rfl⟩
    have hall := hrest.before (hfirst.mark (t := .comma) rfl).clear.blank
    have htext : utf8 ", " = utf8 "," ++ utf8 " " := rfl
    simpa [Bytes.join, htext, Token.spelling, (hf c (by simp)).spelled_eq hc (.inr rfl)] using hall

/-- Parentheses stand around the parameters, also if there are none. -/
theorem Params.prints {ps : List Param} (h : Params xs ps) (hf : ∀ x ∈ xs, x.Faithful) {a : Bytes} {A : List Spelled}
    (ha : Prints Clear a A) :
    Prints Any (a ++ utf8 "(" ++ Bytes.join (utf8 ", ") (ps.map (·.text)) ++ utf8 ")") (A ++ xs.map Lexeme.spelled) := by
  cases h with
  | @none l r hl hr =>
    have hboth := (ha.mark (t := .lParen) rfl).clear.mark (t := .rParen) rfl
    have hl := (hf l (by simp)).spelled_eq hl (.inr rfl)
    have hr := (hf r (by simp)).spelled_eq hr (.inr rfl)
    simpa [Bytes.join, Token.spelling, hl, hr] using hboth
  | @some l r xs ps hl hps hr =>
    have hlist := (hps.prints fun x hx => hf x (by simp [hx])).before (ha.mark (t := .lParen) rfl)
    have hl := (hf l (by simp)).spelled_eq hl (.inr rfl)
    have hr := (hf r (by simp)).spelled_eq hr (.inr rfl)
    simpa [Token.spelling, hl, hr] using hlist.mark (t := .rParen) rfl

/-- Tokens spelled like a parameter are the same parameter. -/
theorem IsParam.respell {p : Param} (h : IsParam xs p) (hs : ys.map Lexeme.spelled = xs.map Lexeme.spelled) :
    ∃ q, IsParam ys q ∧ q.unlocated = p.unlocated := by
  cases h with
  | mk ht hi =>
    rw [List.map_append] at hs
    obtain ⟨xs', rest, rfl, hxs, hrest⟩ := List.map_eq_append_iff.1 hs
    obtain ⟨j, rfl, hj⟩ := List.map_eq_singleton_iff.1 hrest
    obtain ⟨u, hu, hut⟩ := ht.respell hxs
    refine ⟨_, .mk hu ((Lexeme.token_eq hj).trans hi), ?_⟩
    simp [Param.unlocated, hut, Lexeme.ident_unlocated hj]

theorem ParamList.respell {ps : List Param} (h : ParamList xs ps)
    (hs : ys.map Lexeme.spelled = xs.map Lexeme.spelled) :
    ∃ qs, ParamList ys qs ∧ qs.map Param.unlocated = ps.map Param.unlocated := by
  induction h generalizing ys with
  | one hp =>
    obtain ⟨q, hq, hqp⟩ := hp.respell hs
    exact ⟨_, .one hq, by simp [hqp]⟩
  | more hp hc _ ih =>
    rw [List.map_append, List.map_cons] at hs
    obtain ⟨xs', c', ys', rfl, hxs, hc', hys⟩ := split_spelled hs
    obtain ⟨q, hq, hqp⟩ := hp.respell hxs
    obtain ⟨qs, hqs, hqps⟩ := ih hys
    exact ⟨_, .more hq ((Lexeme.token_eq hc').trans hc) hqs, by simp [hqp, hqps]⟩

/-- Tokens spelled like parameters in parentheses are as many, and the same ones. -/
theorem Params.respell {ps : List Param} (h : Params xs ps) (hs : ys.map Lexeme.spelled = xs.map Lexeme.spelled) :
    ∃ qs, Params ys qs ∧ qs.map Param.unlocated = ps.map Param.unlocated := by
  cases h with
  | none hl hr =>
    obtain ⟨l, rest, rfl, hl', hrest⟩ := List.map_eq_cons_iff.1 hs
    obtain ⟨r, rfl, hr'⟩ := List.map_eq_singleton_iff.1 hrest
    exact ⟨_, .none ((Lexeme.token_eq hl').trans hl) ((Lexeme.token_eq hr').trans hr), rfl⟩
  | some hl hps hr =>
    obtain ⟨l, rest, rfl, hl', hrest⟩ := List.map_eq_cons_iff.1 hs
    rw [List.map_append] at hrest
    obtain ⟨xs', r, ws, rfl, hxs, hr', hws⟩ := split_spelled hrest
    obtain rfl := List.map_eq_nil_iff.1 hws
    obtain ⟨qs, hqs, hqps⟩ := hps.respell hxs
    exact ⟨_, .some ((Lexeme.token_eq hl').trans hl) hqs ((Lexeme.token_eq hr').trans hr), hqps⟩

end Grammar

end SmallJava
