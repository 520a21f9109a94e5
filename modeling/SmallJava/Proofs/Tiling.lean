import SmallJava.Proofs.Spans

/-!
# No token is lost

Whatever a parser makes of a text, the statements of a list lie side by side over all of its tokens: what is not
understood is covered by a bad statement. `Tiles` says so of a derivation, one part of the tokens for each statement; so
every token lies in exactly one statement (`Tiles.shares`). Only where the number of errors is limited, tokens may be
given up behind a statement that ends before them.

* `Shares xs ss` — each of the tokens lies in exactly one of the statements;
* `Encloses` — the statements between two braces share the tokens between them;
* `parse_tiles` — the whole tree of a parse.
-/

namespace SmallJava

open Grammar

/-! ## Tokens and statements -/

/-- The statements share the tokens: each token lies in exactly one of them, and each of them reaches from the start of
a token to the end of one. -/
structure Shares (xs : List Lexeme) (ss : List Stmt) : Prop where
  once : ∀ x ∈ xs, ss.countP (fun t => t.location.span.contains x.location.span) = 1
  ends : ∀ t ∈ ss, ∃ x ∈ xs, ∃ y ∈ xs, t.location = x.location.through y.location

/-- The statements lie side by side over the tokens. -/
inductive Tiles : List Lexeme → List Stmt → Prop where
  | nil : Tiles [] []
  | cons {xs ys : List Lexeme} {t : Stmt} {ss : List Stmt} :
      xs ≠ [] → t.location = extent xs → Tiles ys ss → Tiles (xs ++ ys) (t :: ss)

theorem Ordered.left {xs ys : List Lexeme} (h : Ordered (xs ++ ys)) : Ordered xs :=
  h.sublist (List.sublist_append_left xs ys)

theorem Ordered.right {xs ys : List Lexeme} (h : Ordered (xs ++ ys)) : Ordered ys :=
  h.sublist (List.sublist_append_right xs ys)

namespace Tiles

variable {xs : List Lexeme} {ss : List Stmt}

theorem ends (h : Tiles xs ss) : ∀ t ∈ ss, ∃ x ∈ xs, ∃ y ∈ xs, t.location = x.location.through y.location := by
  induction h with
  | nil => simp
  | @cons xs ys t ss hne hloc _ ih =>
    refine List.forall_mem_cons.2 ⟨?_, ?_⟩
    · obtain ⟨x, hx, y, hy, hends⟩ := extent_ends hne
      exact ⟨x, List.mem_append_left _ hx, y, List.mem_append_left _ hy, hloc.trans hends⟩
    · intro u hu
      obtain ⟨x, hx, y, hy, hends⟩ := ih u hu
      exact ⟨x, List.mem_append_right _ hx, y, List.mem_append_right _ hy, hends⟩

/-- A token behind all others, or in front of them, lies in none of the statements. -/
theorem not_contains (h : Tiles xs ss) {y : Lexeme} (hy : y.location.span.start < y.location.span.stop)
    (happart : (∀ x ∈ xs, y.location.span.stop ≤ x.location.span.start) ∨
      ∀ x ∈ xs, x.location.span.stop ≤ y.location.span.start) :
    ∀ t ∈ ss, t.location.span.contains y.location.span = false := by
  intro t ht
  obtain ⟨x, hx, z, hz, hends⟩ := h.ends t ht
  rw [Bool.eq_false_iff, Ne, Span.contains, Bool.and_eq_true, decide_eq_true_eq, decide_eq_true_eq, hends,
    Location.through_start, Location.through_stop]
  rcases happart with hbefore | hbehind
  · have := hbefore x hx
    omega
  · have := hbehind z hz
    omega

/-- **Statements side by side share their tokens.** -/
theorem shares (h : Tiles xs ss) (ho : Ordered xs) : Shares xs ss where
  ends := h.ends
  once := by
    induction h with
    | nil => simp
    | @cons xs ys t ss hne hloc hrest ih =>
      have hsorted := (List.pairwise_append.1 ho.sorted).2.2
      intro x hx
      rcases List.mem_append.1 hx with hx | hx
      · -- a token of the first statement is in front of all others
        have hfirst : t.location.span.contains x.location.span = true := by
          have := ho.left.within_extent x hx
          rw [hloc]
          simp [Span.contains, this]
        have hlater := hrest.not_contains (ho.left.nonempty x hx) (.inl fun y hy => hsorted x hx y hy)
        have hzero : ss.countP (fun u => u.location.span.contains x.location.span) = 0 := by
          rw [List.countP_eq_zero]
          intro u hu
          simp [hlater u hu]
        rw [List.countP_cons, hzero, if_pos hfirst]
      · -- a token of a later statement is behind the first one
        have hfirst : Tiles xs [t] := by
          have := Tiles.cons hne hloc .nil
          rwa [List.append_nil] at this
        have hnot := hfirst.not_contains (ho.right.nonempty x hx) (.inr fun y hy => hsorted y hy x hx) t (by simp)
        rw [List.countP_cons, if_neg (Bool.eq_false_iff.1 hnot)]
        exact ih ho.right x hx

end Tiles

namespace Grammar

variable {m : Mode} {xs : List Lexeme} {ss : List Stmt}

/-- Where nothing is given up, a statement is located at its tokens. -/
theorem DerivesStmt.location {sym : StmtSymbol} (h : DerivesStmt m sym xs ss) (hm : ¬ m.halts)
    (hs : ∀ p, sym ≠ .list p) : ∀ t ∈ ss, t.location = extent xs := by
  induction h with
  | braced _ ih | ifStmt _ ih | stmt _ ih => exact ih (by simp)
  | @tryStmt xs junk loc b cs h _ hjunk ih =>
    rw [hjunk.resolve_right hm, List.append_nil]
    exact ih (by simp)
  | nil | cons | skip => exact absurd rfl (hs _)
  | _ => exact List.forall_mem_singleton.2 rfl

/-- **The statements of a list lie side by side over its tokens.** -/
theorem DerivesStmt.tiles {p : Place} (h : DerivesStmt m (.list p) xs ss) (hm : ¬ m.halts) : Tiles xs ss := by
  generalize hsym : StmtSymbol.list p = sym at h
  induction h with
  | nil => exact .nil
  | cons hitem _ _ ih => exact .cons (hitem.ne_nil (by simp)) (hitem.location hm (by simp) _ (by simp)) (ih hsym)
  | skip _ hne _ ih => exact .cons hne rfl (ih hsym)
  | _ => cases hsym

end Grammar

/-! ## Braces -/

/-- The tokens from one of `front` on are an opening brace, what `ss` share and a closing brace, which may be missing at
the end. All of them stand together among the tokens `all`, and `loc` reaches over them. -/
def Encloses (all front : List Lexeme) (loc : Location) (ss : List Stmt) : Prop :=
  ∃ opened inner closer, front ++ opened :: (inner ++ closer) <:+: all ∧
    loc = extent (front ++ opened :: (inner ++ closer)) ∧ opened.token = .lBrace ∧ Shares inner ss ∧
    (closer = [] ∨ ∃ c, closer = [c] ∧ c.token = .rBrace ∧ ∀ t ∈ ss, t.location.span.contains c.location.span = false)

/-- The statements of a block, and the members of a class, share the tokens between the braces. -/
def Node.Encloses (all : List Lexeme) : Node → Prop
  | .stmt (.block (.mk loc ss)) => SmallJava.Encloses all [] loc ss
  | .stmt (.classDecl loc _ name ss) => ∃ front i, i.ident = name ∧ SmallJava.Encloses all (front ++ [i]) loc ss
  | _ => True

/-- Below an expression there are expressions and types. -/
theorem Expr.node_of_mem_children {x : Expr} {n : Node} (hn : n ∈ x.children.map (·.node)) :
    (∃ y, n = .expr y) ∨ ∃ t, n = .typeName t := by
  cases x with
  | literal | ident | bad => simp [children] at hn
  | array a =>
    cases a
    simp only [children, Node.map_node_many, List.mem_map] at hn
    grind
  | index | select | paren | unary | binary | assign =>
    simp only [children, List.map_cons, List.map_nil, Child.one, Ident.node] at hn
    grind
  | call =>
    simp only [children, List.map_cons, Node.map_node_many, Child.one] at hn
    grind
  | new loc t args len elems =>
    cases len <;> cases elems <;> simp [children, Child.opt, Child.one, ArrayLit.node] at hn <;> grind

@[simp] theorem Node.all_encloses_expr (all : List Lexeme) (x : Expr) : (Node.expr x).All (Node.Encloses all) := by
  have hkinds : (Node.expr x).All fun n => (∃ y, n = .expr y) ∨ ∃ t, n = .typeName t := by
    refine Node.forall_preorder ?_ _ (.inl ⟨x, rfl⟩)
    rintro n (⟨y, rfl⟩ | ⟨t, rfl⟩) c hc
    · exact Expr.node_of_mem_children (List.mem_map_of_mem hc)
    · cases hc
  refine hkinds.mono ?_
  rintro n (⟨y, rfl⟩ | ⟨t, rfl⟩) <;> trivial

namespace Grammar

variable {m : Mode} {xs ws all : List Lexeme} {ss : List Stmt}

/-- A part of tokens that stand together. -/
theorem infix_part (us vs : List Lexeme) (h : ws <:+: all) (hws : ws = us ++ (xs ++ vs)) : xs <:+: all := by
  rw [hws] at h
  exact (List.infix_append' us xs vs).trans h

/-- A block, or the body of a class, in a derivation. -/
theorem DerivesStmt.encloses_braces {p : Place} {opened : Lexeme} (h : DerivesStmt m (.list p) xs ss)
    (front closer : List Lexeme) (hm : ¬ m.halts) (ho : Ordered all)
    (hin : front ++ opened :: (xs ++ closer) <:+: all) (hopened : opened.token = .lBrace)
    (hcloser : closer = [] ∨ ∃ c, closer = [c] ∧ c.token = .rBrace) :
    Encloses all front (extent (front ++ opened :: (xs ++ closer))) ss := by
  have hordered : Ordered (xs ++ closer) := by
    have hpart : xs ++ closer <:+: all := infix_part (front ++ [opened]) [] hin (by simp)
    exact ho.sublist hpart.sublist
  have htiles := h.tiles hm
  refine ⟨opened, xs, closer, hin, rfl, hopened, htiles.shares hordered.left, hcloser.imp_right ?_⟩
  rintro ⟨c, rfl, hc⟩
  refine ⟨c, rfl, hc, htiles.not_contains (hordered.right.nonempty c (by simp)) (.inr ?_)⟩
  intro x hx
  exact (List.pairwise_append.1 hordered.sorted).2.2 x hx c (by simp)

theorem ForInit.encloses {o : Option Stmt} (h : ForInit m xs o) :
    ∀ t ∈ o, (Node.stmt t).All (Node.Encloses all) := by
  cases h with
  | none => simp
  | decl | expr =>
    simp only [Option.mem_def, Option.some.injEq, forall_eq']
    rw [Node.all_iff]
    simp [Node.children, Stmt.children, Node.Encloses, Ident.node]

/-- **The braces of a derived tree enclose what stands between them.** -/
theorem DerivesStmt.encloses {sym : StmtSymbol} (h : DerivesStmt m sym xs ss) (hm : ¬ m.halts) (ho : Ordered all)
    (hin : xs <:+: all) : ∀ t ∈ ss, (Node.stmt t).All (Node.Encloses all) := by
  -- the tokens of each part stand in a row among all tokens, as those of the whole do
  induction h with
  | braced _ ih | ifStmt _ ih | stmt _ ih => exact ih hin
  | varDecl hd _ | field _ hd _ | expr | empty | ret =>
    rw [List.forall_mem_singleton, Node.all_iff]
    simp [Node.children, Stmt.children, Node.Encloses, Ident.node]
  | @whileLoop kw xs ys c b _ _ _ ih =>
    have hb := ih (infix_part (kw :: xs) [] hin (by simp))
    rw [List.forall_mem_singleton, Node.all_iff]
    simp_all [Node.children, Stmt.children, Node.Encloses, Block.node]
  | @doWhile kw wh semi xs ys c b _ _ _ _ _ ih =>
    have hb := ih (infix_part [kw] (wh :: (ys ++ [semi])) hin (by simp))
    rw [List.forall_mem_singleton, Node.all_iff]
    simp_all [Node.children, Stmt.children, Node.Encloses, Block.node]
  | @forLoop kw l s₁ s₂ r xs ys zs ws init c u b _ _ hi _ _ _ _ _ _ ih =>
    have hb := ih (infix_part (kw :: l :: (xs ++ s₁ :: (ys ++ s₂ :: (zs ++ [r])))) [] hin (by simp))
    have hinit : ∀ t ∈ init, (Node.stmt t).All (Node.Encloses all) := hi.encloses
    rw [List.forall_mem_singleton, Node.all_iff]
    simp_all [Node.children, Stmt.children, Node.Encloses, Block.node, or_imp, forall_and]
  | @ifElse xs ys els loc c b e as _ _ _ iharms ihblock =>
    have harms := iharms (infix_part [] (els :: ys) hin (by simp))
    have hb := ihblock (infix_part (xs ++ [els]) [] hin (by simp))
    rw [List.forall_mem_singleton, Node.all_iff] at harms ⊢
    simp_all [Node.children, Stmt.children, Node.Encloses, Block.node, or_imp, forall_and]
  | @tryStmt xs junk loc b cs _ _ _ ih => exact ih (infix_part [] junk hin (by simp))
  | @tryFinally xs ys kw loc b f cs _ _ _ ihclauses ihblock =>
    have hclauses := ihclauses (infix_part [] (kw :: ys) hin (by simp))
    have hb := ihblock (infix_part (xs ++ [kw]) [] hin (by simp))
    rw [List.forall_mem_singleton, Node.all_iff] at hclauses ⊢
    simp_all [Node.children, Stmt.children, Node.Encloses, Block.node, or_imp, forall_and]
  | @arm kw xs ys c b _ _ _ ih =>
    have hb := ih (infix_part (kw :: xs) [] hin (by simp))
    rw [List.forall_mem_singleton, Node.all_iff]
    simp_all [Node.children, Stmt.children, Node.Encloses, Block.node]
  | @elseIf xs ys zs els kw loc c c' b b' as _ _ _ _ _ iharms ihblock =>
    have harms := iharms (infix_part [] (els :: kw :: (ys ++ zs)) hin (by simp))
    have hb := ihblock (infix_part (xs ++ els :: kw :: ys) [] hin (by simp))
    rw [List.forall_mem_singleton, Node.all_iff] at harms ⊢
    simp_all [Node.children, Stmt.children, Node.Encloses, Block.node, or_imp, forall_and]
  | @guarded kw xs b _ _ ih =>
    have hb := ih (infix_part [kw] [] hin (by simp))
    rw [List.forall_mem_singleton, Node.all_iff]
    simp_all [Node.children, Stmt.children, Node.Encloses, Block.node]
  | @catchClause xs ys zs kw l i r loc b b' cs t _ _ _ _ _ _ _ ihclauses ihblock =>
    have hclauses := ihclauses (infix_part [] (kw :: l :: (ys ++ i :: r :: zs)) hin (by simp))
    have hb := ihblock (infix_part (xs ++ kw :: l :: (ys ++ [i, r])) [] hin (by simp))
    rw [List.forall_mem_singleton, Node.all_iff] at hclauses ⊢
    simp_all [Node.children, Stmt.children, Node.Encloses, Block.node, or_imp, forall_and]
  | @block l r xs ss hl h hr ih =>
    have hss := ih (infix_part [l] [r] hin (by simp))
    have hself := h.encloses_braces [] [r] hm ho hin hl (.inr ⟨r, rfl, hr⟩)
    rw [List.forall_mem_singleton, Node.all_iff]
    simpa [Node.children, Stmt.children, Node.Encloses] using ⟨hself, hss⟩
  | @openBlock l xs ss _ hl h ih =>
    have hss := ih (infix_part [l] [] hin (by simp))
    -- an open block has no brace at its end
    have hself := h.encloses_braces [] [] hm ho (by simpa using hin) hl (.inl rfl)
    rw [List.nil_append, List.append_nil] at hself
    rw [List.forall_mem_singleton, Node.all_iff]
    simpa [Node.children, Stmt.children, Node.Encloses] using ⟨hself, hss⟩
  | @method p mods xs ys zs i t ps b _ _ _ _ _ _ ih =>
    have hb := ih (infix_part (mods ++ (xs ++ i :: ys)) [] hin (by simp))
    rw [List.forall_mem_singleton, Node.all_iff]
    simp_all [Node.children, Stmt.children, Node.Encloses, Block.node, Ident.node, or_imp]
  | @classDecl mods xs kw i l r ss _ _ _ hl h hr ih =>
    have hss := ih (infix_part (mods ++ [kw, i, l]) [r] hin (by simp))
    have hself := h.encloses_braces (mods ++ [kw] ++ [i]) [r] hm ho (by simpa using hin) hl
      (.inr ⟨r, rfl, hr⟩)
    rw [List.forall_mem_singleton, Node.all_iff]
    refine ⟨⟨mods ++ [kw], i, rfl, by simpa using hself⟩, ?_⟩
    simpa [Node.children, Stmt.children, Node.Encloses, Ident.node] using hss
  | @openClass mods xs kw i l ss _ _ _ _ hl h ih =>
    have hss := ih (infix_part (mods ++ [kw, i, l]) [] hin (by simp))
    have hself := h.encloses_braces (mods ++ [kw] ++ [i]) [] hm ho (by simpa using hin) hl (.inl rfl)
    rw [List.forall_mem_singleton, Node.all_iff]
    refine ⟨⟨mods ++ [kw], i, rfl, by simpa using hself⟩, ?_⟩
    simpa [Node.children, Stmt.children, Node.Encloses, Ident.node] using hss
  | nil => simp
  | @cons p xs ys s ss _ _ ih ihs =>
    rw [List.forall_mem_cons]
    exact ⟨ih (infix_part [] ys hin (by simp)) s (by simp), ihs (infix_part xs [] hin (by simp))⟩
  | @skip p xs ys ss _ _ _ ihs =>
    rw [List.forall_mem_cons]
    exact ⟨(Node.all_leaf rfl).2 trivial, ihs (infix_part xs [] hin (by simp))⟩

end Grammar

/-! ## Parsed trees -/

/-- **No token is lost by recovery.** Unless the number of errors is limited, every token of a source lies in exactly one
statement of the tree, and every token between the braces of a block or of a class in exactly one of the statements or
members there. -/
theorem parse_tiles (o : Options) (s : Source) (h : o.maxErrors ≤ 0) :
    Shares s.tokens (parse o s).program.body ∧
      ∀ n ∈ (Node.program (parse o s).program).preorder, n.Encloses s.tokens := by
  obtain ⟨final, -, -, -, -, hderives⟩ := parse_reads o s
  -- all errors, but nothing is given up
  let m : Mode := { errors := True, opens := True, halts := False, lax := True }
  have hadmits : m.Admits (o.setup s) s.tokens final := by
    refine ⟨fun _ => trivial, fun _ => trivial, fun _ hlimit => hlimit ?_, fun _ => trivial⟩
    exact if_pos h
  have hd := hderives m hadmits
  refine ⟨(hd.tiles id).shares s.tokens_ordered, ?_⟩
  refine Node.forall_preorder_iff.2 ⟨trivial, ?_⟩
  intro c hc
  obtain ⟨t, ht, hnode⟩ : ∃ t ∈ (parse o s).program.body, c.node = .stmt t := by
    simpa [Node.children, eq_comm] using List.mem_map_of_mem (f := (·.node)) hc
  rw [hnode]
  exact hd.encloses id s.tokens_ordered List.infix_rfl t ht

/-- A class with a statement that makes no sense, in which a method goes too deep. -/
def deepSource : Source :=
  { name := "", text := utf8 "class A \x7b ] x; int f() \x7b \x7b g((1)); \x7d \x7d \x7d y;", wellFormed := by decide +kernel }

theorem parse_tiles_halted :
    ({ maxDepth := 3 } : Options).maxErrors ≤ 0 ∧
      (parse { maxDepth := 3 } deepSource).diagnostics.map (·.code) = [.unexpectedToken, .maxNestingDepthExceeded] ∧
      Shares deepSource.tokens (parse { maxDepth := 3 } deepSource).program.body ∧
      ∀ n ∈ (Node.program (parse { maxDepth := 3 } deepSource).program).preorder, n.Encloses deepSource.tokens :=
  ⟨by decide, by decide +kernel, parse_tiles { maxDepth := 3 } deepSource (by decide)⟩

end SmallJava
