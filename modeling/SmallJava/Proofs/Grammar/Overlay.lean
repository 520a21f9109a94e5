import SmallJava.Proofs.Grammar.Extent
import SmallJava.Proofs.Tree.Preorder

/-!
# Trees over tokens

A derivation lays its trees over its tokens: a node is over tokens that stand in a row, and its children are over parts
of these, from left to right. What is said of all nodes of derived trees follows from what is said of one node that is
over its tokens.

* `Node.Over` — what is known of a node over its tokens: its location, and the tokens that it quotes;
* `Overlay` — the rules by which trees are laid over tokens;
* `DerivesExpr.overlay`, `DerivesStmt.overlay` — what follows these rules holds of derivations.
-/

namespace SmallJava

open Grammar

namespace Node

/-- The node is a token of the text, if it is a name or a constant. -/
def Quotes (L : List Lexeme) : Node → Prop
  | .expr (.literal l) => ∃ x ∈ L, x.token.isLiteral = true ∧ l = x.literal
  | .expr (.ident i) => ∃ x ∈ L, x.token = .ident ∧ i = x.ident
  | _ => True

/-- Quoted tokens are among more tokens. -/
theorem Quotes.mono {L K : List Lexeme} {n : Node} (h : n.Quotes L) (hsub : L ⊆ K) : n.Quotes K := by
  unfold Quotes at h ⊢
  split at h
  · obtain ⟨x, hx, hl⟩ := h
    exact ⟨x, hsub hx, hl⟩
  · obtain ⟨x, hx, hi⟩ := h
    exact ⟨x, hsub hx, hi⟩
  · trivial

/-- The type directly below the node, if there is one. -/
def type? : Node → Option TypeName
  | .expr (.new _ t _ _ _) => some t
  | .stmt (.varDecl d) => some d.type
  | .stmt (.methodDecl _ _ result _ _ _) => some result
  | .catchClause (.mk _ t _ _) => some t
  | .param p => some p.type
  | _ => none

/-- The length of the array that the node makes, if it is made with one. -/
def length? : Node → Option Expr
  | .expr (.new _ _ _ len _) => len
  | _ => none

theorem type?_eq_some_of_mem_expr {x : Expr} {t : TypeName} (h : .typeName t ∈ x.children.map (·.node)) :
    (Node.expr x).type? = some t := by
  cases x with
  | array a =>
    obtain ⟨loc, elems⟩ := a
    simp [Expr.children] at h
  | _ => simp_all [Expr.children, type?, Ident.node, ArrayLit.node]

theorem type?_eq_some_of_mem_stmt {s : Stmt} {t : TypeName} (h : .typeName t ∈ s.children.map (·.node)) :
    (Node.stmt s).type? = some t := by
  cases s with
  | block b =>
    obtain ⟨loc, stmts⟩ := b
    simp [Stmt.children] at h
  | _ => simp_all [Stmt.children, type?, Ident.node, Block.node]

/-- No node has two types directly below it. -/
theorem type?_eq_some_of_mem {n : Node} {t : TypeName} (h : .typeName t ∈ n.children.map (·.node)) :
    n.type? = some t := by
  cases n with
  | expr x => exact type?_eq_some_of_mem_expr h
  | stmt s => exact type?_eq_some_of_mem_stmt h
  | elseIf arm =>
    obtain ⟨loc, cond, body⟩ := arm
    simp [children, Block.node] at h
  | catchClause c =>
    obtain ⟨loc, type, name, body⟩ := c
    simp_all [children, type?, Ident.node, Block.node]
  | _ => simp_all [children, type?, Ident.node]

/-- The type is made of tokens that stand in a row among `L`, as a type below the node is. If the node makes an array
with its length, then the tokens of the type are those of its name, and the dimensions are counted behind the length. -/
inductive TypedBy (L : List Lexeme) (n : Node) : TypeName → Prop where
  | whole {xs : List Lexeme} {t : TypeName} : n.length? = none → xs <:+: L → TypeRef xs t → TypedBy L n t
  | sized {kw l r : Lexeme} {xs ys zs : List Lexeme} {name : TypeName} {len : Expr} {count : Nat} :
      n.length? = some len → kw :: (xs ++ l :: (ys ++ r :: zs)) <:+: L →
      n.location = extent (kw :: (xs ++ l :: (ys ++ r :: zs))) → QualName xs name → ys ≠ [] →
      len.location = extent ys → r.token = .rSquare → Brackets zs count → TypedBy L n { name with dims := count + 1 }

/-- Tokens that spell a type do so among more tokens. -/
theorem TypedBy.mono {L K : List Lexeme} {n : Node} {t : TypeName} (h : n.TypedBy L t) (hsub : L <:+: K) :
    n.TypedBy K t := by
  cases h with
  | whole hlen hx ht => exact .whole hlen (hx.trans hsub) ht
  | sized hlen hx hn hq hy hloc hr hz => exact .sized hlen (hx.trans hsub) hn hq hy hloc hr hz

/-- The type directly below the node is made of tokens that stand in a row. -/
def Worded (L : List Lexeme) (n : Node) : Prop := ∀ t ∈ n.type?, n.TypedBy L t

/-- The node is over the tokens: it is located at them, and it quotes them. -/
structure Over (xs : List Lexeme) (n : Node) : Prop where
  ne_nil : xs ≠ []
  location : n.location = extent xs
  quotes : n.Quotes xs
  worded : n.Worded xs

variable {xs ys : List Lexeme} {n : Node}

/-- A node without a type directly below it. -/
theorem over_plain (hx : xs ≠ []) (hloc : n.location = extent xs) (hq : n.Quotes xs) (hn : n.type? = none) :
    n.Over xs :=
  ⟨hx, hloc, hq, by simp [Worded, hn]⟩

/-- A node with a type directly below it. -/
theorem over_typed {t : TypeName} (hloc : n.location = extent xs) (hq : n.Quotes xs) (ht : TypeRef ys t)
    (hy : ys <:+: xs) (hlen : n.length? = none) (hn : n.type? = some t) : n.Over xs where
  ne_nil := by
    rintro rfl
    exact ht.ne_nil (List.infix_nil.1 hy)
  location := hloc
  quotes := hq
  worded := by simpa [Worded, hn] using TypedBy.whole hlen hy ht

theorem over_ident {x : Lexeme} (hx : x.token = .ident) : x.ident.node.Over [x] :=
  over_plain (List.cons_ne_nil _ _) rfl ⟨x, List.mem_singleton_self x, hx, rfl⟩ rfl

/-- A type lies over its tokens. -/
theorem over_typeName {t : TypeName} (hx : xs ≠ []) (hloc : t.location = extent xs) : (Node.typeName t).Over xs :=
  over_plain hx hloc trivial rfl

end Node

/-- **The rules by which trees are laid over tokens.** -/
structure Overlay (P : List Lexeme → List Node → Prop) : Prop where
  nil {xs : List Lexeme} : P xs []
  skip {x : Lexeme} {xs : List Lexeme} {ns : List Node} : P xs ns → P (x :: xs) ns
  append {xs ys : List Lexeme} {ns ms : List Node} : P xs ns → P ys ms → P (xs ++ ys) (ns ++ ms)
  node {xs : List Lexeme} {n : Node} : n.Over xs → P xs (n.children.map (·.node)) → P xs [n]
  /-- An expression that is not there stands right before a token. -/
  absent {x : Lexeme} : P [x] [.expr (.bad x.location.atStart)]

namespace Overlay

variable {P : List Lexeme → List Node → Prop} {xs : List Lexeme} {n : Node} {ns : List Node}

/-- Tokens before the nodes may be skipped. -/
theorem skips (hP : Overlay P) (ws : List Lexeme) (h : P xs ns) : P (ws ++ xs) ns :=
  hP.append (hP.nil : P ws []) h

/-- Tokens behind the trees. -/
theorem before (hP : Overlay P) (ws : List Lexeme) (h : P xs ns) : P (xs ++ ws) ns := by
  simpa using hP.append h (hP.nil : P ws [])

/-- A node without children lies over its tokens as a whole. -/
theorem leaf (hP : Overlay P) (hn : n.Over xs) (hc : n.children = []) : P xs [n] :=
  hP.node hn (hc ▸ hP.nil)

theorem ident (hP : Overlay P) {x : Lexeme} (hx : x.token = .ident) : P [x] [x.ident.node] :=
  hP.leaf (Node.over_ident hx) rfl

/-- A type is a leaf. -/
theorem typeRef (hP : Overlay P) {t : TypeName} (ht : TypeRef xs t) : P xs [.typeName t] :=
  hP.leaf (Node.over_typeName ht.ne_nil ht.location) rfl

end Overlay

namespace Grammar

variable {m : Mode} {P : List Lexeme → List Node → Prop}

/-- A name is a type without dimensions. -/
theorem QualName.typeRef {xs : List Lexeme} {t : TypeName} (h : QualName xs t) : TypeRef xs t := by
  have htype := TypeRef.mk h .none
  rw [List.append_nil, ← h.location] at htype
  have hdims := h.dims
  cases t
  simp_all

/-- **Derived expressions are laid over their tokens.** -/
theorem DerivesExpr.overlay (hP : Overlay P) {sym : ExprSymbol} {xs : List Lexeme} {ts : List Expr}
    (h : DerivesExpr m sym xs ts) : P xs (ts.map .expr) := by
  induction h with
  | value _ ih | tighter _ _ ih | term _ ih | unsigned _ ih | start _ ih | arrayOperand _ ih | one _ ih => exact ih
  | assign _ _ _ _ ihx ihv | joined _ _ _ ihx ihv =>
    exact hP.node (Node.over_plain (by simp) rfl trivial rfl)
      (hP.append ihx (hP.skip ihv))
  | signed _ _ ih =>
    exact hP.node (Node.over_plain (by simp) rfl trivial rfl) (hP.skip ih)
  | stepped _ _ ih =>
    exact hP.node (Node.over_plain (by simp) rfl trivial rfl) (hP.before _ ih)
  | index _ _ _ _ ihx ihi =>
    exact hP.node (Node.over_plain (by simp) rfl trivial rfl)
      (hP.append ihx (hP.skip (hP.before _ ihi)))
  | call hx _ ihx iha =>
    refine hP.node (Node.over_plain (by simp [hx.ne_nil]) rfl trivial rfl) ?_
    simpa [Node.children, Expr.children] using hP.append ihx iha
  | select _ _ hi ih =>
    exact hP.node (Node.over_plain (by simp) rfl trivial rfl)
      (hP.append ih (hP.skip (hP.ident hi)))
  | @literal x hx =>
    exact hP.leaf (Node.over_plain (by simp) rfl ⟨x, by simp, hx, rfl⟩ rfl) rfl
  | ident hx => exact hP.ident hx
  | malformed _ _ => exact hP.leaf (Node.over_plain (by simp) rfl trivial rfl) rfl
  | paren _ _ _ ih =>
    exact hP.node (Node.over_plain (by simp) rfl trivial rfl)
      (hP.skip (hP.before _ ih))
  | @newObject kw xs ys t args _ hq _ ih =>
    refine hP.node (Node.over_typed rfl trivial hq.typeRef ⟨[kw], ys, by simp⟩ rfl rfl) ?_
    simpa [Node.children, Expr.children] using hP.skip (hP.append (hP.typeRef hq.typeRef) ih)
  | @newLength kw l r xs ys zs t len n _ hq _ hlen hr hz ih =>
    have htype : P xs [.typeName { t with dims := n + 1 }] :=
      hP.leaf (Node.over_typeName hq.ne_nil hq.location) rfl
    refine hP.node ⟨by simp, rfl, trivial, fun u hu => ?_⟩ ?_
    · obtain rfl : { t with dims := n + 1 } = u := by simpa [Node.type?] using hu
      have hloc := hlen.location rfl len (List.mem_singleton_self _)
      exact .sized rfl List.infix_rfl rfl hq hlen.ne_nil hloc hr hz
    · simpa [Node.children, Expr.children] using hP.skip (hP.append htype (hP.skip (hP.before (r :: zs) ih)))
  | @newElements kw xs ys t a _ ht _ _ ih =>
    refine hP.node (Node.over_typed rfl trivial ht ⟨[kw], ys, by simp⟩ rfl rfl) ?_
    simpa [Node.children, Expr.children, ArrayLit.node] using hP.skip (hP.append (hP.typeRef ht) ih)
  | more _ _ _ ihx ihl => exact hP.append ihx (hP.skip ihl)
  | noArguments _ _ => exact hP.nil
  | someArguments _ _ _ ih => exact hP.skip (hP.before _ ih)
  | noElements _ _ =>
    exact hP.leaf (Node.over_plain (by simp) rfl trivial rfl) rfl
  | elements _ _ _ ih | elementsComma _ _ _ _ ih =>
    refine hP.node (Node.over_plain (by simp) rfl trivial rfl) ?_
    simpa [Node.children, Expr.children] using hP.skip (hP.before _ ih)

/-! ## Parts of statements -/

/-- The parentheses of a condition are skipped. -/
theorem Condition.overlay (hP : Overlay P) {xs : List Lexeme} {x : Expr} (h : Condition m xs x) : P xs [.expr x] := by
  cases h with
  | good _ hx _ => exact hP.skip (hP.before _ (hx.overlay hP))
  | @bad l r xs _ _ _ =>
    refine hP.skip ?_
    by_cases hxs : xs = []
    · subst hxs
      exact hP.absent
    · rw [if_neg hxs]
      exact hP.before _ (hP.leaf (Node.over_plain hxs rfl trivial rfl) rfl)

theorem OptExpr.overlay (hP : Overlay P) {xs : List Lexeme} {x : Option Expr} (h : OptExpr m xs x) :
    P xs (x.map .expr).toList := by
  cases h with
  | none => exact hP.nil
  | some hx => exact hx.overlay hP

/-- A declaration, perhaps with modifiers in front and a semicolon behind. -/
theorem Declares.overlay (hP : Overlay P) {xs : List Lexeme} {t : TypeName} {i : Ident} {x : Option Expr}
    (h : Declares m xs t i x) (ws zs : List Lexeme) (mods : List Token) :
    P (ws ++ (xs ++ zs)) [.stmt (.varDecl
      { location := extent (ws ++ (xs ++ zs)), modifiers := mods, type := t, name := i, init := x })] := by
  cases h with
  | @bare xs _ y ht hy =>
    refine hP.node (Node.over_typed rfl trivial ht ⟨ws, y :: zs, by simp⟩ rfl rfl) ?_
    exact hP.skips ws (hP.before zs (hP.append (hP.typeRef ht) (hP.ident hy)))
  | @init xs ys _ y a x ht hy _ hx =>
    refine hP.node (Node.over_typed rfl trivial ht ⟨ws, y :: a :: (ys ++ zs), by simp⟩ rfl rfl) ?_
    have hvalue := hP.append (hP.ident hy) (hP.skip (hx.overlay hP) : P (a :: ys) _)
    exact hP.skips ws (hP.before zs (hP.append (hP.typeRef ht) hvalue))

/-- The first part of a `for` lies over its tokens, if there is one. -/
theorem ForInit.overlay (hP : Overlay P) {xs : List Lexeme} {o : Option Stmt} (h : ForInit m xs o) :
    P xs (o.map .stmt).toList := by
  cases h with
  | none => exact hP.nil
  | decl hd => simpa using hd.overlay hP [] [] []
  | expr hx => exact hP.node (Node.over_plain hx.ne_nil rfl trivial rfl) (hx.overlay hP)

/-- A parameter has a type and a name under it, in this order. -/
theorem IsParam.overlay (hP : Overlay P) {xs : List Lexeme} {p : Param} (h : IsParam xs p) : P xs [.param p] := by
  cases h with
  | @mk xs t i ht hi =>
    exact hP.node (Node.over_typed rfl trivial ht ⟨[], [i], rfl⟩ rfl rfl) (hP.append (hP.typeRef ht) (hP.ident hi))

/-- Commas between parameters are skipped. -/
theorem ParamList.overlay (hP : Overlay P) {xs : List Lexeme} {ps : List Param} (h : ParamList xs ps) :
    P xs (ps.map .param) := by
  induction h with
  | one hp => exact hp.overlay hP
  | more hp _ _ ih => exact hP.append (hp.overlay hP) (hP.skip ih)

theorem Params.overlay (hP : Overlay P) {xs : List Lexeme} {ps : List Param} (h : Params xs ps) :
    P xs (ps.map .param) := by
  cases h with
  | none _ _ => exact hP.nil
  | some _ hps _ => exact hP.skip (hP.before _ (hps.overlay hP))

/-! ## Statements -/

/-- **Derived statements are laid over their tokens.** A conditional or a protected block that may still grow has its
children laid over them. -/
theorem DerivesStmt.overlay (hP : Overlay P) {sym : StmtSymbol} {xs : List Lexeme} {ss : List Stmt}
    (h : DerivesStmt m sym xs ss) :
    P xs (ss.map .stmt) ∧ (sym = .arms ∨ sym = .clauses → P xs (ss.flatMap fun t => t.children.map (·.node))) := by
  induction h with
  | braced _ ih | ifStmt _ ih | stmt _ ih => exact ⟨ih.1, by simp⟩
  | varDecl hd _ => exact ⟨hd.overlay hP [] [_] [], by simp⟩
  | expr hx _ _ =>
    exact ⟨hP.node (Node.over_plain (by simp) rfl trivial rfl) (hP.before _ (hx.overlay hP)), by simp⟩
  | empty _ => exact ⟨hP.leaf (Node.over_plain (by simp) rfl trivial rfl) rfl, by simp⟩
  | ret _ hx _ =>
    refine ⟨hP.node (Node.over_plain (by simp) rfl trivial rfl) ?_, by simp⟩
    simpa [Node.children, Stmt.children] using hP.skip (hP.before _ (hx.overlay hP))
  | whileLoop _ hc _ ih =>
    refine ⟨hP.node (Node.over_plain (by simp) rfl trivial rfl) ?_, by simp⟩
    exact hP.skip (hP.append (hc.overlay hP) ih.1)
  | doWhile _ _ _ hc _ ih =>
    refine ⟨hP.node (Node.over_plain (by simp) rfl trivial rfl) ?_, by simp⟩
    exact hP.skip (hP.append ih.1 (hP.skip (hP.before _ (hc.overlay hP))))
  | forLoop _ _ hi _ hc _ hu _ _ ih =>
    refine ⟨hP.node (Node.over_plain (by simp) rfl trivial rfl) ?_, by simp⟩
    simpa [Node.children, Stmt.children, Block.node] using hP.skip (hP.skip (hP.append (hi.overlay hP)
      (hP.skip (hP.append (hc.overlay hP) (hP.skip (hP.append (hu.overlay hP) (hP.skip ih.1)))))))
  | ifElse _ _ _ iharms ihblock =>
    refine ⟨hP.node (Node.over_plain (by simp) rfl trivial rfl) ?_, by simp⟩
    simpa [Node.children, Stmt.children, Block.node] using hP.append (iharms.2 (.inl rfl)) (hP.skip ihblock.1)
  | tryStmt _ _ _ ih => exact ⟨hP.before _ ih.1, by simp⟩
  | tryFinally _ _ _ ihclauses ihblock =>
    refine ⟨hP.node (Node.over_plain (by simp) rfl trivial rfl) ?_, by simp⟩
    simpa [Node.children, Stmt.children, Block.node] using hP.append (ihclauses.2 (.inr rfl)) (hP.skip ihblock.1)
  | @arm kw xs ys c b _ hc _ ih =>
    have hcs : P (kw :: (xs ++ ys)) [.expr c, b.node] := hP.skip (hP.append (hc.overlay hP) ih.1)
    exact ⟨hP.node (Node.over_plain (by simp) rfl trivial rfl) hcs, fun _ => hcs⟩
  | @elseIf xs ys zs els kw loc c c' b b' as _ _ _ hc _ iharms ihblock =>
    -- the statement before the last arm is no node of the tree, so its children are taken instead
    have harm : P (els :: kw :: (ys ++ zs)) [.elseIf (.mk (extent (els :: kw :: (ys ++ zs))) c' b')] :=
      hP.node (Node.over_plain (by simp) rfl trivial rfl) (hP.skip (hP.skip (hP.append (hc.overlay hP) ihblock.1)))
    have hcs := hP.append (iharms.2 (.inl rfl)) harm
    refine ⟨hP.node (Node.over_plain (by simp) rfl trivial rfl) ?_, fun _ => ?_⟩
    · simpa [Node.children, Stmt.children] using hcs
    · simpa [Stmt.children] using hcs
  | @guarded kw xs b _ _ ih =>
    have hcs : P (kw :: xs) [b.node] := hP.skip ih.1
    exact ⟨hP.node (Node.over_plain (by simp) rfl trivial rfl) hcs, fun _ => hcs⟩
  | @catchClause xs ys zs kw l i r loc b b' cs t _ _ _ ht hi _ _ ihclauses ihblock =>
    have hclause : P (kw :: l :: (ys ++ i :: r :: zs))
        [.catchClause (.mk (extent (kw :: l :: (ys ++ i :: r :: zs))) t i.ident b')] :=
      hP.node (Node.over_typed rfl trivial ht ⟨[kw, l], i :: r :: zs, by simp⟩ rfl rfl)
        (hP.skip (hP.skip (hP.append (hP.typeRef ht) (hP.append (hP.ident hi) (hP.skip ihblock.1)))))
    have hcs := hP.append (ihclauses.2 (.inr rfl)) hclause
    refine ⟨hP.node (Node.over_plain (by simp) rfl trivial rfl) ?_, fun _ => ?_⟩
    · simpa [Node.children, Stmt.children] using hcs
    · simpa [Stmt.children] using hcs
  | block _ _ _ ih =>
    refine ⟨hP.node (Node.over_plain (by simp) rfl trivial rfl) ?_, by simp⟩
    simpa [Node.children, Stmt.children] using hP.skip (hP.before _ ih.1)
  | openBlock _ _ _ ih =>
    refine ⟨hP.node (Node.over_plain (by simp) rfl trivial rfl) ?_, by simp⟩
    simpa [Node.children, Stmt.children] using hP.skip ih.1
  | field _ hd _ => exact ⟨hd.overlay hP _ _ _, by simp⟩
  | @method p mods xs ys zs i t ps b _ _ ht hi hps _ ih =>
    refine ⟨hP.node (Node.over_typed rfl trivial ht ⟨mods, i :: (ys ++ zs), by simp⟩ rfl rfl) ?_, by simp⟩
    have hcs := hP.append (hP.typeRef ht) (hP.append (hP.ident hi) (hP.append (hps.overlay hP) ih.1))
    simpa [Node.children, Stmt.children, Block.node] using hP.skips mods hcs
  | @classDecl mods xs kw i l r ss _ _ hi _ _ _ ih =>
    refine ⟨hP.node (Node.over_plain (by simp) rfl trivial rfl) ?_, by simp⟩
    have hcs : P (kw :: i :: l :: (xs ++ [r])) (i.ident.node :: ss.map .stmt) :=
      hP.skip (hP.append (hP.ident hi) (hP.skip (hP.before _ ih.1)))
    simpa [Node.children, Stmt.children] using hP.skips mods hcs
  | @openClass mods xs kw i l ss _ _ _ hi _ _ ih =>
    refine ⟨hP.node (Node.over_plain (by simp) rfl trivial rfl) ?_, by simp⟩
    have hcs : P (kw :: i :: l :: xs) (i.ident.node :: ss.map .stmt) :=
      hP.skip (hP.append (hP.ident hi) (hP.skip ih.1))
    simpa [Node.children, Stmt.children] using hP.skips mods hcs
  | nil => exact ⟨hP.nil, by simp⟩
  | cons _ _ ihitem ihlist => exact ⟨hP.append ihitem.1 ihlist.1, by simp⟩
  | @skip p xs ys ss _ hne _ ih =>
    have hbad : P xs [.stmt (.bad (extent xs))] := hP.leaf (Node.over_plain hne rfl trivial rfl) rfl
    exact ⟨hP.append hbad ih.1, by simp⟩

end Grammar

end SmallJava
