import SmallJava.Proofs.Grammar.Stmt
import SmallJava.Proofs.Tree.Preorder

/-!
# What a mode says about trees

The modes of the grammar differ in what the nodes of their trees may be: bad nodes need error productions, and
improper targets of assignments and unhandled `try` statements need a lax mode. `Node.Fits` says that of one
node.

* `DerivesStmt.fits` — every node of a derived tree fits the mode;
* `DerivesStmt.refit` — a tree whose nodes fit another mode is derived in that mode.

In particular the tight derivations are the plain ones whose trees have proper targets and handlers.
-/

namespace SmallJava

open Grammar

/-- The node is one that a derivation in the mode may have. -/
def Node.Fits (m : Mode) : Node → Prop
  | .expr (.bad _) | .stmt (.bad _) => m.errors
  | .expr (.assign _ _ target _) => m.lax ∨ target.isAssignable = true
  | .stmt (.tryCatch _ _ catches none) => m.lax ∨ catches ≠ []
  | _ => True

/-- What fits one mode fits any mode that allows as much. -/
theorem Node.Fits.mono {m m' : Mode} {n : Node} (h : n.Fits m) (he : m.errors → m'.errors) (hl : m.lax → m'.lax) :
    n.Fits m' := by
  unfold Fits at h ⊢
  split
  · exact he h
  · exact he h
  · exact h.imp_left hl
  · exact h.imp_left hl
  · trivial

namespace Grammar

variable {m m' : Mode} {xs : List Lexeme}

/-- **All nodes of a derived expression fit the mode** of the derivation. -/
theorem DerivesExpr.fits {sym : ExprSymbol} {ts : List Expr} (h : DerivesExpr m sym xs ts) :
    ∀ t ∈ ts, (Node.expr t).All (Node.Fits m) := by
  induction h with
  | value _ ih | tighter _ _ ih | term _ ih | unsigned _ ih | start _ ih | arrayOperand _ ih | one _ ih
    | someArguments _ _ _ ih => exact ih
  | more => simp_all
  | noArguments => simp
  | _ =>
    simp only [List.mem_singleton, forall_eq]
    rw [Node.all_iff]
    simp_all [Node.children, Expr.children, Node.Fits, Ident.node, ArrayLit.node]

/-- The expressions directly below an expression fit if it does. -/
theorem fits_below {x y : Expr} (h : ∀ t ∈ [x], (Node.expr t).All (Node.Fits m))
    (hy : Node.expr y ∈ x.children.map (·.node)) : ∀ t ∈ [y], (Node.expr t).All (Node.Fits m) :=
  List.forall_mem_singleton.2 ((List.forall_mem_singleton.1 h).child hy)

theorem fits_below_all {x : Expr} {ys : List Expr} (h : ∀ t ∈ [x], (Node.expr t).All (Node.Fits m))
    (hys : ∀ y ∈ ys, Node.expr y ∈ x.children.map (·.node)) : ∀ t ∈ ys, (Node.expr t).All (Node.Fits m) :=
  fun t ht => (List.forall_mem_singleton.1 h).child (hys t ht)

/-- **A derivation can be repeated** in any mode that all nodes fit. -/
theorem DerivesExpr.refit {sym : ExprSymbol} {ts : List Expr} (h : DerivesExpr m sym xs ts)
    (hts : ∀ t ∈ ts, (Node.expr t).All (Node.Fits m')) : DerivesExpr m' sym xs ts := by
  induction h with
  | value _ ih => exact .value (ih hts)
  | assign _ hop _ _ ihx ihv =>
    have hx := ihx (fits_below hts (by simp [Expr.children]))
    have hv := ihv (fits_below hts (by simp [Expr.children]))
    exact .assign hx hop (List.forall_mem_singleton.1 hts).self hv
  | joined _ hop _ ihx ihy =>
    exact .joined (ihx (fits_below hts (by simp [Expr.children]))) hop (ihy (fits_below hts (by simp [Expr.children])))
  | tighter hp _ ih => exact .tighter hp (ih hts)
  | term _ ih => exact .term (ih hts)
  | signed hop _ ih => exact .signed hop (ih (fits_below hts (by simp [Expr.children])))
  | unsigned _ ih => exact .unsigned (ih hts)
  | stepped _ hop ih => exact .stepped (ih (fits_below hts (by simp [Expr.children]))) hop
  | start _ ih => exact .start (ih hts)
  | index _ hl _ hr ihx ihi =>
    have hx := ihx (fits_below hts (by simp [Expr.children]))
    exact .index hx hl (ihi (fits_below hts (by simp [Expr.children]))) hr
  | call _ _ ihx iha =>
    have hx := ihx (fits_below hts (by simp [Expr.children]))
    exact .call hx (iha (fits_below_all hts (by simp +contextual [Expr.children])))
  | select _ hd hi ih => exact .select (ih (fits_below hts (by simp [Expr.children]))) hd hi
  | literal hx => exact .literal hx
  | ident hx => exact .ident hx
  | paren hl _ hr ih => exact .paren hl (ih (fits_below hts (by simp [Expr.children]))) hr
  | arrayOperand _ ih => exact .arrayOperand (ih hts)
  | newObject hk hq _ ih => exact .newObject hk hq (ih (fits_below_all hts (by simp [Expr.children])))
  | newLength hk hq hl _ hr hn ih =>
    exact .newLength hk hq hl (ih (fits_below hts (by simp [Expr.children]))) hr hn
  | newElements hk ht hpos _ ih =>
    exact .newElements hk ht hpos (ih (fits_below hts (by simp [Expr.children, ArrayLit.node])))
  | malformed _ hx => exact .malformed (List.forall_mem_singleton.1 hts).self hx
  | one _ ih => exact .one (ih hts)
  | more _ hc _ ih ihs =>
    obtain ⟨hx, hrest⟩ := List.forall_mem_cons.1 hts
    exact .more (ih (List.forall_mem_singleton.2 hx)) hc (ihs hrest)
  | noArguments hl hr => exact .noArguments hl hr
  | someArguments hl _ hr ih => exact .someArguments hl (ih hts) hr
  | noElements hl hr => exact .noElements hl hr
  | elements hl _ hr ih => exact .elements hl (ih (fits_below_all hts (by simp [Expr.children]))) hr
  | elementsComma hl _ hc hr ih =>
    exact .elementsComma hl (ih (fits_below_all hts (by simp [Expr.children]))) hc hr

/-! ## Parts of statements -/

theorem Condition.fits {x : Expr} (h : Condition m xs x) : (Node.expr x).All (Node.Fits m) := by
  cases h with
  | good _ hx _ => exact hx.fits _ (by simp)
  | bad he => exact (Node.all_leaf rfl).2 he

/-- Between its parentheses a condition is derived again. -/
theorem Condition.refit {x : Expr} (h : Condition m xs x) (hx : (Node.expr x).All (Node.Fits m')) :
    Condition m' xs x := by
  cases h with
  | good hl h hr => exact .good hl (h.refit (List.forall_mem_singleton.2 hx)) hr
  | bad _ hl hr => exact .bad hx.self hl hr

theorem OptExpr.fits {o : Option Expr} (h : OptExpr m xs o) : ∀ x ∈ o, (Node.expr x).All (Node.Fits m) := by
  cases h with
  | none => simp
  | some hx => simpa using hx.fits

/-- An expression that may be left out is derived again if it is there. -/
theorem OptExpr.refit {o : Option Expr} (h : OptExpr m xs o) (ho : ∀ x ∈ o, (Node.expr x).All (Node.Fits m')) :
    OptExpr m' xs o := by
  cases h with
  | none => exact .none
  | some hx => exact .some (hx.refit (by simpa using ho))

theorem Declares.fits {t : TypeName} {i : Ident} {o : Option Expr} (h : Declares m xs t i o) :
    ∀ x ∈ o, (Node.expr x).All (Node.Fits m) := by
  cases h with
  | bare => simp
  | init _ _ _ hx => simpa using hx.fits

/-- A declaration is derived again if its value fits. -/
theorem Declares.refit {t : TypeName} {i : Ident} {o : Option Expr} (h : Declares m xs t i o)
    (ho : ∀ x ∈ o, (Node.expr x).All (Node.Fits m')) : Declares m' xs t i o := by
  cases h with
  | bare ht hi => exact .bare ht hi
  | init ht hi ha hx => exact .init ht hi ha (hx.refit (by simpa using ho))

/-- A declaration fits if its value does. -/
theorem fits_varDecl {d : VarDecl} (h : ∀ x ∈ d.init, (Node.expr x).All (Node.Fits m)) :
    (Node.stmt (.varDecl d)).All (Node.Fits m) := by
  rw [Node.all_iff]
  simpa [Node.children, Stmt.children, Node.Fits, Ident.node] using h

theorem ForInit.fits {o : Option Stmt} (h : ForInit m xs o) : ∀ s ∈ o, (Node.stmt s).All (Node.Fits m) := by
  cases h with
  | none => simp
  | decl hd => simpa using fits_varDecl hd.fits
  | expr hx =>
    simp only [Option.mem_def, Option.some.injEq, forall_eq']
    rw [Node.all_iff]
    simpa [Node.children, Stmt.children, Node.Fits] using hx.fits

/-- The first part of a `for` is derived again as what it is. -/
theorem ForInit.refit {o : Option Stmt} (h : ForInit m xs o) (ho : ∀ s ∈ o, (Node.stmt s).All (Node.Fits m')) :
    ForInit m' xs o := by
  cases h with
  | none => exact .none
  | decl hd =>
    have hall := ho _ rfl
    exact .decl (hd.refit fun x hx => hall.child (by simp_all [Node.children, Stmt.children]))
  | expr hx =>
    have hall := ho _ rfl
    exact .expr (hx.refit (List.forall_mem_singleton.2 (hall.child (by simp [Node.children, Stmt.children]))))

/-! ## Statements -/

/-- All nodes below the statement fit the mode, and so does the statement if it is complete; a `try` statement without
all of its clauses is not. -/
def FitsUnder (m : Mode) (complete : Prop) (t : Stmt) : Prop :=
  (complete → (Node.stmt t).Fits m) ∧ ∀ c ∈ t.children.map (·.node), c.All (Node.Fits m)

/-- What is complete fits as a whole. -/
theorem FitsUnder.all {complete : Prop} {t : Stmt} (h : FitsUnder m complete t) (hc : complete) :
    (Node.stmt t).All (Node.Fits m) :=
  Node.all_iff.2 ⟨h.1 hc, h.2⟩

/-- What fits as a whole fits as far as it is complete. -/
theorem FitsUnder.of_all {complete : Prop} {t : Stmt} (h : (Node.stmt t).All (Node.Fits m)) :
    FitsUnder m complete t :=
  ⟨fun _ => h.self, (Node.all_iff.1 h).2⟩

/-- Clauses alone may lack a handler that follows, so they only fit once they are complete. -/
theorem DerivesStmt.fitsUnder {sym : StmtSymbol} {ss : List Stmt} (h : DerivesStmt m sym xs ss) :
    ∀ t ∈ ss, FitsUnder m (sym ≠ .clauses) t := by
  induction h with
  | braced _ ih | ifStmt _ ih | stmt _ ih => exact fun t ht => .of_all ((ih t ht).all (by simp))
  | varDecl hd _ | field _ hd _ => simpa using .of_all (fits_varDecl hd.fits)
  | nil => simp
  | cons _ _ ih ihs =>
    simp only [List.mem_cons, List.not_mem_nil, or_false, forall_eq, forall_eq_or_imp] at ih ⊢
    exact ⟨.of_all (ih.all (by simp)), ihs⟩
  | skip he _ _ ih => exact List.forall_mem_cons.2 ⟨.of_all ((Node.all_leaf rfl).2 he), ih⟩
  | expr hx _ _ =>
    have hx := hx.fits
    simp_all [FitsUnder, Stmt.children, Node.Fits]
  | ret _ hx _ =>
    have hx := hx.fits
    simp_all [FitsUnder, Stmt.children, Node.Fits]
  | whileLoop _ hc _ ih | doWhile _ _ _ hc _ ih | arm _ hc _ ih =>
    have hc := hc.fits
    have hb := (ih _ (List.mem_singleton.2 rfl)).all (by simp)
    simp_all [FitsUnder, Stmt.children, Node.Fits, Block.node]
  | forLoop _ _ hi _ hc _ hu _ _ ih =>
    have hi := hi.fits
    have hc := hc.fits
    have hu := hu.fits
    have hb := (ih _ (List.mem_singleton.2 rfl)).all (by simp)
    simp_all [FitsUnder, Stmt.children, Node.Fits, Block.node, or_imp, forall_and]
  | tryStmt _ hhandled _ ih => simp_all [FitsUnder, Node.Fits]
  | ifElse _ _ _ ih ihb | tryFinally _ _ _ ih ihb | catchClause _ _ _ _ _ _ _ ih ihb =>
    have hb := (ihb _ (List.mem_singleton.2 rfl)).all (by simp)
    simp_all [FitsUnder, Stmt.children, Node.Fits, Block.node, or_imp, forall_and]
  | elseIf _ _ _ hc _ ih ihb =>
    have hc := hc.fits
    have hb := (ihb _ (List.mem_singleton.2 rfl)).all (by simp)
    simp_all [FitsUnder, Stmt.children, Node.Fits, Block.node, or_imp, forall_and]
  | guarded _ _ ih =>
    have hb := (ih _ (List.mem_singleton.2 rfl)).all (by simp)
    simp_all [FitsUnder, Stmt.children, Block.node]
  | method _ _ _ _ _ _ ih =>
    have hb := (ih _ (List.mem_singleton.2 rfl)).all (by simp)
    simp_all [FitsUnder, Stmt.children, Node.Fits, Block.node, Ident.node, or_imp]
  | block _ _ _ ih | openBlock _ _ _ ih | classDecl _ _ _ _ _ _ ih | openClass _ _ _ _ _ _ ih =>
    have hss := fun t ht => (ih t ht).all (by simp)
    simp_all [FitsUnder, Stmt.children, Node.Fits, Ident.node]
  | empty _ => simp [FitsUnder, Stmt.children, Node.Fits]

/-- **Every node of a derived tree fits the mode.** -/
theorem DerivesStmt.fits {p : Place} {ss : List Stmt} (h : DerivesStmt m (.list p) xs ss) :
    ∀ t ∈ ss, (Node.stmt t).All (Node.Fits m) :=
  fun t ht => (h.fitsUnder t ht).all (by simp)

/-- What is under a statement is complete. -/
theorem FitsUnder.child {complete : Prop} {t : Stmt} {n : Node} (h : ∀ s ∈ [t], FitsUnder m complete s)
    (hn : n ∈ t.children.map (·.node)) : n.All (Node.Fits m) :=
  (List.forall_mem_singleton.1 h).2 n hn

theorem FitsUnder.block {complete complete' : Prop} {t : Stmt} {b : Block} (h : ∀ s ∈ [t], FitsUnder m complete s)
    (hb : b.node ∈ t.children.map (·.node)) : ∀ s ∈ [.block b], FitsUnder m complete' s :=
  List.forall_mem_singleton.2 (.of_all (FitsUnder.child h hb))

/-- A conditional or a protected block fits before its last part has been added. -/
theorem FitsUnder.part {complete complete' : Prop} {t t' : Stmt} (h : ∀ s ∈ [t], FitsUnder m complete s)
    (hsub : ∀ n ∈ t'.children.map (·.node), n ∈ t.children.map (·.node)) (ht' : complete' → (Node.stmt t').Fits m) :
    ∀ s ∈ [t'], FitsUnder m complete' s :=
  List.forall_mem_singleton.2 ⟨ht', fun n hn => FitsUnder.child h (hsub n hn)⟩

theorem FitsUnder.list {complete : Prop} {t : Stmt} {ss : List Stmt} (h : ∀ s ∈ [t], FitsUnder m complete s)
    (hss : ∀ s ∈ ss, Node.stmt s ∈ t.children.map (·.node)) {complete' : Prop} :
    ∀ s ∈ ss, FitsUnder m complete' s :=
  fun s hs => .of_all (FitsUnder.child h (hss s hs))

/-- The last arm fits, as one of them. -/
theorem FitsUnder.lastArm {complete : Prop} {loc : Location} {c : Expr} {b : Block} {as : List ElseIf} {a : ElseIf}
    (h : ∀ s ∈ [.ifElse loc c b (as ++ [a]) none], FitsUnder m complete s) : (Node.elseIf a).All (Node.Fits m) :=
  FitsUnder.child h (by simp [Stmt.children])

theorem FitsUnder.lastClause {complete : Prop} {loc : Location} {b : Block} {cs : List CatchClause}
    {c : CatchClause} (h : ∀ s ∈ [.tryCatch loc b (cs ++ [c]) none], FitsUnder m complete s) :
    (Node.catchClause c).All (Node.Fits m) :=
  FitsUnder.child h (by simp [Stmt.children])

/-- Statements are derived again, in any mode that leaves as much open. -/
theorem DerivesStmt.refitUnder {sym : StmtSymbol} {ss : List Stmt} (h : DerivesStmt m sym xs ss)
    (ho : m.opens → m'.opens) (hh : m.halts → m'.halts) (hss : ∀ t ∈ ss, FitsUnder m' (sym ≠ .clauses) t) :
    DerivesStmt m' sym xs ss := by
  induction h with
  | braced _ ih => exact .braced (ih (by simpa using hss))
  | varDecl hd hsemi =>
    exact .varDecl (hd.refit fun x hx => FitsUnder.child hss (by simp_all [Stmt.children])) hsemi
  | expr hx hbrace hsemi =>
    exact .expr (hx.refit (List.forall_mem_singleton.2 (FitsUnder.child hss (by simp [Stmt.children])))) hbrace hsemi
  | empty hsemi => exact .empty hsemi
  | ret hk hx hsemi =>
    exact .ret hk (hx.refit fun x hx => FitsUnder.child hss (by simp_all [Stmt.children])) hsemi
  | whileLoop hk hc _ ih =>
    have hb := ih (FitsUnder.block hss (by simp [Stmt.children]))
    exact .whileLoop hk (hc.refit (FitsUnder.child hss (by simp [Stmt.children]))) hb
  | doWhile hk _ hwh hc hsemi ih =>
    have hb := ih (FitsUnder.block hss (by simp [Stmt.children]))
    exact .doWhile hk hb hwh (hc.refit (FitsUnder.child hss (by simp [Stmt.children]))) hsemi
  | forLoop hk hl hi hs₁ hc hs₂ hu hr _ ih =>
    have hb := ih (FitsUnder.block hss (by simp [Stmt.children]))
    exact .forLoop hk hl (hi.refit fun s hs => FitsUnder.child hss (by simp_all [Stmt.children])) hs₁
      (hc.refit fun x hx => FitsUnder.child hss (by simp_all [Stmt.children])) hs₂
      (hu.refit fun x hx => FitsUnder.child hss (by simp_all [Stmt.children])) hr hb
  | ifStmt _ ih => exact .ifStmt (ih (by simpa using hss))
  | ifElse _ hels _ ih ihe =>
    -- without its last part the statement has fewer children, and they fit as before
    have has := ih (FitsUnder.part hss (by simp +contextual [Stmt.children]) fun _ => trivial)
    exact .ifElse has hels (ihe (FitsUnder.block hss (by simp [Stmt.children])))
  | tryStmt _ _ hjunk ih =>
    have hcs := ih (FitsUnder.part hss (fun _ hn => hn) (by simp))
    exact .tryStmt hcs ((List.forall_mem_singleton.1 hss).1 (by simp)) (hjunk.imp_right hh)
  | tryFinally _ hk _ ih ihf =>
    have hcs := ih (FitsUnder.part hss (by simp +contextual [Stmt.children]) (by simp))
    exact .tryFinally hcs hk (ihf (FitsUnder.block hss (by simp [Stmt.children])))
  | arm hk hc _ ih =>
    have hb := ih (FitsUnder.block hss (by simp [Stmt.children]))
    exact .arm hk (hc.refit (FitsUnder.child hss (by simp [Stmt.children]))) hb
  | elseIf _ hels hk hc _ ih ihb =>
    have has := ih (FitsUnder.part hss (by simp +contextual [Stmt.children]) fun _ => trivial)
    obtain ⟨-, hc', hb'⟩ := Node.all_elseIf.1 (FitsUnder.lastArm hss)
    exact .elseIf has hels hk (hc.refit hc') (ihb (List.forall_mem_singleton.2 (.of_all hb')))
  | guarded hk _ ih => exact .guarded hk (ih (FitsUnder.block hss (by simp [Stmt.children])))
  | catchClause _ hk hl ht hi hr _ ih ihb =>
    have hcs := ih (FitsUnder.part hss (by simp +contextual [Stmt.children]) (by simp))
    obtain ⟨-, -, -, hb'⟩ := Node.all_catchClause.1 (FitsUnder.lastClause hss)
    exact .catchClause hcs hk hl ht hi hr (ihb (List.forall_mem_singleton.2 (.of_all hb')))
  | block hl _ hr ih => exact .block hl (ih (FitsUnder.list hss (by simp [Stmt.children]))) hr
  | openBlock hopen hl _ ih => exact .openBlock (ho hopen) hl (ih (FitsUnder.list hss (by simp [Stmt.children])))
  | field hmods hd hsemi =>
    exact .field hmods (hd.refit fun x hx => FitsUnder.child hss (by simp_all [Stmt.children])) hsemi
  | method hp hmods ht hi hps _ ih =>
    exact .method hp hmods ht hi hps (ih (FitsUnder.block hss (by simp [Stmt.children])))
  | stmt _ ih => exact .stmt (ih (by simpa using hss))
  | classDecl hmods hk hi hl _ hr ih =>
    exact .classDecl hmods hk hi hl (ih (FitsUnder.list hss (by simp +contextual [Stmt.children]))) hr
  | openClass hopen hmods hk hi hl _ ih =>
    exact .openClass (ho hopen) hmods hk hi hl (ih (FitsUnder.list hss (by simp +contextual [Stmt.children])))
  | nil => exact .nil
  | cons _ _ ih ihs =>
    obtain ⟨hs, hrest⟩ := List.forall_mem_cons.1 hss
    exact .cons (ih (List.forall_mem_singleton.2 (.of_all (hs.all (by simp))))) (ihs hrest)
  | skip _ hne _ ih =>
    obtain ⟨hs, hrest⟩ := List.forall_mem_cons.1 hss
    exact .skip (hs.1 (by simp)) hne (ih hrest)

/-- **A tree whose nodes fit another mode is derived in that mode**, if the mode has the error productions for the
tokens that are in no node. -/
theorem DerivesStmt.refit {p : Place} {ss : List Stmt} (h : DerivesStmt m (.list p) xs ss)
    (ho : m.opens → m'.opens) (hh : m.halts → m'.halts) (hss : ∀ t ∈ ss, (Node.stmt t).All (Node.Fits m')) :
    DerivesStmt m' (.list p) xs ss :=
  h.refitUnder ho hh fun t ht => .of_all (hss t ht)

/-- A mode that allows more derives more. -/
theorem DerivesStmt.mono {p : Place} {ss : List Stmt} (h : DerivesStmt m (.list p) xs ss)
    (he : m.errors → m'.errors) (ho : m.opens → m'.opens) (hh : m.halts → m'.halts) (hl : m.lax → m'.lax) :
    DerivesStmt m' (.list p) xs ss :=
  h.refit ho hh fun t ht => (h.fits t ht).mono fun _ hn => hn.mono he hl

end Grammar

end SmallJava
