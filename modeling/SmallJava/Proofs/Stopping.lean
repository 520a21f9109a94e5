import Mathlib.Data.List.Forall2
import SmallJava.Proofs.RoundTrip
import SmallJava.Proofs.Shape
import SmallJava.Proofs.Tree.Mended

/-!
# Where printing stops

Printing goes through a tree in the same order as a walk does, so it stops at the bad node that a walk comes to first,
and at nothing else: the shape of parsed trees rules out all other obstacles. What was written up to there is how the
text of the mended tree starts, because the chunks of the two trees correspond one by one and differ only where there
is a bad node.

* `Node.firstBad?` — the first bad node of a walk;
* `Chunk.Mends`, `Mending` — chunks of a tree and of the mended tree;
* `Node.mends` — one induction over the tree, for expressions and statements alike;
* `parse_stops` — the whole statement.
-/

namespace SmallJava

open Grammar

/-! ## The first bad node -/

namespace Node

/-- The node stands for text that was not understood. -/
def isBad (n : Node) : Bool := decide (n.kind = .badStmt ∨ n.kind = .badExpr)

/-- The first bad node of a walk through the tree. -/
def firstBad? (n : Node) : Option Node := n.preorder.find? isBad

/-- The first bad node of walks through several trees, one after the other. -/
def firstAmong (ns : List Node) : Option Node := ns.findSome? firstBad?

@[simp] theorem firstAmong_nil : firstAmong [] = none := rfl

@[simp] theorem firstAmong_cons (n : Node) (ns : List Node) :
    firstAmong (n :: ns) = n.firstBad?.or (firstAmong ns) := by
  unfold firstAmong
  rw [List.findSome?_cons]
  cases n.firstBad? <;> rfl

@[simp] theorem firstAmong_append (ns ms : List Node) : firstAmong (ns ++ ms) = (firstAmong ns).or (firstAmong ms) := by
  unfold firstAmong
  rw [List.findSome?_append]

/-- A bad node is the first one in itself. -/
theorem firstBad?_of_isBad {n : Node} (h : n.isBad = true) : n.firstBad? = some n := by
  unfold firstBad?
  rw [preorder_eq, List.find?_cons_of_pos h]

/-- In any other node the first one is under it. -/
theorem firstBad?_of_not_isBad {n : Node} (h : n.isBad = false) :
    n.firstBad? = firstAmong (n.children.map (·.node)) := by
  unfold firstBad? firstAmong
  rw [preorder_eq, List.find?_cons_of_neg (by simp [h]), List.find?_flatMap, List.findSome?_map]
  rfl

/-- There is no first bad node if none is bad. -/
theorem firstBad?_eq_none_iff {n : Node} : n.firstBad? = none ↔ ∀ m ∈ n.preorder, m.isBad = false := by
  unfold firstBad?
  rw [List.find?_eq_none]
  simp

@[simp] theorem firstBad?_typeName (t : TypeName) : (Node.typeName t).firstBad? = none := firstBad?_of_not_isBad rfl

@[simp] theorem firstBad?_ident (i : Ident) : (Node.expr (.ident i)).firstBad? = none := firstBad?_of_not_isBad rfl

theorem firstAmong_params (ps : List Param) : firstAmong (ps.map .param) = none := by
  induction ps with
  | nil => rfl
  | cons p ps ih =>
    have hp : (Node.param p).firstBad? = none := by
      rw [firstBad?_of_not_isBad rfl]
      simp [children, Child.one, Ident.node]
    simp [hp, ih]

end Node

open Node (firstAmong)

/-! ## Expressions -/

variable {fill : Location → Ident}

/-- What printing makes of an expression and of the mended one: it is stopped by the first bad expression, never breaks
off, and is not stopped in the mended one, which has the same text if nothing was replaced. -/
structure Expr.Mends (fill : Location → Ident) (x : Expr) : Prop where
  first : x.obstacle?.map Node.expr = (Node.expr x).firstBad?
  unbroken : x.breakdown? = none
  mended : (x.mended fill).Printable
  text : x.obstacle? = none → (x.mended fill).text = x.text

/-- The same of several expressions. -/
structure Expr.MendsAll (fill : Location → Ident) (xs : List Expr) : Prop where
  first : (Expr.firstObstacle? xs).map Node.expr = firstAmong (xs.map .expr)
  unbroken : Expr.firstBreakdown? xs = none
  mended : Expr.firstObstacle? (Expr.mendedAll fill xs) = none ∧ Expr.firstBreakdown? (Expr.mendedAll fill xs) = none
  text : Expr.firstObstacle? xs = none → Expr.texts (Expr.mendedAll fill xs) = Expr.texts xs

theorem Expr.mendsAll {xs : List Expr} (h : ∀ x ∈ xs, x.Mends fill) : Expr.MendsAll fill xs := by
  induction xs with
  | nil => constructor <;> simp [Expr.firstObstacle?, Expr.firstBreakdown?]
  | cons x xs ih =>
    obtain ⟨hx, hxs⟩ := List.forall_mem_cons.1 h
    have ih := ih hxs
    constructor
    · simp [Expr.firstObstacle?, Option.map_or, hx.first, ih.first]
    · simp [Expr.firstBreakdown?, hx.unbroken, ih.unbroken]
    · simp [Expr.firstObstacle?, Expr.firstBreakdown?, hx.mended, ih.mended]
    · intro hnone
      obtain ⟨hnone, hnones⟩ : x.obstacle? = none ∧ Expr.firstObstacle? xs = none := by
        simpa [Expr.firstObstacle?] using hnone
      simp [Expr.texts, hx.text hnone, ih.text hnones]

/-- **Expressions, from their parts.** -/
theorem Expr.mends_of_children {x : Expr} (hshape : x.Shaped)
    (h : ∀ y, Node.expr y ∈ x.children.map (·.node) → y.Mends fill) : x.Mends fill := by
  by_cases hbad : x.kind = .badExpr
  · cases x with
    | bad loc =>
      have hsome : (Node.expr (.bad loc)).firstBad? = _ := Node.firstBad?_of_isBad rfl
      constructor <;> simp [Expr.Printable, Expr.obstacle?, Expr.breakdown?, hsome]
    | _ => cases hbad
  have hfirst : (Node.expr x).firstBad? = firstAmong (x.children.map (·.node)) := by
    have hstmt : x.kind ≠ .badStmt := by cases x <;> simp [Expr.kind]
    exact Node.firstBad?_of_not_isBad (by simp [Node.isBad, Node.kind, hbad, hstmt])
  have hmany : ∀ ys : List Expr, (∀ y ∈ ys, Node.expr y ∈ x.children.map (·.node)) → Expr.MendsAll fill ys :=
    fun ys hys => Expr.mendsAll fun y hy => h y (hys y hy)
  cases x with
  | bad loc => exact absurd rfl hbad
  | literal | ident => constructor <;> simp [hfirst, Expr.Printable, Expr.children, Expr.obstacle?, Expr.breakdown?]
  | array a =>
    obtain ⟨loc, elems⟩ := a
    have helems := hmany elems (by simp [Expr.children])
    rw [Expr.children, Node.map_node_many] at hfirst
    constructor
    · rw [hfirst]
      exact helems.first
    · exact helems.unbroken
    · exact helems.mended
    · intro hnone
      simp [Expr.text, ArrayLit.text, helems.text hnone]
  | index loc x y | binary loc op x y | assign loc op x y =>
    have hx := h x (by simp [Expr.children])
    have hy := h y (by simp [Expr.children])
    constructor
    · simp [hfirst, Expr.children, Expr.obstacle?, Option.map_or, hx.first, hy.first]
    · simp [Expr.breakdown?, hx.unbroken, hy.unbroken]
    · simp [Expr.Printable, Expr.obstacle?, Expr.breakdown?, hx.mended, hy.mended]
    · intro hnone
      obtain ⟨hnone, hnones⟩ := Option.or_eq_none_iff.1 hnone
      simp [Expr.text, hx.text hnone, hy.text hnones]
  | select loc x y | paren loc x =>
    have hx := h x (by simp [Expr.children])
    constructor
    · simp [hfirst, Expr.children, Expr.obstacle?, hx.first, Ident.node]
    · simp [Expr.breakdown?, hx.unbroken]
    · simp [Expr.Printable, Expr.obstacle?, Expr.breakdown?, hx.mended]
    · intro hnone
      simp [Expr.text, hx.text hnone]
  | call loc fn args =>
    have hfn := h fn (by simp [Expr.children])
    have hargs := hmany args (by simp +contextual [Expr.children])
    constructor
    · simp [hfirst, Expr.children, Expr.obstacle?, Option.map_or, hfn.first, hargs.first]
    · simp [Expr.breakdown?, hfn.unbroken, hargs.unbroken]
    · simp [Expr.Printable, Expr.obstacle?, Expr.breakdown?, hfn.mended, hargs.mended]
    · intro hnone
      obtain ⟨hnone, hnones⟩ := Option.or_eq_none_iff.1 hnone
      simp [Expr.text, hfn.text hnone, hargs.text hnones]
  | unary loc op x fixity =>
    have hx := h x (by simp [Expr.children])
    have hop : fixity = .before → op.operatorText ≠ "" := by
      rintro rfl
      exact Token.operatorText_ne_of_isPrefixOperator hshape.1
    constructor
    · simp [hfirst, Expr.children, Expr.obstacle?, hx.first]
    · simp +contextual [Expr.breakdown?, hx.unbroken, hop]
    · simp +contextual [Expr.Printable, Expr.obstacle?, Expr.breakdown?, hx.mended, hop]
    · intro hnone
      cases fixity <;> simp [Expr.text, hx.text hnone]
  | new loc type args len elems =>
    -- a parsed allocation is of one of three forms; any other has children that are not printed
    rcases hshape with ⟨rfl, rfl, -⟩ | ⟨hlen, rfl, rfl, -⟩ | ⟨rfl, helems, rfl, hdims⟩
    · have hargs := hmany args (by simp [Expr.children])
      constructor
      · simp [hfirst, Expr.children, Expr.obstacle?, hargs.first]
      · simp [Expr.breakdown?, hargs.unbroken]
      · simp [Expr.Printable, Expr.obstacle?, Expr.breakdown?, hargs.mended]
      · intro hnone
        simp [Expr.text, hargs.text hnone]
    · obtain ⟨x, rfl⟩ := Option.ne_none_iff_exists'.1 hlen
      have hx := h x (by simp [Expr.children])
      constructor
      · simp [hfirst, Expr.children, Expr.obstacle?, hx.first]
      · simp [Expr.breakdown?, hx.unbroken]
      · simp [Expr.Printable, Expr.obstacle?, Expr.breakdown?, hx.mended]
      · intro hnone
        simp [Expr.text, hx.text hnone]
    · obtain ⟨a, rfl⟩ := Option.ne_none_iff_exists'.1 helems
      have ha := h (.array a) (by simp [Expr.children, ArrayLit.node])
      have hpos : ¬ type.dims < 0 := by omega
      constructor
      · simpa [hfirst, Expr.children, Expr.obstacle?, ArrayLit.node] using ha.first
      · simpa [Expr.breakdown?, hpos] using ha.unbroken
      · simpa [Expr.Printable, Expr.obstacle?, Expr.breakdown?, hpos] using ha.mended
      · intro hnone
        have htext : (a.mended fill).text = a.text := ha.text hnone
        simp [Expr.text, htext]

/-! ## Chunks -/

/-- A chunk and what becomes of it in the mended tree: it can be written, and it is the same if nothing was replaced. -/
structure Chunk.Mends (c c' : Chunk) : Prop where
  unbroken : c.breakdown = none
  mended : c'.obstacle = none ∧ c'.breakdown = none
  text : c.obstacle = none → c'.text = c.text

/-- Chunks that are mended one by one, with `first` the first node that stands in the way of the old ones. -/
structure Mending (cs cs' : List Chunk) (first : Option Node) : Prop where
  each : List.Forall₂ Chunk.Mends cs cs'
  first : cs.findSome? (·.obstacle) = first

namespace Mending

variable {cs cs' ds ds' : List Chunk} {f g : Option Node}

theorem nil : Mending [] [] none := ⟨.nil, rfl⟩

/-- Chunks that are mended one behind the other; the first obstacle counts. -/
theorem append (h : Mending cs cs' f) (h' : Mending ds ds' g) : Mending (cs ++ ds) (cs' ++ ds') (f.or g) := by
  constructor
  · exact List.rel_append h.each h'.each
  · rw [List.findSome?_append, h.first, h'.first]

theorem cons {c c' : Chunk} (hc : c.Mends c') (h : Mending cs cs' f) :
    Mending (c :: cs) (c' :: cs') (c.obstacle.or f) := by
  constructor
  · exact .cons hc h.each
  · rw [List.findSome?_cons, h.first]
    cases c.obstacle <;> rfl

/-- A text that is the same in both trees. -/
theorem cons_text (text : Bytes) (h : Mending cs cs' f) :
    Mending ({ text := text } :: cs) ({ text := text } :: cs') f := by
  have hcons := h.cons (c := { text := text }) ⟨rfl, ⟨rfl, rfl⟩, fun _ => rfl⟩
  rwa [Option.none_or] at hcons

theorem cons_word (word : String) (h : Mending cs cs' f) : Mending (.of word :: cs) (.of word :: cs') f :=
  h.cons_text (utf8 word)

/-- An expression in the way is in the way of its chunk. -/
theorem cons_expr {x : Expr} (hx : x.Mends fill) (before after : Bytes) (h : Mending cs cs' f) :
    Mending (.expr before x after :: cs) (.expr before (x.mended fill) after :: cs') ((Node.expr x).firstBad?.or f) := by
  rw [← hx.first]
  refine h.cons ⟨hx.unbroken, by simpa using hx.mended, fun hnone => ?_⟩
  have hobstacle : x.obstacle? = none := by simpa using hnone
  simp [hx.text hobstacle]

/-- What is written of the old chunks is how the text of the new ones starts. -/
theorem takeWhile_prefix (h : List.Forall₂ Chunk.Mends cs cs') :
    Chunk.texts (cs.takeWhile (·.obstacle.isNone)) <+: Chunk.texts cs' := by
  induction h with
  | nil => exact List.prefix_rfl
  | @cons c c' cs cs' hc _ ih =>
    by_cases hnone : c.obstacle = none
    · rw [List.takeWhile_cons_of_pos (by simp [hnone]), Chunk.texts_cons, Chunk.texts_cons, hc.text hnone]
      exact (List.prefix_append_right_inj _).2 ih
    · rw [List.takeWhile_cons_of_neg (by simpa using hnone)]
      exact List.nil_prefix

end Mending

/-! ## Statements -/

/-- Printing a statement and printing the mended one, on its own and as the first clause of a loop. -/
structure Stmt.Mends (fill : Location → Ident) (s : Stmt) : Prop where
  chunks : ∀ indent, Mending (s.chunks indent) ((s.mended fill).chunks indent) (Node.stmt s).firstBad?
  init : s.kind ∈ [.varDecl, .exprStmt] →
    Mending (initChunks (some s)) (initChunks (some (s.mended fill))) (Node.stmt s).firstBad?

/-- Printing a tree and printing the mended one, node by node. -/
def Node.Mends (fill : Location → Ident) : Node → Prop
  | .expr x => x.Mends fill
  | .stmt s => s.Mends fill
  | .elseIf a =>
    ∀ indent, Mending (ElseIf.allChunks indent [a]) (ElseIf.allChunks indent (ElseIf.mendedAll fill [a]))
      (Node.elseIf a).firstBad?
  | .catchClause c =>
    ∀ indent, Mending (CatchClause.allChunks indent [c]) (CatchClause.allChunks indent (CatchClause.mendedAll fill [c]))
      (Node.catchClause c).firstBad?
  | _ => True

namespace Mending

/-! ### Parts of statements -/

/-- Statements on lines of their own are mended one by one. -/
theorem lines {ss : List Stmt} (h : ∀ s ∈ ss, s.Mends fill) (indent : Bytes) :
    Mending (Stmt.lines indent ss) (Stmt.lines indent (Stmt.mendedAll fill ss)) (firstAmong (ss.map .stmt)) := by
  induction ss with
  | nil => exact nil
  | cons s ss ih =>
    obtain ⟨hs, hss⟩ := List.forall_mem_cons.1 h
    rw [List.map_cons, Node.firstAmong_cons]
    exact cons_text indent ((hs.chunks indent).append (cons_word "\n" (ih hss)))

theorem arms {as : List ElseIf} (h : ∀ a ∈ as, (Node.elseIf a).Mends fill) (indent : Bytes) :
    Mending (ElseIf.allChunks indent as) (ElseIf.allChunks indent (ElseIf.mendedAll fill as))
      (firstAmong (as.map .elseIf)) := by
  induction as with
  | nil => exact nil
  | cons a as ih =>
    obtain ⟨ha, has⟩ := List.forall_mem_cons.1 h
    obtain ⟨loc, cond, body⟩ := a
    have happend := (ha indent).append (ih has)
    rw [← ElseIf.allChunks_append, ← ElseIf.allChunks_append] at happend
    rw [List.map_cons, Node.firstAmong_cons]
    exact happend

theorem clauses {cs : List CatchClause} (h : ∀ c ∈ cs, (Node.catchClause c).Mends fill) (indent : Bytes) :
    Mending (CatchClause.allChunks indent cs) (CatchClause.allChunks indent (CatchClause.mendedAll fill cs))
      (firstAmong (cs.map .catchClause)) := by
  induction cs with
  | nil => exact nil
  | cons c cs ih =>
    obtain ⟨hc, hcs⟩ := List.forall_mem_cons.1 h
    obtain ⟨loc, type, name, body⟩ := c
    have happend := (hc indent).append (ih hcs)
    rw [← CatchClause.allChunks_append, ← CatchClause.allChunks_append] at happend
    rw [List.map_cons, Node.firstAmong_cons]
    exact happend

/-- Lines between braces. -/
theorem braced {ss : List Stmt} (h : ∀ s ∈ ss, s.Mends fill) (indent head : Bytes) :
    Mending ({ text := head } :: Stmt.lines (deeper indent) ss ++ [{ text := indent ++ utf8 "\x7d" }])
      ({ text := head } :: Stmt.lines (deeper indent) (Stmt.mendedAll fill ss) ++ [{ text := indent ++ utf8 "\x7d" }])
      (firstAmong (ss.map .stmt)) := by
  have hall := cons_text head ((lines h (deeper indent)).append (cons_text (indent ++ utf8 "\x7d") nil))
  rwa [Option.or_none] at hall

/-- A block is in the way where its statements are. -/
theorem block {loc : Location} {ss : List Stmt} (h : ∀ s ∈ ss, s.Mends fill) (indent : Bytes) :
    Mending ((Block.mk loc ss).chunks indent) ((Block.mk loc (Stmt.mendedAll fill ss)).chunks indent)
      (firstAmong (ss.map .stmt)) := by
  cases ss with
  | nil => exact cons_text _ nil
  | cons s ss => exact braced h indent _

theorem spaced {x : Option Expr} (h : ∀ y ∈ x, y.Mends fill) :
    Mending (spacedChunks x) (spacedChunks (x.map (Expr.mended fill))) (firstAmong (x.map Node.expr).toList) := by
  cases x with
  | none => exact nil
  | some y =>
    show Mending _ _ (firstAmong [.expr y])
    rw [Node.firstAmong_cons]
    exact cons_expr (h y rfl) _ _ nil

theorem decl {d : VarDecl} (h : ∀ y ∈ d.init, y.Mends fill) (after : String) :
    Mending [d.chunk after] [(d.mended fill).chunk after] (firstAmong (d.init.map Node.expr).toList) := by
  obtain ⟨loc, mods, type, name, init⟩ := d
  cases init with
  | none => exact cons_text _ nil
  | some y =>
    show Mending _ _ (firstAmong [.expr y])
    rw [Node.firstAmong_cons]
    exact cons_expr (h y rfl) _ _ nil

/-- The first part of a `for` is mended as a declaration or an expression. -/
theorem firstClause {init : Option Stmt} (hkind : ∀ s ∈ init, s.kind ∈ [.varDecl, .exprStmt])
    (h : ∀ s ∈ init, s.Mends fill) :
    Mending (initChunks init) (initChunks (init.map (Stmt.mended fill))) (firstAmong (init.map Node.stmt).toList) := by
  cases init with
  | none => exact nil
  | some s =>
    show Mending _ _ (firstAmong [.stmt s])
    rw [Node.firstAmong_cons, Node.firstAmong_nil, Option.or_none]
    exact (h s rfl).init (hkind s rfl)

end Mending

/-- **Statements, from their parts.** -/
theorem Stmt.mends_of_children {s : Stmt} (hshape : s.Shaped)
    (h : ∀ c ∈ s.children.map (·.node), c.Mends fill) : s.Mends fill := by
  by_cases hbad : s.kind = .badStmt
  · cases s with
    | bad loc =>
      have hsome : (Node.stmt (.bad loc)).firstBad? = _ := Node.firstBad?_of_isBad rfl
      constructor
      · intro indent
        rw [hsome]
        exact ⟨.cons ⟨rfl, ⟨rfl, rfl⟩, nofun⟩ .nil, rfl⟩
      · simp [Stmt.kind]
    | _ => cases hbad
  have hfirst : (Node.stmt s).firstBad? = firstAmong (s.children.map (·.node)) := by
    have hexpr : s.kind ≠ .badExpr := by cases s <;> simp [Stmt.kind]
    exact Node.firstBad?_of_not_isBad (by simp [Node.isBad, Node.kind, hbad, hexpr])
  have hexpr : ∀ x, Node.expr x ∈ s.children.map (·.node) → x.Mends fill := fun x hx => h _ hx
  have hstmt : ∀ t, Node.stmt t ∈ s.children.map (·.node) → t.Mends fill := fun t ht => h _ ht
  have hblock : ∀ b : Block, b.node ∈ s.children.map (·.node) → ∀ indent,
      Mending (b.chunks indent) ((b.mended fill).chunks indent) b.node.firstBad? := by
    intro b hb indent
    exact (hstmt (.block b) hb).chunks indent
  constructor
  · -- the chunks of the parts stand in the order of the children
    intro indent
    rw [hfirst]
    cases s with
    | bad loc => exact absurd rfl hbad
    | block b =>
      obtain ⟨loc, ss⟩ := b
      rw [Stmt.children, Node.map_node_many]
      exact .block (fun t ht => hstmt t (by simpa [Stmt.children] using ht)) indent
    | varDecl d =>
      have hd : Mending [d.chunk ";"] _ _ :=
        .decl (fun x hx => hexpr x (by simp [Stmt.children, Option.mem_def.1 hx])) ";"
      simpa [Stmt.children, Stmt.chunks, Ident.node] using hd
    | expr loc x =>
      have hx := hexpr x (by simp [Stmt.children])
      simpa [Stmt.children, Stmt.chunks] using Mending.cons_expr hx [] (utf8 ";") .nil
    | ifElse loc cond body arms otherwise =>
      have hcond := hexpr cond (by simp [Stmt.children])
      have hbody := hblock body (by simp [Stmt.children])
      have harms : ∀ a ∈ arms, (Node.elseIf a).Mends fill := fun a ha => h _ (by simp [Stmt.children, ha])
      have hhead := (Mending.cons_expr hcond (utf8 "if (") (utf8 ") ") (hbody indent)).append (.arms harms indent)
      cases otherwise with
      | none => simpa [Stmt.children, Stmt.chunks, Option.or_assoc] using hhead
      | some b =>
        have hb := hblock b (by simp [Stmt.children])
        have hall := hhead.append (.cons_word " else " (hb indent))
        simpa [Stmt.children, Stmt.chunks, Option.or_assoc] using hall
    | whileLoop loc cond body =>
      have hcond := hexpr cond (by simp [Stmt.children])
      have hbody := hblock body (by simp [Stmt.children])
      simpa [Stmt.children, Stmt.chunks] using Mending.cons_expr hcond (utf8 "while (") (utf8 ") ") (hbody indent)
    | doWhile loc body cond =>
      have hcond := hexpr cond (by simp [Stmt.children])
      have hbody := hblock body (by simp [Stmt.children])
      have hall := Mending.cons_word "do "
        ((hbody indent).append (.cons_expr hcond (utf8 " while (") (utf8 ");") .nil))
      simpa [Stmt.children, Stmt.chunks] using hall
    | forLoop loc init cond update body =>
      have hinit : Mending (initChunks init) _ _ :=
        .firstClause hshape fun t ht => hstmt t (by simp [Stmt.children, Option.mem_def.1 ht])
      have hcond : Mending (spacedChunks cond) _ _ :=
        .spaced fun x hx => hexpr x (by simp [Stmt.children, Option.mem_def.1 hx])
      have hupdate : Mending (spacedChunks update) _ _ :=
        .spaced fun x hx => hexpr x (by simp [Stmt.children, Option.mem_def.1 hx])
      have hbody := hblock body (by simp [Stmt.children])
      have hrest := hupdate.append (.cons_word ") " (hbody indent))
      have hall := Mending.cons_word "for (" (hinit.append
        (.cons_word ";" (hcond.append (.cons_word ";" hrest))))
      cases init <;> simpa [Stmt.children, Stmt.chunks] using hall
    | tryCatch loc body catches cleanup =>
      have hbody := hblock body (by simp [Stmt.children])
      have hcatches : ∀ c ∈ catches, (Node.catchClause c).Mends fill := fun c hc => h _ (by simp [Stmt.children, hc])
      have hhead := (Mending.cons_word "try " (hbody indent)).append (.clauses hcatches indent)
      cases cleanup with
      | none => simpa [Stmt.children, Stmt.chunks] using hhead
      | some b =>
        have hb := hblock b (by simp [Stmt.children])
        have hall := hhead.append (.cons_word " finally " (hb indent))
        simpa [Stmt.children, Stmt.chunks, Option.or_assoc] using hall
    | ret loc result =>
      cases result with
      | none => exact .cons_text _ .nil
      | some x =>
        have hx := hexpr x (by simp [Stmt.children])
        simpa [Stmt.children, Stmt.chunks] using Mending.cons_expr hx (utf8 "return ") (utf8 ";") .nil
    | empty loc => exact .cons_text _ .nil
    | classDecl loc mods name members =>
      have hmembers : ∀ t ∈ members, t.Mends fill := fun t ht => hstmt t (by simp [Stmt.children, ht])
      have hall := Mending.braced hmembers indent (modifiersText mods ++ utf8 "class " ++ name.name ++ utf8 " \x7b\n")
      simpa [Stmt.children, Stmt.chunks, Ident.node] using hall
    | methodDecl loc mods result name params body =>
      have hbody := hblock body (by simp [Stmt.children])
      have hall := Mending.cons_text (methodHead mods result name params) (hbody indent)
      simpa [Stmt.children, Stmt.chunks, Ident.node, Node.firstAmong_params] using hall
  · -- as the first clause of a loop
    intro hkind
    rw [hfirst]
    cases s with
    | varDecl d =>
      have hd : Mending [d.chunk ""] _ _ :=
        .decl (fun x hx => hexpr x (by simp [Stmt.children, Option.mem_def.1 hx])) ""
      simpa [Stmt.children, initChunks, Ident.node] using hd
    | expr loc x =>
      have hx := hexpr x (by simp [Stmt.children])
      simpa [Stmt.children, initChunks] using Mending.cons_expr hx [] [] .nil
    | _ => simp [Stmt.kind] at hkind

/-- **Printing a tree of the right shape**, and printing the mended tree. -/
theorem Node.mends {n : Node} (h : n.All Shaped) : n.Mends fill := by
  refine h.induct fun m hm hc => ?_
  cases m with
  | expr x => exact Expr.mends_of_children hm.1 fun y hy => (hc _ hy).2
  | stmt s => exact Stmt.mends_of_children hm.1 fun c hmem => (hc c hmem).2
  | elseIf a =>
    obtain ⟨loc, cond, body⟩ := a
    intro indent
    have hcond : cond.Mends fill := (hc (.expr cond) (by simp [children])).2
    have hbody : (Stmt.block body).Mends fill := (hc body.node (by simp [children])).2
    have hall := Mending.cons_expr hcond (utf8 " else if (") (utf8 ") ") (hbody.chunks indent)
    rw [firstBad?_of_not_isBad rfl]
    simpa [children, Block.node, ElseIf.allChunks, Stmt.chunks] using hall
  | catchClause c =>
    obtain ⟨loc, type, name, body⟩ := c
    intro indent
    have hbody : (Stmt.block body).Mends fill := (hc body.node (by simp [children])).2
    have hall := Mending.cons_text (utf8 " catch (" ++ type.text ++ utf8 " " ++ name.name ++ utf8 ") ")
      (hbody.chunks indent)
    rw [firstBad?_of_not_isBad rfl]
    simpa [children, Block.node, Ident.node, CatchClause.allChunks, Stmt.chunks] using hall
  | program | param | typeName | comment => trivial

/-! ## Programs -/

/-- Lines end with a line break, behind the last statement. -/
theorem Stmt.lines_concat (indent : Bytes) (ss : List Stmt) (s : Stmt) :
    Stmt.lines indent (ss ++ [s]) = (Stmt.lines indent ss ++ { text := indent } :: s.chunks indent) ++ [.of "\n"] := by
  induction ss with
  | nil => simp [Stmt.lines]
  | cons t ss ih => simp [Stmt.lines, ih]

theorem Stmt.mendedAll_concat (ss : List Stmt) (s : Stmt) :
    Stmt.mendedAll fill (ss ++ [s]) = Stmt.mendedAll fill ss ++ [s.mended fill] := by
  induction ss with
  | nil => rfl
  | cons t ss ih => simp [ih]

namespace Mending

/-- **What is written before printing stops is less than the text of the mended lines.** The line break at the end of
these is behind every node that printing could have stopped at. -/
theorem written_lines {ss : List Stmt} (h : ∀ s ∈ ss, s.Mends fill) (indent : Bytes) {n : Node}
    (hn : firstAmong (ss.map .stmt) = some n) :
    ∃ more, more ≠ [] ∧ Chunk.texts (Stmt.lines indent (Stmt.mendedAll fill ss))
      = Chunk.texts ((Stmt.lines indent ss).takeWhile (·.obstacle.isNone)) ++ more := by
  rcases List.eq_nil_or_concat' ss with rfl | ⟨ts, t, rfl⟩
  · cases hn
  have hfront : Mending (Stmt.lines indent ts ++ { text := indent } :: t.chunks indent)
      (Stmt.lines indent (Stmt.mendedAll fill ts) ++ { text := indent } :: (t.mended fill).chunks indent)
      (firstAmong ((ts ++ [t]).map .stmt)) := by
    have hts : ∀ s ∈ ts, s.Mends fill := fun s hs => h s (by simp [hs])
    have ht : t.Mends fill := h t (by simp)
    have hall := (lines hts indent).append (cons_text indent (ht.chunks indent))
    simpa using hall
  rw [Stmt.mendedAll_concat, Stmt.lines_concat, Stmt.lines_concat]
  generalize Stmt.lines indent ts ++ { text := indent } :: t.chunks indent = cs at hfront ⊢
  generalize Stmt.lines indent (Stmt.mendedAll fill ts) ++ { text := indent } :: (t.mended fill).chunks indent = cs'
    at hfront ⊢
  -- the line break is not reached: there is an obstacle in front of it
  have hstop : (cs ++ [Chunk.of "\n"]).takeWhile (·.obstacle.isNone) = cs.takeWhile (·.obstacle.isNone) := by
    rw [List.takeWhile_append, if_neg]
    intro hlength
    have hself : cs.takeWhile (·.obstacle.isNone) = cs := (List.takeWhile_prefix _).eq_of_length hlength
    have hnone : cs.findSome? (·.obstacle) = none :=
      List.findSome?_eq_none_iff.2 fun c hc => by simpa using List.takeWhile_eq_self_iff.1 hself c hc
    rw [hfront.first, hn] at hnone
    cases hnone
  obtain ⟨more, hmore⟩ := takeWhile_prefix hfront.each
  refine ⟨more ++ utf8 "\n", by simp [utf8], ?_⟩
  rw [hstop, Chunk.texts_append, ← hmore, List.append_assoc]
  rfl

/-- Chunks that can be mended do not break down. -/
theorem unbroken (h : List.Forall₂ Chunk.Mends cs cs') : cs.findSome? (·.breakdown) = none := by
  induction h with
  | nil => rfl
  | cons hc _ ih => simp [hc.unbroken, ih]

/-- Nothing stands in the way of mended chunks. -/
theorem unhindered (h : List.Forall₂ Chunk.Mends cs cs') : Chunk.Unhindered cs' := by
  induction h with
  | nil => simp
  | cons hc _ ih => simp [hc.mended, ih]

end Mending

/-- The statements of a parsed program have the right shape, so they are printed like the mended ones. -/
theorem mends_of_mem_body (o : Options) (s : Source) : ∀ t ∈ (parse o s).program.body, t.Mends fill := by
  intro t ht
  obtain ⟨final, -, -, -, -, hderives⟩ := parse_reads o s
  exact Node.mends (n := .stmt t) (DerivesStmt.shaped (hderives .lenient Mode.admits_lenient) t ht).2

/-- **Printing stops exactly at bad nodes, and cleanly.** A parsed tree is printed as a whole if and only if a walk
through it comes to no bad node. Otherwise printing stops at the bad node that a walk comes to first; and what was
written up to there is a proper beginning of the text that is printed of the same tree with an empty statement for each
bad statement and any names for the bad expressions. -/
theorem parse_stops (o : Options) (s : Source) (fill : Location → Ident) :
    let root := Node.program (parse o s).program
    ((∃ text, root.format = .complete text) ↔ ∀ n ∈ root.preorder, n.kind ≠ .badStmt ∧ n.kind ≠ .badExpr) ∧
    ((∃ n ∈ root.preorder, n.kind = .badStmt ∨ n.kind = .badExpr) →
      ∃ n written text,
        root.preorder.find? (fun m => m.kind = .badStmt ∨ m.kind = .badExpr) = some n ∧
        root.format = .stopped written n ∧
        (Node.program ((parse o s).program.mended fill)).format = .complete text ∧
        written <+: text ∧ written ≠ text) := by
  intro root
  have hmends : ∀ t ∈ (parse o s).program.body, t.Mends fill := mends_of_mem_body o s
  have hlines := Mending.lines hmends []
  have hfirst : root.firstBad? = firstAmong ((parse o s).program.body.map .stmt) := by
    rw [Node.firstBad?_of_not_isBad rfl, Node.children, Node.map_node_many]
  have hformat : root.format = writeChunks (Stmt.lines [] (parse o s).program.body) := by
    simp [root, Node.format, Node.chunks, Mending.unbroken hlines.each]
  have hgood : root.firstBad? = none ↔ ∀ n ∈ root.preorder, n.kind ≠ .badStmt ∧ n.kind ≠ .badExpr := by
    rw [Node.firstBad?_eq_none_iff]
    simp [Node.isBad]
  let written := Chunk.texts ((Stmt.lines [] (parse o s).program.body).takeWhile (·.obstacle.isNone))
  rw [← hgood]
  cases hn : root.firstBad? with
  | none =>
    constructor
    · have hcomplete : root.format = .complete written := by
        rw [hformat, writeChunks, hlines.first, ← hfirst, hn]
        rfl
      exact iff_of_true ⟨written, hcomplete⟩ rfl
    · rintro ⟨n, hmem, hbad⟩
      exact absurd hbad (not_or.2 (hgood.1 hn n hmem))
  | some n =>
    have hstopped : root.format = .stopped written n := by
      rw [hformat, writeChunks, hlines.first, ← hfirst, hn]
      rfl
    constructor
    · apply iff_of_false
      · rintro ⟨text, htext⟩
        rw [hstopped] at htext
        cases htext
      · exact Option.some_ne_none n
    · intro _
      obtain ⟨more, hmore, htext⟩ := Mending.written_lines hmends [] (hfirst.symm.trans hn)
      refine ⟨n, written, _, hn, hstopped, format_program (Mending.unhindered hlines.each), ⟨more, htext.symm⟩, ?_⟩
      intro heq
      exact hmore (List.self_eq_append_right.1 (heq.trans htext))

/-- A loop without a condition, and a statement that cannot be understood behind it. -/
def gappedSource : Source :=
  { name := "", text := utf8 "a = 1; while (+) \x7b b; \x7d ) c;", wellFormed := by decide +kernel }

theorem parse_stops_gapped :
    let root := Node.program (parse {} gappedSource).program
    let mended := Node.program ((parse {} gappedSource).program.mended fun loc => { location := loc, name := utf8 "x" })
    (∃ n ∈ root.preorder, n.kind = .badStmt ∨ n.kind = .badExpr) ∧
    mended.format.textOrEmpty = utf8 "a = 1;\nwhile (x) \x7b\n  b;\n\x7d\n;\n" ∧
    ∃ n written text,
      root.preorder.find? (fun m => m.kind = .badStmt ∨ m.kind = .badExpr) = some n ∧
      root.format = .stopped written n ∧ mended.format = .complete text ∧ written <+: text ∧ written ≠ text := by
  intro root mended
  have hbad : ∃ n ∈ root.preorder, n.kind = .badStmt ∨ n.kind = .badExpr := by decide +kernel
  exact ⟨hbad, by decide +kernel, (parse_stops {} gappedSource _).2 hbad⟩

end SmallJava
