import Mathlib.Algebra.GroupWithZero.Nat
import SmallJava.Proofs.Reading.Program
import SmallJava.Proofs.Tree.Preorder

/-!
# Parsing makes progress and always ends

A parse reads a whole text without bailing out: whatever goes wrong inside a statement is caught where the
statement recovers, and every statement that recovers takes a token. So no more statements are read than there
are tokens, and that also holds of all lists of statements in the tree together.

* `Node.listed`, `Node.elements` — the lengths of the lists of statements in a tree;
* `DerivesStmt.elements_le` — a derivation takes a token for every element of its lists;
* `parse_ends` — the whole statement.
-/

namespace SmallJava

open Grammar

namespace Node

/-- The number of statements directly below a node: the body of a program, the statements of a block, the members
of a class. -/
def listed : Node → Nat
  | .program p => p.body.length
  | .stmt (.block b) => b.stmts.length
  | .stmt (.classDecl _ _ _ members) => members.length
  | _ => 0

/-- The number of elements of all lists of statements in a tree. -/
def elements (n : Node) : Nat := (n.preorder.map listed).sum

/-- The number of elements of all lists of statements in several trees. -/
def elementsOf (ns : List Node) : Nat := (ns.map elements).sum

@[simp] theorem elementsOf_nil : elementsOf [] = 0 := rfl

@[simp] theorem elementsOf_cons (n : Node) (ns : List Node) :
    elementsOf (n :: ns) = n.elements + elementsOf ns := rfl

@[simp] theorem elementsOf_append (ns ms : List Node) :
    elementsOf (ns ++ ms) = elementsOf ns + elementsOf ms := by
  simp [elementsOf]

/-- The lists below a node are its own and those of its children. -/
theorem elements_eq (n : Node) : n.elements = n.listed + elementsOf (n.children.map (·.node)) := by
  unfold elements
  rw [preorder_eq, List.map_cons, List.sum_cons]
  congr 1
  induction n.children with
  | nil => rfl
  | cons c cs ih => simpa [elements] using ih

/-- Whether a node is part of an expression or a type. -/
def isTerm : Node → Bool
  | .expr _ | .typeName _ => true
  | _ => false

theorem isTerm_child (x : Expr) : ∀ m ∈ x.children.map (·.node), m.isTerm = true := by
  cases x with
  | array a =>
    cases a
    simp [Expr.children, isTerm]
  | new loc type args len elems =>
    cases len <;> cases elems <;> simp [Expr.children, isTerm, ArrayLit.node, or_imp, forall_and]
  | _ => simp [Expr.children, isTerm, Ident.node]

/-- Expressions and types hold no statements. -/
theorem elements_of_isTerm {n : Node} (h : n.isTerm = true) : n.elements = 0 := by
  have hterm : ∀ m ∈ n.preorder, m.isTerm = true := by
    refine forall_preorder (fun n hn c hc => ?_) n h
    cases n with
    | expr x => exact isTerm_child x c.node (List.mem_map_of_mem hc)
    | typeName t => cases hc
    | _ => cases hn
  refine List.sum_eq_zero_iff_forall_eq_nat.2 fun k hk => ?_
  obtain ⟨m, hm, rfl⟩ := List.mem_map.1 hk
  have hm := hterm m hm
  cases m with
  | expr | typeName => rfl
  | _ => cases hm

@[simp] theorem elements_expr (x : Expr) : (Node.expr x).elements = 0 := elements_of_isTerm rfl

@[simp] theorem elements_typeName (t : TypeName) : (Node.typeName t).elements = 0 := elements_of_isTerm rfl

@[simp] theorem elements_ident (i : Ident) : i.node.elements = 0 := elements_expr _

@[simp] theorem elements_param (p : Param) : (Node.param p).elements = 0 := by
  simp [elements_eq (.param p), listed, children]

@[simp] theorem elementsOf_params (ps : List Param) : elementsOf (ps.map .param) = 0 := by
  induction ps with
  | nil => rfl
  | cons p ps ih => simpa using ih

@[simp] theorem elementsOf_optExpr (x : Option Expr) : elementsOf (x.map .expr).toList = 0 := by
  cases x <;> simp

@[simp] theorem elements_elseIf (loc : Location) (c : Expr) (b : Block) :
    (Node.elseIf (.mk loc c b)).elements = b.node.elements := by
  simp [elements_eq (.elseIf _), listed, children]

@[simp] theorem elements_catchClause (loc : Location) (t : TypeName) (i : Ident) (b : Block) :
    (Node.catchClause (.mk loc t i b)).elements = b.node.elements := by
  simp [elements_eq (.catchClause _), listed, children]

/-- The lists below a statement are its own and those of its children. -/
theorem elements_stmt (s : Stmt) :
    (Node.stmt s).elements = (Node.stmt s).listed + elementsOf (s.children.map (·.node)) :=
  elements_eq (.stmt s)

end Node

namespace Grammar

open Node

variable {m : Mode}

theorem ForInit.elementsOf {xs : List Lexeme} {o : Option Stmt} (h : ForInit m xs o) :
    elementsOf (o.map Node.stmt).toList = 0 := by
  cases h with
  | none => rfl
  | decl h => simp [elements_stmt, listed, Stmt.children]
  | expr h => simp [elements_stmt, listed, Stmt.children]

/-- **A derivation takes a token for every element of its lists**, and one for each of its trees. -/
theorem DerivesStmt.elements_le {sym : StmtSymbol} {xs : List Lexeme} {ss : List Stmt}
    (h : DerivesStmt m sym xs ss) : Node.elementsOf (ss.map .stmt) + ss.length ≤ xs.length := by
  induction h with
  | braced _ ih | ifStmt _ ih | stmt _ ih => exact ih
  | varDecl _ _ => simp [elements_stmt, listed, Stmt.children]
  | expr _ _ _ => simp [elements_stmt, listed, Stmt.children]
  | empty _ => simp [elements_stmt, listed, Stmt.children]
  | ret _ _ _ => simp [elements_stmt, listed, Stmt.children]
  | whileLoop _ _ _ ih =>
    simp [elements_stmt (.whileLoop ..), listed, Stmt.children, Block.node] at ih ⊢
    omega
  | doWhile _ _ _ _ _ ih =>
    simp [elements_stmt (.doWhile ..), listed, Stmt.children, Block.node] at ih ⊢
    omega
  | forLoop _ _ hinit _ _ _ _ _ _ ih =>
    simp [elements_stmt (.forLoop ..), listed, Stmt.children, Block.node, hinit.elementsOf] at ih ⊢
    omega
  | ifElse _ _ _ iharms ihblock =>
    simp [elements_stmt (.ifElse ..), listed, Stmt.children, Block.node] at iharms ihblock ⊢
    omega
  | tryStmt _ _ _ ih =>
    simp [elements_stmt (.tryCatch ..), listed, Stmt.children, Block.node] at ih ⊢
    omega
  | tryFinally _ _ _ ihclauses ihblock =>
    simp [elements_stmt (.tryCatch ..), listed, Stmt.children, Block.node] at ihclauses ihblock ⊢
    omega
  | arm _ _ _ ih =>
    simp [elements_stmt (.ifElse ..), listed, Stmt.children, Block.node] at ih ⊢
    omega
  | elseIf _ _ _ _ _ iharms ihblock =>
    simp [elements_stmt (.ifElse ..), listed, Stmt.children, Block.node] at iharms ihblock ⊢
    omega
  | guarded _ _ ih =>
    simp [elements_stmt (.tryCatch ..), listed, Stmt.children, Block.node] at ih ⊢
    omega
  | catchClause _ _ _ _ _ _ _ ihclauses ihblock =>
    simp [elements_stmt (.tryCatch ..), listed, Stmt.children, Block.node] at ihclauses ihblock ⊢
    omega
  | block _ _ _ ih =>
    simp [elements_stmt (.block _), listed, Stmt.children, Block.stmts] at ih ⊢
    omega
  | openBlock _ _ _ ih =>
    simp [elements_stmt (.block _), listed, Stmt.children, Block.stmts] at ih ⊢
    omega
  | field _ _ _ =>
    simp [elements_stmt, listed, Stmt.children]
    omega
  | method _ _ _ _ _ _ ih =>
    simp [elements_stmt (.methodDecl ..), listed, Stmt.children, Block.node] at ih ⊢
    omega
  | classDecl _ _ _ _ _ _ ih =>
    simp [elements_stmt (.classDecl ..), listed, Stmt.children] at ih ⊢
    omega
  | openClass _ _ _ _ _ _ ih =>
    simp [elements_stmt (.classDecl ..), listed, Stmt.children] at ih ⊢
    omega
  | nil => simp
  | cons _ _ ihitem ihlist =>
    simp at ihitem ihlist ⊢
    omega
  | skip _ hne _ ih =>
    have := List.length_pos_iff.2 hne
    simp [elements_stmt (.bad _), listed, Stmt.children] at ih ⊢
    omega

end Grammar

namespace Parser

/-- The parsers for statements that recover: those of a whole text, of blocks and of classes. -/
inductive Recovering : Parser Stmt → Prop where
  | top (d : Nat) : Recovering (topStmt d)
  | inside (d : Nat) : Recovering (stmt d)
  | member (d : Nat) : Recovering (member (level d))

theorem Recovering.reads {setup : Setup} {all : List Lexeme} {p : Parser Stmt} (hw : setup.Suits all)
    (h : Recovering p) : ∃ place d, ReadsItem setup all place p d := by
  cases h with
  | top d => exact ⟨_, _, reads_topStmt hw d⟩
  | inside d => exact ⟨_, _, reads_stmt hw d⟩
  | member d => exact ⟨_, _, reads_member hw (levelReads hw d)⟩

/-- **Recovery makes progress.** A statement that recovers is read without bailing out, and takes at least one of the
tokens left; the end marker is not among them. -/
theorem Recovering.progress {setup : Setup} {all : List Lexeme} {p : Parser Stmt} (hw : setup.Suits all)
    (h : Recovering p) {s : State} (hs : s.At all) (hne : (s.current setup).token ≠ .eof) :
    ∃ t s' xs, recoverStmt p setup s = .ok t s' ∧ xs ≠ [] ∧ s.rest = xs ++ s'.rest ∧ s'.last = xs.getLast? := by
  obtain ⟨place, d, hread⟩ := h.reads hw
  obtain ⟨t, s', hrun⟩ := recoverStmt_succeeds (hread s hs)
  obtain ⟨xs, ht, hpost⟩ := (reads_recovering hw hread hs hne).ok hrun
  have hxs := (hpost .lenient Mode.admits_lenient).1
  refine ⟨t, s', xs, hrun, hxs, ht.rest, ?_⟩
  rw [ht.last, List.getLast?_eq_some_getLast hxs, Option.some_or]

end Parser

/-- **Parsing always ends with a tree.** Reading a source bails out nowhere: it takes all tokens, and the end marker
is not one of them. Every statement that recovers, entered before the end, is read with at least one token taken. The
lists of statements of the tree have together at most as many elements as the source has tokens. -/
theorem parse_ends (o : Options) (s : Source) :
    (∃ final, Parser.topStmts o.depthLimit (o.setup s) { rest := s.tokens } = .ok (parse o s).program.body final ∧
      final.rest = [] ∧ final.last = s.tokens.getLast?) ∧
    (∀ p, Parser.Recovering p → ∀ st : State, st.At s.tokens → (st.current (o.setup s)).token ≠ .eof →
      ∃ t st' xs, Parser.recoverStmt p (o.setup s) st = .ok t st' ∧ xs ≠ [] ∧ st.rest = xs ++ st'.rest ∧
        st'.last = xs.getLast?) ∧
    (Node.program (parse o s).program).elements ≤ s.tokens.length := by
  obtain ⟨final, hrun, -, ht, -, hderives⟩ := parse_reads o s
  refine ⟨⟨final, hrun, ?_, ?_⟩, ?_, ?_⟩
  · simpa using ht.rest
  · simpa using ht.last
  · intro p hp st hst hne
    exact hp.progress (s.suits o) hst hne
  · have hle := DerivesStmt.elements_le (hderives .lenient Mode.admits_lenient)
    rw [Node.elements_eq]
    simp only [Node.listed, Node.children, Node.map_node_many]
    omega

end SmallJava
