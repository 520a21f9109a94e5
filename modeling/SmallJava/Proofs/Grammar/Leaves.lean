import SmallJava.Proofs.Grammar.Overlay

/-!
# The leaves of derived trees

The names and constants of a tree that is derived from tokens are tokens among them, with their texts and locations
(`DerivesStmt.quotes`), and its types are made of tokens that stand in a row (`DerivesStmt.worded`). Both are said of a
node that is over its tokens, and the tokens of a subtree stand in a row among all tokens.
-/

namespace SmallJava

open Grammar

/-- What holds of nodes over their tokens, and of more tokens with these, holds of all nodes of trees over tokens. -/
theorem Overlay.of_over {P : List Lexeme → Node → Prop} (hover : ∀ {xs n}, n.Over xs → P xs n)
    (hmono : ∀ {xs L n}, P xs n → xs <:+: L → P L n) (hbad : ∀ {xs loc}, P xs (.expr (.bad loc))) :
    Overlay fun xs ns => ∀ L, xs <:+: L → ∀ n ∈ ns, n.All (P L) where
  nil _ _ := List.forall_mem_nil _
  skip h L hL := h L ((List.suffix_cons _ _).isInfix.trans hL)
  append hx hy L hL := by
    refine List.forall_mem_append.2 ⟨hx L ?_, hy L ?_⟩
    · exact (List.prefix_append _ _).isInfix.trans hL
    · exact (List.suffix_append _ _).isInfix.trans hL
  node hn hc L hL := by
    rw [List.forall_mem_singleton, Node.all_iff]
    exact ⟨hmono (hover hn) hL, hc L hL⟩
  absent L hL := List.forall_mem_singleton.2 ((Node.all_leaf rfl).2 hbad)

namespace Grammar

variable {m : Mode} {xs L : List Lexeme} {sym : StmtSymbol} {ss : List Stmt}

theorem DerivesStmt.quotes (h : DerivesStmt m sym xs ss) (hsub : xs ⊆ L) :
    ∀ s ∈ ss, (Node.stmt s).All (Node.Quotes L) := by
  have hrules := Overlay.of_over (P := Node.Quotes) (fun hn => hn.quotes) (fun hn hL => hn.mono hL.subset) trivial
  intro s hs
  have hall := (h.overlay hrules).1 xs List.infix_rfl (.stmt s) (List.mem_map_of_mem hs)
  exact hall.mono fun _ hn => hn.mono hsub

theorem DerivesStmt.worded (h : DerivesStmt m sym xs ss) : ∀ s ∈ ss, (Node.stmt s).All (Node.Worded xs) := by
  have hrules := Overlay.of_over (P := Node.Worded) (fun hn => hn.worded)
    (fun hn hL t ht => (hn t ht).mono hL) (by simp [Node.Worded, Node.type?])
  intro s hs
  exact (h.overlay hrules).1 xs List.infix_rfl (.stmt s) (List.mem_map_of_mem hs)

end Grammar

end SmallJava
