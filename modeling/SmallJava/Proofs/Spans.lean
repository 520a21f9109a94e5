import SmallJava.Proofs.Grammar.Overlay
import SmallJava.Proofs.Reading.Program

/-!
# Nodes stand where they were read

Every node of a parsed tree, bad ones included, is located in the text, with the right lines and columns; its
children lie within it, in the order of the text and without overlap.

* `Covers xs ns` — the nodes `ns` cover parts of the tokens `xs`, from left to right;
* `Laid s xs ns` — moreover all nodes below them are well placed in the source `s`; the rules `Laid.append`,
  `Laid.skip` and `Laid.node` follow the way derivations put tokens together;
* `parse_located` — the whole statement.
-/

namespace SmallJava

open Grammar

/-! ## Places -/

/-- The span of a node is one of the source, and its location is the one of that span. -/
def Node.InSource (s : Source) (n : Node) : Prop :=
  0 ≤ n.location.span.start ∧ n.location.span.start ≤ n.location.span.stop ∧ n.location.span.stop ≤ s.size ∧
    n.location = s.location n.location.span

/-- The nodes lie between two offsets, in order and without overlap. -/
def InOrder (lo hi : Int) : List Node → Prop
  | [] => lo ≤ hi
  | n :: ns => lo ≤ n.location.span.start ∧ n.location.span.start ≤ n.location.span.stop ∧
      InOrder n.location.span.stop hi ns

theorem InOrder.le {lo hi : Int} {ns : List Node} (h : InOrder lo hi ns) : lo ≤ hi := by
  induction ns generalizing lo with
  | nil => exact h
  | cons n ns ih =>
    have := ih h.2.2
    have := h.1
    have := h.2.1
    omega

theorem InOrder.within {lo hi : Int} {ns : List Node} (h : InOrder lo hi ns) :
    ∀ n ∈ ns, lo ≤ n.location.span.start ∧ n.location.span.stop ≤ hi := by
  induction ns generalizing lo with
  | nil => simp
  | cons n ns ih =>
    obtain ⟨hlo, hn, hrest⟩ := h
    have hle := hrest.le
    refine List.forall_mem_cons.2 ⟨⟨hlo, hle⟩, fun k hk => ?_⟩
    have := ih hrest k hk
    omega

/-- Nodes in order do not overlap. -/
theorem InOrder.pairwise {lo hi : Int} {ns : List Node} (h : InOrder lo hi ns) :
    ns.Pairwise fun n k => n.location.span.stop ≤ k.location.span.start := by
  induction ns generalizing lo with
  | nil => exact .nil
  | cons n ns ih =>
    obtain ⟨-, -, hrest⟩ := h
    exact .cons (fun k hk => (hrest.within k hk).1) (ih hrest)

/-- The node is in the source, and its children lie in it in order. -/
structure Node.Placed (s : Source) (n : Node) : Prop where
  inSource : n.InSource s
  children : InOrder n.location.span.start n.location.span.stop (n.children.map (·.node))

/-! ## Tokens -/

theorem Ordered.sublist {xs ys : List Lexeme} (h : Ordered ys) (hx : xs.Sublist ys) : Ordered xs :=
  ⟨fun x hm => h.nonempty x (hx.subset hm), h.sorted.sublist hx⟩

/-- The tokens `xs` stand in the source, in order. -/
structure StandIn (s : Source) (xs : List Lexeme) : Prop where
  ordered : Ordered xs
  holds : ∀ x ∈ xs, s.Holds x

/-- The tokens of a source stand in it. -/
theorem Source.tokens_standIn (s : Source) : StandIn s s.tokens :=
  ⟨s.tokens_ordered, fun _ hx => s.holds_of_mem_tokens hx⟩

theorem StandIn.sublist {s : Source} {xs ys : List Lexeme} (h : StandIn s ys) (hx : xs.Sublist ys) :
    StandIn s xs where
  ordered := h.ordered.sublist hx
  holds x hm := h.holds x (hx.subset hm)

/-- The ends of an extent are those of two of its tokens. -/
theorem extent_ends {xs : List Lexeme} (hx : xs ≠ []) :
    ∃ x ∈ xs, ∃ y ∈ xs, extent xs = x.location.through y.location := by
  obtain ⟨x, xs, rfl⟩ := List.exists_cons_of_ne_nil hx
  refine ⟨x, by simp, xs.getLastD x, ?_, rfl⟩
  rw [List.getLastD_eq_getLast?]
  cases h : xs.getLast? with
  | none => simp
  | some y => simp [List.mem_of_getLast? h]

/-- Tokens that are not empty extend over something. -/
theorem Ordered.extent_lt {xs : List Lexeme} (h : Ordered xs) (hx : xs ≠ []) :
    (extent xs).span.start < (extent xs).span.stop := by
  obtain ⟨x, xs, rfl⟩ := List.exists_cons_of_ne_nil hx
  have hlt := h.nonempty x (by simp)
  rcases List.eq_nil_or_concat xs with rfl | ⟨ys, y, rfl⟩
  · exact hlt
  · have hy := h.nonempty y (by simp)
    have hxy := (List.pairwise_cons.1 h.sorted).1 y (by simp)
    rw [List.concat_eq_append, extent_concat]
    simp only [Location.through_start, Location.through_stop]
    omega

/-- All tokens lie within their extent. -/
theorem Ordered.within_extent {xs : List Lexeme} (h : Ordered xs) :
    ∀ x ∈ xs, (extent xs).span.start ≤ x.location.span.start ∧ x.location.span.stop ≤ (extent xs).span.stop := by
  intro x hx
  constructor
  · cases xs with
    | nil => cases hx
    | cons a as =>
      rcases List.mem_cons.1 hx with rfl | hx
      · exact Int.le_refl _
      · have ha := h.nonempty a List.mem_cons_self
        have hax := (List.pairwise_cons.1 h.sorted).1 x hx
        rw [extent_start]
        omega
  · rcases List.eq_nil_or_concat xs with rfl | ⟨as, a, rfl⟩
    · cases hx
    · rw [List.concat_eq_append] at h hx ⊢
      rw [extent_stop]
      rcases List.mem_append.1 hx with hx | hx
      · have ha := h.nonempty a (by simp)
        have hxa := (List.pairwise_append.1 h.sorted).2.2 x hx a (by simp)
        omega
      · obtain rfl := List.mem_singleton.1 hx
        exact Int.le_refl _

/-- An extent is in the source. -/
theorem StandIn.inSource {s : Source} {xs : List Lexeme} (h : StandIn s xs) (hx : xs ≠ []) {n : Node}
    (hn : n.location = extent xs) : n.InSource s := by
  have hlt := h.ordered.extent_lt hx
  obtain ⟨x, hxm, y, hym, he⟩ := extent_ends hx
  have hx' := h.holds x hxm
  have hy' := h.holds y hym
  have hstart := hx'.start_nonneg
  have hstop := hy'.stop_le
  unfold Node.InSource
  rw [hn]
  rw [he] at hlt ⊢
  simp only [Location.through_start, Location.through_stop] at hlt ⊢
  refine ⟨hstart, by omega, hstop, ?_⟩
  rw [Location.through, hx'.located, hy'.located]
  rfl

/-! ## Covering tokens -/

/-- The nodes cover parts of the tokens, from left to right. A node may also stand, without an extent, right before
a token. -/
inductive Covers : List Lexeme → List Node → Prop where
  | nil {xs : List Lexeme} : Covers xs []
  | skip {x : Lexeme} {xs : List Lexeme} {ns : List Node} : Covers xs ns → Covers (x :: xs) ns
  | node {xs ys : List Lexeme} {n : Node} {ns : List Node} :
      xs ≠ [] → n.location = extent xs → Covers ys ns → Covers (xs ++ ys) (n :: ns)
  | before {x : Lexeme} {xs : List Lexeme} {n : Node} {ns : List Node} :
      n.location = x.location.atStart → Covers (x :: xs) ns → Covers (x :: xs) (n :: ns)

/-- Nodes over some tokens, and nodes over others. -/
theorem Covers.append {xs ys : List Lexeme} {ns ms : List Node} (h : Covers xs ns) (h' : Covers ys ms) :
    Covers (xs ++ ys) (ns ++ ms) := by
  induction h with
  | @nil xs =>
    induction xs with
    | nil => exact h'
    | cons x xs ih => exact .skip ih
  | skip _ ih => exact .skip ih
  | node hx hn _ ih => simpa using Covers.node hx hn ih
  | before hn _ ih => exact .before hn ih

theorem Covers.one {xs : List Lexeme} {n : Node} (hx : xs ≠ []) (hn : n.location = extent xs) : Covers xs [n] := by
  simpa using Covers.node hx hn (Covers.nil : Covers [] [])

/-- Nodes that cover ordered tokens are in order, between any offsets that all tokens are between. -/
theorem Covers.inOrder {xs : List Lexeme} {ns : List Node} (h : Covers xs ns) (ho : Ordered xs) {lo hi : Int}
    (hle : lo ≤ hi) (hlo : ∀ x ∈ xs, lo ≤ x.location.span.start) (hhi : ∀ x ∈ xs, x.location.span.stop ≤ hi) :
    InOrder lo hi ns := by
  -- the lower bound goes along: behind a node it is the end of the node
  induction h generalizing lo with
  | nil => exact hle
  | skip _ ih =>
    exact ih ⟨fun x hx => ho.nonempty x (List.mem_cons_of_mem _ hx), (List.pairwise_cons.1 ho.sorted).2⟩ hle
      (fun x hx => hlo x (List.mem_cons_of_mem _ hx)) (fun x hx => hhi x (List.mem_cons_of_mem _ hx))
  | @node xs ys n ns hx hn _ ih =>
    obtain ⟨hsx, hsy, hsxy⟩ := List.pairwise_append.1 ho.sorted
    have hox : Ordered xs := ⟨fun x hm => ho.nonempty x (List.mem_append_left _ hm), hsx⟩
    have hoy : Ordered ys := ⟨fun x hm => ho.nonempty x (List.mem_append_right _ hm), hsy⟩
    have hlt := hox.extent_lt hx
    obtain ⟨x, hxm, y, hym, he⟩ := extent_ends hx
    have hstart := hlo x (List.mem_append_left _ hxm)
    have hstop := hhi y (List.mem_append_left _ hym)
    rw [he] at hn hlt
    simp only [Location.through_start, Location.through_stop] at hlt
    simp only [InOrder, hn, Location.through_start, Location.through_stop]
    refine ⟨hstart, by omega, ih hoy hstop ?_ ?_⟩
    · exact fun z hz => hsxy y hym z hz
    · exact fun z hz => hhi z (List.mem_append_right _ hz)
  | @before x xs n ns hn _ ih =>
    have hstart := hlo x List.mem_cons_self
    have hx := ho.nonempty x List.mem_cons_self
    have hstop := hhi x List.mem_cons_self
    simp only [InOrder, hn, Location.atStart]
    refine ⟨hstart, Int.le_refl _, ih ho (by omega) ?_ hhi⟩
    intro y hy
    rcases List.mem_cons.1 hy with rfl | hy
    · exact Int.le_refl _
    · have := (List.pairwise_cons.1 ho.sorted).1 y hy
      omega

/-! ## Laying trees over tokens -/

/-- The nodes cover parts of the tokens; and if the tokens stand in the source, all nodes below are well placed. -/
structure Laid (s : Source) (xs : List Lexeme) (ns : List Node) : Prop where
  covers : Covers xs ns
  placed : StandIn s xs → ∀ n ∈ ns, ∀ k ∈ n.preorder, k.Placed s

namespace Laid

variable {s : Source} {x : Lexeme} {xs ys : List Lexeme} {n : Node} {ns ms : List Node}

theorem nil : Laid s xs [] := ⟨.nil, by simp⟩

theorem skip (h : Laid s xs ns) : Laid s (x :: xs) ns :=
  ⟨.skip h.covers, fun hs => h.placed (hs.sublist (List.sublist_cons_self _ _))⟩

/-- Nodes laid over some tokens, and nodes laid over others. -/
theorem append (h : Laid s xs ns) (h' : Laid s ys ms) : Laid s (xs ++ ys) (ns ++ ms) where
  covers := h.covers.append h'.covers
  placed hs n hn := by
    rcases List.mem_append.1 hn with hn | hn
    · exact h.placed (hs.sublist (List.sublist_append_left _ _)) n hn
    · exact h'.placed (hs.sublist (List.sublist_append_right _ _)) n hn

/-- A node over all tokens, whose children are laid over them. -/
theorem node (hx : xs ≠ []) (hn : n.location = extent xs) (h : Laid s xs (n.children.map (·.node))) :
    Laid s xs [n] where
  covers := .one hx hn
  placed hs := by
    rw [List.forall_mem_singleton]
    refine Node.forall_preorder_iff.2 ⟨⟨hs.inSource hx hn, ?_⟩, fun c hc => ?_⟩
    · have hlt := hs.ordered.extent_lt hx
      rw [hn]
      exact h.covers.inOrder hs.ordered (by omega) (fun x hx => (hs.ordered.within_extent x hx).1)
        (fun x hx => (hs.ordered.within_extent x hx).2)
    · exact h.placed hs c.node (List.mem_map_of_mem hc)

end Laid

/-- Trees are laid over tokens by these rules. -/
theorem overlay_laid (s : Source) : Overlay (Laid s) where
  nil := .nil
  skip h := h.skip
  append h h' := h.append h'
  node hn hc := .node hn.ne_nil hn.location hc
  absent {x} := by
    refine ⟨.before rfl .nil, fun hs => ?_⟩
    rw [List.forall_mem_singleton]
    refine Node.forall_preorder_iff.2 ⟨⟨?_, Int.le_refl _⟩, by simp [Node.children, Expr.children]⟩
    have hx := hs.holds x (List.mem_singleton_self x)
    have hstart := hx.start_nonneg
    have hlt := hx.nonempty
    have hstop := hx.stop_le
    simp only [Node.InSource, Node.location, Expr.location, Location.atStart]
    refine ⟨hstart, Int.le_refl _, by omega, ?_⟩
    rw [hx.located]
    rfl

/-! ## Parsed trees -/

/-- A node at the place of a token is in the source. -/
theorem Source.Holds.inSource {s : Source} {x : Lexeme} (h : s.Holds x) {n : Node} (hn : n.location = x.location) :
    n.InSource s := by
  have := h.nonempty
  unfold Node.InSource
  rw [hn]
  exact ⟨h.start_nonneg, by omega, h.stop_le, h.located⟩

theorem mem_comments {o : Options} {s : Source} {c : Comment} (hc : c ∈ (parse o s).program.comments) :
    ∃ x ∈ s.lexemes, c = { location := x.location, text := x.text } := by
  simp only [parse, Source.commentNodes] at hc
  split at hc
  · obtain ⟨x, hx, rfl⟩ := List.mem_map.1 hc
    exact ⟨x, (List.mem_filter.1 hx).1, rfl⟩
  · cases hc

/-- The statements of a parsed tree lie in the source in order. -/
theorem program_placed (o : Options) (s : Source) :
    ∀ n ∈ (Node.program (parse o s).program).preorder, n.Placed s := by
  obtain ⟨final, -, -, -, -, hderives⟩ := parse_reads o s
  obtain ⟨hlaid, -⟩ := (hderives .lenient Mode.admits_lenient).overlay (overlay_laid s)
  have hchildren : (Node.program (parse o s).program).children.map (·.node) = (parse o s).program.body.map .stmt := by
    simp [Node.children]
  refine Node.forall_preorder_iff.2 ⟨⟨?_, ?_⟩, fun c hc => ?_⟩
  · exact ⟨Int.le_refl _, Int.natCast_nonneg _, Int.le_refl _, rfl⟩
  · rw [hchildren]
    exact hlaid.covers.inOrder s.tokens_ordered (Int.natCast_nonneg _)
      (fun x hx => (s.holds_of_mem_tokens hx).start_nonneg) (fun x hx => (s.holds_of_mem_tokens hx).stop_le)
  · exact hlaid.placed s.tokens_standIn c.node (hchildren ▸ List.mem_map_of_mem hc)

/-- **Nodes stand where they were read.** Every node of a parsed tree has a span in the source and the location of that
span; its children have spans within its own, in the order of the text and without overlap. Comments, which are
children of no node, are in the source too. -/
theorem parse_located (o : Options) (s : Source) :
    (∀ n ∈ (Node.program (parse o s).program).preorder,
      n.InSource s ∧
      (∀ c ∈ n.children, n.location.span.contains c.node.location.span = true) ∧
      n.children.Pairwise fun c c' => c.node.location.span.stop ≤ c'.node.location.span.start) ∧
    ∀ c ∈ (parse o s).program.comments, (Node.comment c).InSource s := by
  refine ⟨fun n hn => ?_, fun c hc => ?_⟩
  · obtain ⟨hin, hord⟩ := program_placed o s n hn
    refine ⟨hin, fun c hc => ?_, List.pairwise_map.1 hord.pairwise⟩
    have := hord.within c.node (List.mem_map_of_mem hc)
    simp [Span.contains, this]
  · obtain ⟨x, hx, rfl⟩ := mem_comments hc
    exact (s.holds_of_mem_lexemes hx).1.inSource rfl

end SmallJava
