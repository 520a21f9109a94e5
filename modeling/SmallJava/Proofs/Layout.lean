import Mathlib.Data.List.Forall2
import SmallJava.Proofs.Accounting.Stmt
import SmallJava.Proofs.Lexical.Tokens
import SmallJava.Proofs.Mirroring.Stmt
import SmallJava.Proofs.Reading.Program
import SmallJava.Proofs.Tree.Layout

/-!
# Layout

What a parse gives does not depend on the layout of the text, as long as lines break between the same tokens: two such
sources have trees of the same structure, and the same problems at the same tokens. That is so for malformed sources as
well (`parse_layout`).

The places of one source cannot be moved to the places of the other one, since tokens that touch in the one need not
touch in the other. So both parses are compared with a third one, in which the tokens are numbered: the token with
number `i` goes from offset `2 * i` to offset `2 * i + 1` (`Lexeme.numbered`). From there the start and the end of every
token are moved to where they are in a source (`Source.places`), and the parse goes the same way (`SameTokens.mirror`).
-/

namespace SmallJava

/-- For each token and the next one, whether the next one starts on a line behind the one where the first one ends. -/
def lineBreaks (xs : List Lexeme) : List Bool :=
  xs.zipWith (fun x y => decide (x.location.last.line < y.location.first.line)) xs.tail

namespace Source

variable {a b s : Source} {x y : Lexeme} {i j : Nat}

/-- The tokens, and the marker behind them. -/
def marked (s : Source) : List Lexeme := s.tokens ++ [s.endMarker]

/-- **The same tokens, laid out otherwise.** The tokens are the same ones, up to the end marker, and the line breaks
stand between the same ones. -/
structure SameTokens (a b : Source) : Prop where
  tokens : a.marked.map (fun x => (x.token, x.text)) = b.marked.map (fun x => (x.token, x.text))
  lines : lineBreaks a.marked = lineBreaks b.marked

/-- The location goes from the start of the token with number `i` to the end of the one with number `j`. -/
def SpansTokens (s : Source) (i j : Nat) (loc : Location) : Prop :=
  ∃ x y, s.marked[i]? = some x ∧ s.marked[j]? = some y ∧ loc = x.location.through y.location

theorem SameTokens.refl (s : Source) : s.SameTokens s := ⟨rfl, rfl⟩

/-- Tokens with the same number are the same. -/
theorem SameTokens.get (h : a.SameTokens b) (hx : a.marked[i]? = some x) :
    ∃ y, b.marked[i]? = some y ∧ y.token = x.token ∧ y.text = x.text := by
  have hget := congrArg (·[i]?) h.tokens
  simp only [List.getElem?_map, hx, Option.map_some] at hget
  obtain ⟨y, hy, hxy⟩ := Option.map_eq_some_iff.1 hget.symm
  obtain ⟨htoken, htext⟩ := Prod.mk.inj hxy
  exact ⟨y, hy, htoken, htext⟩

/-- There is a line break between two tokens if the second starts on a later line. -/
theorem getElem?_lineBreaks {xs : List Lexeme} (hx : xs[i]? = some x) (hy : xs[i + 1]? = some y) :
    (lineBreaks xs)[i]? = some (decide (x.location.last.line < y.location.first.line)) := by
  simp only [lineBreaks, List.getElem?_zipWith, List.getElem?_tail, hx, hy]

/-- Lines break between the same tokens. -/
theorem SameTokens.break_iff (h : a.SameTokens b) {x' y' : Lexeme} (hx : a.marked[i]? = some x)
    (hy : a.marked[i + 1]? = some y) (hx' : b.marked[i]? = some x') (hy' : b.marked[i + 1]? = some y') :
    x'.location.last.line < y'.location.first.line ↔ x.location.last.line < y.location.first.line := by
  have hget := congrArg (·[i]?) h.lines
  simp only [getElem?_lineBreaks hx hy, getElem?_lineBreaks hx' hy'] at hget
  exact (decide_eq_decide.1 (Option.some.inj hget)).symm

/-! ## The order of the tokens -/

theorem endMarker_token (s : Source) : s.endMarker.token = .eof := rfl

theorem stop_endMarker (s : Source) : s.endMarker.location.span.stop = s.endMarker.location.span.start := rfl

/-- The end marker is the only one of its kind. -/
theorem eq_endMarker (hx : x ∈ s.marked) (heof : x.token = .eof) : x = s.endMarker := by
  rcases List.mem_append.1 hx with hx | hx
  · exact absurd heof (s.token_ne_eof hx)
  · exact List.mem_singleton.1 hx

theorem start_lt_stop (hx : x ∈ s.marked) (heof : x.token ≠ .eof) : x.location.span.start < x.location.span.stop := by
  rcases List.mem_append.1 hx with hx | hx
  · exact (s.holds_of_mem_tokens hx).nonempty
  · exact absurd (List.mem_singleton.1 hx ▸ s.endMarker_token) heof

/-- No token ends before it starts, and neither does the end marker. -/
theorem start_le_stop (hx : x ∈ s.marked) : x.location.span.start ≤ x.location.span.stop := by
  by_cases heof : x.token = .eof
  · obtain rfl := eq_endMarker hx heof
    exact Int.le_of_eq (stop_endMarker s).symm
  · exact Int.le_of_lt (start_lt_stop hx heof)

/-- Tokens stand in order, and the end marker stands behind all of them. -/
theorem marked_sorted (s : Source) :
    s.marked.Pairwise fun x y => x.location.span.stop ≤ y.location.span.start ∧ x.token ≠ .eof := by
  refine List.pairwise_append.2 ⟨?_, List.pairwise_singleton _ _, ?_⟩
  · exact s.tokens_ordered.sorted.imp_of_mem fun hx _ hxy => ⟨hxy, s.token_ne_eof hx⟩
  · intro x hx y hy
    obtain rfl := List.mem_singleton.1 hy
    exact ⟨(s.holds_of_mem_tokens hx).stop_le, s.token_ne_eof hx⟩

/-- Of two tokens the one with the smaller number ends before the other one starts. -/
theorem stop_le_start (hx : s.marked[i]? = some x) (hy : s.marked[j]? = some y) (hij : i < j) :
    x.location.span.stop ≤ y.location.span.start ∧ x.token ≠ .eof := by
  obtain ⟨hi, rfl⟩ := List.getElem?_eq_some_iff.1 hx
  obtain ⟨hj, rfl⟩ := List.getElem?_eq_some_iff.1 hy
  exact List.pairwise_iff_getElem.1 s.marked_sorted i j hi hj hij

/-- Tokens start in the order in which they stand. -/
theorem start_lt_start (hx : s.marked[i]? = some x) (hy : s.marked[j]? = some y) (hij : i < j) :
    x.location.span.start < y.location.span.start := by
  have hle := stop_le_start hx hy hij
  have hlt := start_lt_stop (List.mem_of_getElem? hx) hle.2
  omega

end Source

/-! ## Numbered tokens -/

/-- The token at the place that its number `i` gives it, on its old lines. The end marker has no extent. -/
def Lexeme.numbered (i : Nat) (x : Lexeme) : Lexeme :=
  let width : Int := if x.token = .eof then 0 else 1
  { x with
    location :=
      { span := ⟨2 * i, 2 * i + width⟩
        first := { line := x.location.first.line, column := 2 * i }
        last := { line := x.location.last.line, column := 2 * i + width } } }

namespace Lexeme

variable (i : Nat) (x : Lexeme)

@[simp] theorem token_numbered : (x.numbered i).token = x.token := rfl

@[simp] theorem start_numbered : (x.numbered i).location.span.start = 2 * i := rfl

@[simp] theorem stop_numbered :
    (x.numbered i).location.span.stop = 2 * i + if x.token = .eof then 0 else 1 := rfl

end Lexeme

namespace Source

variable {a b s : Source} {x y : Lexeme} {i j : Nat}

/-- The tokens at the places that their numbers give them. -/
def numbered (s : Source) : List Lexeme := s.tokens.mapIdx Lexeme.numbered

/-- What a parse of the numbered tokens is given. -/
def numberedSetup (s : Source) (o : Options) : Setup :=
  { o.setup s with endMarker := s.endMarker.numbered s.tokens.length }

theorem maxDepth_numberedSetup (a b : Source) (o : Options) : (o.setup b).maxDepth = (a.numberedSetup o).maxDepth := rfl

theorem maxErrors_numberedSetup (a b : Source) (o : Options) : (o.setup b).maxErrors = (a.numberedSetup o).maxErrors :=
  rfl

/-- The tokens and the end marker, each with its number for its place. -/
theorem numbered_append (s : Source) (o : Options) :
    s.numbered ++ [(s.numberedSetup o).endMarker] = s.marked.mapIdx Lexeme.numbered := by
  simp [numbered, numberedSetup, marked, List.mapIdx_append]

theorem getElem?_numbered (o : Options) (hx : (s.numbered ++ [(s.numberedSetup o).endMarker])[i]? = some x) :
    ∃ y, s.marked[i]? = some y ∧ x = y.numbered i := by
  rw [numbered_append, List.getElem?_mapIdx] at hx
  obtain ⟨y, hy, rfl⟩ := Option.map_eq_some_iff.1 hx
  exact ⟨y, hy, rfl⟩

/-- Each of them is a token of the source, with its number. -/
theorem exists_numbered (o : Options) (hx : x ∈ s.numbered ++ [(s.numberedSetup o).endMarker]) :
    ∃ (i : Nat) (y : Lexeme), s.marked[i]? = some y ∧ x = y.numbered i := by
  obtain ⟨i, hi⟩ := List.mem_iff_getElem?.1 hx
  exact ⟨i, getElem?_numbered o hi⟩

/-- The numbers keep the order of ends and starts. -/
theorem stop_le_start_iff (hx : s.marked[i]? = some x) (hy : s.marked[j]? = some y) :
    x.location.span.stop ≤ y.location.span.start ↔
      (x.numbered i).location.span.stop ≤ (y.numbered j).location.span.start := by
  rw [Lexeme.stop_numbered, Lexeme.start_numbered]
  have hmem : x ∈ s.marked := List.mem_of_getElem? hx
  rcases Nat.lt_trichotomy i j with hij | rfl | hij
  · have hle := stop_le_start hx hy hij
    rw [if_neg hle.2]
    omega
  · obtain rfl := Option.some.inj (hx.symm.trans hy)
    by_cases heof : x.token = .eof
    · -- the end marker starts where it ends
      have hend := stop_endMarker s
      rw [if_pos heof, eq_endMarker hmem heof]
      omega
    · have hlt := start_lt_stop hmem heof
      rw [if_neg heof]
      omega
  · have hlt := start_lt_start hy hx hij
    have hle := start_le_stop hmem
    split
    · omega
    · omega

/-- Different tokens start at different places. -/
theorem eq_of_start_eq (hx : s.marked[i]? = some x) (hy : s.marked[j]? = some y)
    (h : x.location.span.start = y.location.span.start) : i = j := by
  rcases Nat.lt_trichotomy i j with hij | hij | hij
  · have := start_lt_start hx hy hij
    omega
  · exact hij
  · have := start_lt_start hy hx hij
    omega

/-- Numbers are as good as places for a parse. -/
theorem numbered_suits (s : Source) (o : Options) : (s.numberedSetup o).Suits s.numbered where
  eof := s.endMarker_token
  tokens x hx := by
    obtain ⟨i, hi, rfl⟩ := List.mem_mapIdx.1 hx
    rw [Lexeme.token_numbered]
    exact s.token_ne_eof (List.getElem_mem hi)
  ordered := by
    constructor
    · intro x hx
      obtain ⟨i, hi, rfl⟩ := List.mem_mapIdx.1 hx
      have htoken := s.token_ne_eof (List.getElem_mem hi)
      rw [Lexeme.start_numbered, Lexeme.stop_numbered, if_neg htoken]
      omega
    · rw [List.pairwise_iff_getElem]
      intro i j hi hj hij
      simp only [numbered, List.getElem_mapIdx, Lexeme.stop_numbered, Lexeme.start_numbered]
      split
      · omega
      · omega
  before x hx := by
    obtain ⟨i, hi, rfl⟩ := List.mem_mapIdx.1 hx
    simp only [numberedSetup, Lexeme.stop_numbered, Lexeme.start_numbered]
    split
    · omega
    · omega

/-! ## From numbers to places -/

/-- The token that a number stands for, as an offset or a column of a numbered token. -/
def tokenAt (s : Source) (k : Int) : Lexeme := s.marked.getD (k.toNat / 2) s.endMarker

/-- From the numbers to the places in a source: even numbers are starts of tokens, and odd ones are ends. -/
def places (s : Source) : Relocation where
  offset k := if k % 2 = 0 then (s.tokenAt k).location.span.start else (s.tokenAt k).location.span.stop
  position p := if p.column % 2 = 0 then (s.tokenAt p.column).location.first else (s.tokenAt p.column).location.last

/-- An even place is where a token starts. -/
theorem tokenAt_even (hy : s.marked[i]? = some y) : s.tokenAt (2 * i) = y := by
  have hdiv : (2 * i : Int).toNat / 2 = i := by omega
  rw [tokenAt, hdiv, List.getD_eq_getElem?_getD, hy, Option.getD_some]

/-- An odd place is where it ends. -/
theorem tokenAt_odd (hy : s.marked[i]? = some y) : s.tokenAt (2 * i + 1) = y := by
  have hdiv : (2 * i + 1 : Int).toNat / 2 = i := by omega
  rw [tokenAt, hdiv, List.getD_eq_getElem?_getD, hy, Option.getD_some]

/-- A numbered token is moved to the token with its number. -/
theorem relocate_numbered (hy : s.marked[i]? = some y) (htoken : y.token = x.token) (htext : y.text = x.text) :
    (x.numbered i).relocate s.places = y := by
  have heven : (2 * i : Int) % 2 = 0 := by omega
  have hodd : ¬ (2 * i + 1 : Int) % 2 = 0 := by omega
  obtain ⟨token, text, ⟨⟨start, stop⟩, first, last⟩⟩ := y
  obtain rfl : token = x.token := htoken
  obtain rfl : text = x.text := htext
  by_cases heof : x.token = .eof
  · -- the end marker ends where it starts
    have hend := congrArg Lexeme.location (eq_endMarker (List.mem_of_getElem? hy) heof)
    obtain rfl : stop = start := (congrArg (·.span.stop) hend).trans (congrArg (·.span.start) hend).symm
    obtain rfl : last = first := (congrArg (·.last) hend).trans (congrArg (·.first) hend).symm
    simp only [Lexeme.relocate, Lexeme.numbered, Location.relocate, places, heof, if_true, Int.add_zero, heven,
      tokenAt_even hy]
  · simp only [Lexeme.relocate, Lexeme.numbered, Location.relocate, places, heof, if_false, heven, hodd, if_true,
      tokenAt_even hy, tokenAt_odd hy]

/-- Numbered tokens that stand one behind the other, unless both are the end marker. -/
theorem adjacent_numbered (o : Options) (h : Adjacent s.numbered (s.numberedSetup o).endMarker x y) :
    (∃ (i : Nat) (u v : Lexeme), s.marked[i]? = some u ∧ s.marked[i + 1]? = some v ∧ x = u.numbered i ∧
      y = v.numbered (i + 1)) ∨ x = (s.numberedSetup o).endMarker ∧ y = (s.numberedSetup o).endMarker := by
  obtain ⟨us, vs, hall⟩ := h
  rcases List.eq_nil_or_concat vs with rfl | ⟨vs, w, rfl⟩
  · right
    have hsplit : s.numbered ++ [(s.numberedSetup o).endMarker] ++ [(s.numberedSetup o).endMarker]
        = us ++ [x] ++ [y] := by
      simpa using hall
    obtain ⟨hfront, hy⟩ := List.append_inj' hsplit rfl
    obtain ⟨-, hx⟩ := List.append_inj' hfront rfl
    exact ⟨(List.singleton_inj.1 hx).symm, (List.singleton_inj.1 hy).symm⟩
  · left
    have hsplit : s.numbered ++ [(s.numberedSetup o).endMarker] ++ [(s.numberedSetup o).endMarker]
        = us ++ x :: y :: vs ++ [w] := by
      simpa using hall
    obtain ⟨hfront, -⟩ := List.append_inj' hsplit rfl
    obtain ⟨u, hu, hx⟩ := getElem?_numbered (s := s) (i := us.length) (x := x) o (by simp [hfront])
    obtain ⟨v, hv, hy⟩ := getElem?_numbered (s := s) (i := us.length + 1) (x := y) o (by simp [hfront])
    exact ⟨us.length, u, v, hu, hv, hx, hy⟩

namespace SameTokens

/-- Every numbered token has a token of the other source to be moved to. -/
theorem exists_relocate (h : a.SameTokens b) (o : Options)
    (hx : x ∈ a.numbered ++ [(a.numberedSetup o).endMarker]) :
    ∃ (i : Nat) (y : Lexeme), b.marked[i]? = some y ∧ x.relocate b.places = y ∧
      x.location.span = (y.numbered i).location.span := by
  obtain ⟨i, w, hw, rfl⟩ := exists_numbered o hx
  obtain ⟨y, hy, htoken, htext⟩ := h.get hw
  refine ⟨i, y, hy, relocate_numbered hy htoken htext, ?_⟩
  simp only [Lexeme.numbered, htoken]

/-- The end markers of two texts with the same tokens have the same number. -/
theorem endMarker_relocate (h : a.SameTokens b) (o : Options) :
    b.endMarker = (a.numberedSetup o).endMarker.relocate b.places := by
  have hlast : a.marked[a.tokens.length]? = some a.endMarker := by simp [marked]
  obtain ⟨y, hy, htoken, htext⟩ := h.get hlast
  rw [← eq_endMarker (List.mem_of_getElem? hy) htoken]
  exact (relocate_numbered hy htoken htext).symm

/-- Starts are told apart. -/
theorem starts (h : a.SameTokens b) (o : Options) (hx : x ∈ a.numbered ++ [(a.numberedSetup o).endMarker])
    (hy : y ∈ a.numbered ++ [(a.numberedSetup o).endMarker])
    (hxy : b.places.offset x.location.span.start = b.places.offset y.location.span.start) :
    x.location.span.start = y.location.span.start := by
  obtain ⟨i, u, hu, rfl, hspan⟩ := h.exists_relocate o hx
  obtain ⟨j, v, hv, rfl, hspan'⟩ := h.exists_relocate o hy
  rw [hspan, hspan', Lexeme.start_numbered, Lexeme.start_numbered, eq_of_start_eq hu hv hxy]

/-- The order of ends and starts is kept. -/
theorem order (h : a.SameTokens b) (o : Options) (hx : x ∈ a.numbered ++ [(a.numberedSetup o).endMarker])
    (hy : y ∈ a.numbered ++ [(a.numberedSetup o).endMarker]) :
    b.places.offset x.location.span.stop ≤ b.places.offset y.location.span.start ↔
      x.location.span.stop ≤ y.location.span.start := by
  obtain ⟨i, _, hu, rfl, hspan⟩ := h.exists_relocate o hx
  obtain ⟨j, _, hv, rfl, hspan'⟩ := h.exists_relocate o hy
  have horder := stop_le_start_iff hu hv
  rw [← hspan, ← hspan'] at horder
  exact horder

/-- Line breaks are kept. -/
theorem breaks (h : a.SameTokens b) (o : Options) (hadj : Adjacent a.numbered (a.numberedSetup o).endMarker x y) :
    (b.places.position x.location.last).line < (b.places.position y.location.first).line ↔
      x.location.last.line < y.location.first.line := by
  rcases adjacent_numbered o hadj with ⟨i, u, v, hu, hv, rfl, rfl⟩ | ⟨rfl, rfl⟩
  · obtain ⟨u', hu', htoken, htext⟩ := h.get hu
    obtain ⟨v', hv', htoken', htext'⟩ := h.get hv
    have hbreak := h.break_iff hu hv hu' hv'
    rw [← relocate_numbered hu' htoken htext, ← relocate_numbered hv' htoken' htext'] at hbreak
    exact hbreak
  · -- there is no line break in the end marker
    have hbreak : ¬ b.endMarker.location.last.line < b.endMarker.location.first.line := Int.lt_irrefl _
    rw [h.endMarker_relocate o] at hbreak
    exact iff_of_false hbreak (Int.lt_irrefl _)

/-- **From the numbered tokens to a source** with the same tokens, both parses go the same way. -/
def mirror (h : a.SameTokens b) (o : Options) : Mirror where
  move := b.places
  rename _ := b.name
  all := a.numbered
  setup := a.numberedSetup o
  setup' := o.setup b
  prior := none
  before := []
  name_eq := rfl
  maxDepth_eq := maxDepth_numberedSetup a b o
  maxErrors_eq := maxErrors_numberedSetup a b o
  endMarker_eq := h.endMarker_relocate o
  starts _ hx _ hy := h.starts o hx hy
  order _ hx _ hy := h.order o hx hy
  lines _ _ := h.breaks o
  prior_valid := by simp
  prior_le := by simp
  uncounted := .inl rfl

/-- The tokens of the source are the numbered ones, moved. -/
theorem tokens_relocate (h : a.SameTokens b) : b.tokens = a.numbered.map (Lexeme.relocate b.places) := by
  have hmarked : b.marked = (a.marked.mapIdx Lexeme.numbered).map (Lexeme.relocate b.places) := by
    apply List.ext_getElem?
    intro i
    rw [List.getElem?_map, List.getElem?_mapIdx]
    cases hx : a.marked[i]? with
    | none =>
      have hlength := congrArg List.length h.tokens
      simp only [List.length_map] at hlength
      rw [List.getElem?_eq_none_iff] at hx
      rw [Option.map_none, Option.map_none, List.getElem?_eq_none_iff, ← hlength]
      exact hx
    | some x =>
      obtain ⟨y, hy, htoken, htext⟩ := h.get hx
      rw [hy, Option.map_some, Option.map_some, relocate_numbered hy htoken htext]
  rw [marked, marked, List.mapIdx_append, List.map_append] at hmarked
  exact (List.append_inj' hmarked rfl).1

/-- Reading a source with the same tokens as `a` gives what reading the numbered tokens of `a` gives, moved. -/
theorem readStatements_eq (h : a.SameTokens b) (o : Options) {ss : List Stmt} {final : State}
    (hrun : Parser.topStmts o.depthLimit (a.numberedSetup o) { rest := a.numbered } = .ok ss final) :
    ∃ final', readStatements o b = (ss.map (Stmt.relocate b.places), final') ∧
      final'.problems = final.problems.map (h.mirror o).carry := by
  let M := h.mirror o
  have hstart : M.Relates { rest := a.numbered } { rest := b.tokens } :=
    ⟨⟨⟨[], rfl, .inl rfl⟩, nofun⟩, h.tokens_relocate, rfl, rfl, rfl⟩
  have hagree := M.follows_topStmts o.depthLimit [] _ _ hstart
  rw [show Parser.loop [] (Parser.topStep o.depthLimit) M.setup { rest := a.numbered } = _ from hrun] at hagree
  cases hrun' : Parser.loop [] (Parser.topStep o.depthLimit) M.setup' { rest := b.tokens } with
  | error bail t =>
    rw [hrun'] at hagree
    exact hagree.elim
  | ok ss' final' =>
    rw [hrun'] at hagree
    obtain ⟨rfl, hfinal⟩ := hagree
    refine ⟨final', ?_, hfinal.problems⟩
    unfold readStatements Parser.topStmts
    rw [show Parser.loop [] (Parser.topStep o.depthLimit) (o.setup b) { rest := b.tokens } = _ from hrun']
    rfl

/-- What is reported of numbered tokens goes from token to token, and so it does when moved to a source. -/
theorem spansTokens (h : a.SameTokens b) {loc : Location} {i j : Nat} {x y : Lexeme}
    (hx : a.marked[i]? = some x) (hy : a.marked[j]? = some y)
    (hloc : loc = (x.numbered i).location.through (y.numbered j).location) :
    b.SpansTokens i j (loc.relocate b.places) := by
  obtain ⟨x', hx', htoken, htext⟩ := h.get hx
  obtain ⟨y', hy', htoken', htext'⟩ := h.get hy
  refine ⟨x', y', hx', hy', ?_⟩
  rw [hloc, Location.relocate_through, ← Lexeme.location_relocate, ← Lexeme.location_relocate,
    relocate_numbered hx' htoken htext, relocate_numbered hy' htoken' htext']

end SameTokens

end Source

/-- **The layout does not matter**, whether the text is well formed or not. Two sources with the same tokens and the same
line breaks between them have trees of the same structure, placeholders included. What the parser reports is the same,
one by one: the codes are equal, and the locations go from the same token to the same token. -/
theorem parse_layout (o : Options) {a b : Source} (h : a.SameTokens b) :
    (parse o a).program.unlocated = (parse o b).program.unlocated ∧
      List.Forall₂ (fun d e => d.code = e.code ∧ ∃ i j, a.SpansTokens i j d.location ∧ b.SpansTokens i j e.location)
        (readStatements o a).2.problems (readStatements o b).2.problems := by
  -- both sources are compared with the numbered tokens of the first one
  have hw := a.numbered_suits o
  obtain ⟨ss, final, hrun⟩ := Parser.topStmts_succeeds hw o.depthLimit (s := { rest := a.numbered })
    ⟨⟨[], rfl, rfl⟩, nofun⟩
  obtain ⟨finalA, hreadA, hproblemsA⟩ := (Source.SameTokens.refl a).readStatements_eq o hrun
  obtain ⟨finalB, hreadB, hproblemsB⟩ := h.readStatements_eq o hrun
  constructor
  · have hbody : ∀ s : Source, Stmt.unlocatedAll (ss.map (Stmt.relocate s.places)) = Stmt.unlocatedAll ss := by
      intro s
      rw [← Stmt.relocateAll_eq_map, Stmt.unlocatedAll_relocateAll]
    simp only [parse, hreadA, hreadB, Program.unlocated, hbody]
  · rw [hreadA, hreadB, hproblemsA, hproblemsB, List.forall₂_map_left_iff, List.forall₂_map_right_iff,
      List.forall₂_same]
    intro d hd
    refine ⟨by rw [Mirror.code_carry, Mirror.code_carry], ?_⟩
    -- the problem goes from one numbered token to another one, and both are moved
    let R : Row := ⟨a.numberedSetup o, a.numbered, hw, Int.le_refl _⟩
    obtain ⟨x, y, hx, hy, hloc⟩ := R.spans_topStmts o.depthLimit hrun d hd
    obtain ⟨i, u, hu, rfl⟩ := Source.exists_numbered o hx
    obtain ⟨j, v, hv, rfl⟩ := Source.exists_numbered o hy
    exact ⟨i, j, (Source.SameTokens.refl a).spansTokens hu hv hloc, h.spansTokens hu hv hloc⟩

/-- An expression is missing, a call is assigned to, nothing handles a block, and the text ends too early. -/
def compactSource : Source :=
  { name := "compact", text := utf8 "x==1;y=;f(2)=3;\ntry\x7b\x7dnew A(", wellFormed := by decide +kernel }

/-- The same with more room between the tokens, and with comments. -/
def spaciousSource : Source :=
  { name := "spacious"
    text := utf8 "x == 1; y = ;  f ( 2 ) = 3 ; // a call\n\n  try \x7b /* */ \x7d new A ( /* the end */"
    wellFormed := by decide +kernel }

theorem parse_layout_spacious :
    compactSource.SameTokens spaciousSource ∧
      (readStatements {} compactSource).2.problems.map (·.code)
        = [.unexpectedToken, .invalidAssignmentTarget, .tryRequiresCatchOrFinally, .unexpectedToken] ∧
      (parse {} compactSource).program.unlocated = (parse {} spaciousSource).program.unlocated ∧
      List.Forall₂ (fun d e => d.code = e.code ∧
          ∃ i j, compactSource.SpansTokens i j d.location ∧ spaciousSource.SpansTokens i j e.location)
        (readStatements {} compactSource).2.problems (readStatements {} spaciousSource).2.problems := by
  have hsame : compactSource.SameTokens spaciousSource := ⟨by decide +kernel, by decide +kernel⟩
  exact ⟨hsame, by decide +kernel, parse_layout {} hsame⟩

end SmallJava
