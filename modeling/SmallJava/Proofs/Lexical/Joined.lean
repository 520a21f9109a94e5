import Mathlib.Data.List.Basic
import SmallJava.Proofs.Lexical.Joining
import SmallJava.Proofs.Lexical.Tokens
import SmallJava.Proofs.Text.Lines
import SmallJava.Proofs.Tree.Relocated

/-!
# Sources written one behind the other

The tokens of a text without faults stay what they are and where they are when something is written behind it that ends
its last token (`Source.lexemes_append`). Below a text, behind a line break, everything in a second text keeps its
column, and is moved by the size and by the number of lines of what stands above it: that is the relocation
`Source.below`.

* `Source.lexemes_below`, `Source.faults_below` — the tokens, comments and faults of the two texts together;
* `Source.tokens_semi` — a text with a semicolon behind it;
* `Source.tokens_between` — a text with something in front of it and something behind it, all on one line.
-/

namespace SmallJava

/-- A lexical problem names no place. -/
theorem relocate_of_cut_fault (m : Relocation) {b : UInt8} {r : Bytes} {p : Problem} {n : Nat}
    (h : (cut b r).fault = some (p, n)) : p.relocate m = p := by
  cases faultKind h <;> rfl

namespace Source

variable {a b c : Source} {k : Bytes}

/-- Where everything goes that is written below a text: behind its last byte and a line break. -/
def below (a : Source) : Relocation := .down (a.size + 1) a.lineCount

/-! ## In front -/

/-- A location in a text does not depend on what stands behind the text. -/
theorem location_of_le (hc : c.text = a.text ++ k) {i j : Int} (hi : 0 ≤ i) (hij : i ≤ j) (hj : j ≤ a.size) :
    c.location ⟨i, j⟩ = a.location ⟨i, j⟩ := by
  simp only [location, lineCol_of_le hc hi (Int.le_trans hij hj), lineCol_of_le hc (Int.le_trans hi hij) hj]

/-- A piece of the first text is the same lexeme in the joined one. -/
theorem lexeme?_of_le (hc : c.text = a.text ++ k) {p : Piece} (hp : p ∈ a.pieces) :
    Piece.lexeme? c p = Piece.lexeme? a p := by
  have hle := (a.piece_within hp).le_stop
  unfold Piece.lexeme?
  rw [location_of_le hc (by omega) (by omega) (by omega)]

/-- In a text without lexical problems no piece has a fault. -/
theorem fault_eq_none (ha : a.faults = []) {p : Piece} (hp : p ∈ a.pieces) : p.fault = none := by
  have h := List.flatMap_eq_nil_iff.1 ha p hp
  cases hfault : p.fault with
  | none => rfl
  | some f => simp [Piece.diagnostics, hfault] at h

theorem token_mem_of_mem_pieces {p : Piece} (hp : p ∈ a.pieces) {t : Token} (ht : p.token = some t) :
    ∃ x ∈ a.lexemes, x.token = t :=
  ⟨_, List.mem_filterMap.2 ⟨p, hp, by rw [Piece.lexeme?, ht, Option.map_some]⟩, rfl⟩

section Append

variable (hc : c.text = a.text ++ k) (hk : Parts k) (ha : a.faults = [])
  (hline : ∀ x ∈ a.lexemes, x.token = .lineComment → ∀ c ∈ k.head?, c = byte '\n')

include hc hk ha hline

/-- The joined text is cut into the pieces of the first one, and then those of the second. -/
theorem pieces_append : c.pieces = a.pieces ++ piecesFrom a.size 0 k := by
  have h := piecesFrom_append hk 0 a.text (fun p hp => fault_eq_none ha hp) fun p hp ht =>
    let ⟨x, hx, hxt⟩ := token_mem_of_mem_pieces hp ht
    hline x hx hxt
  rw [pieces, hc, h, Nat.zero_add]
  rfl

/-- **The tokens of a text without faults stay as they are if something is written behind them.** -/
theorem lexemes_append : c.lexemes = a.lexemes ++ (piecesFrom a.size 0 k).filterMap (Piece.lexeme? c) := by
  rw [lexemes, pieces_append hc hk ha hline, List.filterMap_append, lexemes]
  congr 1
  exact List.filterMap_congr fun p hp => lexeme?_of_le hc hp

/-- The first text has no problems, so those of the joined text lie behind it. -/
theorem faults_append : c.faults = (piecesFrom a.size 0 k).flatMap (Piece.diagnostics c) := by
  have hnone : a.pieces.flatMap (Piece.diagnostics c) = [] := by
    refine List.flatMap_eq_nil_iff.2 fun p hp => ?_
    rw [Piece.diagnostics, fault_eq_none ha hp]
  rw [faults, pieces_append hc hk ha hline, List.flatMap_append, hnone, List.nil_append]

end Append

/-! ## Below a line break -/

theorem eq_break_of_mem {text : Bytes} : ∀ x ∈ (byte '\n' :: text).head?, x = byte '\n' := by
  intro x hx
  simpa using hx.symm

theorem parts_break (text : Bytes) : Parts (byte '\n' :: text) := fun x hx => .inl (eq_break_of_mem x hx)

/-- The line break and the text below it, as pieces of the whole. -/
theorem piecesFrom_break (n : Nat) (b : Source) :
    piecesFrom n 0 (byte '\n' :: b.text) = { start := n, text := [byte '\n'], token := none, fault := none } ::
      b.pieces.map fun p => { p with start := p.start + (n + 1) } := by
  have hbreak : cut (byte '\n') b.text = { size := 1 } := rfl
  have hmoved := piecesFrom_add (n + 1) 0 0 b.text
  rw [Nat.zero_add] at hmoved
  rw [piecesFrom_cons, hbreak, pieces, ← hmoved]
  rfl

section Below

variable (hc : c.text = a.text ++ byte '\n' :: b.text)

include hc

/-- Below another text, locations move down by its bytes and lines. -/
theorem location_below (i n : Nat) :
    c.location ⟨(i + (a.size + 1) : Nat), (i + (a.size + 1) : Nat) + n⟩ = (b.location ⟨i, i + n⟩).relocate a.below := by
  have hstart : ((i + (a.size + 1) : Nat) : Int) = (i : Int) + (a.size + 1) := by push_cast; rfl
  have hstop : (i : Int) + (a.size + 1) + n = (i + n : Int) + (a.size + 1) := by omega
  have hfirst := lineCol_add hc (show 0 ≤ (i : Int) by omega)
  have hlast := lineCol_add hc (show 0 ≤ (i + n : Int) by omega)
  simp only [location, hstart, hstop, hfirst, hlast]
  rfl

theorem endMarker_below : c.endMarker = b.endMarker.relocate a.below := by
  have hsize : c.size = b.size + (a.size + 1) := by
    simp only [size, hc, List.length_append, List.length_cons]
    omega
  have hloc := location_below hc b.size 0
  rw [← hsize] at hloc
  simpa [endMarker, Lexeme.relocate] using hloc

theorem lexeme?_below (p : Piece) :
    Piece.lexeme? c { p with start := p.start + (a.size + 1) } = (Piece.lexeme? b p).map (Lexeme.relocate a.below) := by
  unfold Piece.lexeme?
  rw [Option.map_map, location_below hc]
  rfl

theorem diagnostics_below (hname : c.name = b.name) {p : Piece} (hp : p ∈ b.pieces) :
    Piece.diagnostics c { p with start := p.start + (a.size + 1) }
      = (Piece.diagnostics b p).map (Diagnostic.relocate a.below) := by
  unfold Piece.diagnostics
  cases hfault : p.fault with
  | none => rfl
  | some f =>
    obtain ⟨-, x, r, -, -, -, hcut⟩ := exists_cut_of_mem_piecesFrom hp
    have hproblem := relocate_of_cut_fault a.below (hcut.symm.trans hfault)
    simp only [location_below hc, hname, List.map_cons, List.map_nil, Diagnostic.relocate, hproblem]

theorem lexemes_break :
    (piecesFrom a.size 0 (byte '\n' :: b.text)).filterMap (Piece.lexeme? c)
      = b.lexemes.map (Lexeme.relocate a.below) := by
  rw [piecesFrom_break, List.filterMap_cons_none rfl, List.filterMap_map, lexemes, List.map_filterMap]
  exact List.filterMap_congr fun p _ => lexeme?_below hc p

theorem faults_break (hname : c.name = b.name) :
    (piecesFrom a.size 0 (byte '\n' :: b.text)).flatMap (Piece.diagnostics c)
      = b.faults.map (Diagnostic.relocate a.below) := by
  have hback : (b.pieces.map fun p => { p with start := p.start + (a.size + 1) }).flatMap (Piece.diagnostics c)
      = (b.pieces.flatMap (Piece.diagnostics b)).map (Diagnostic.relocate a.below) := by
    rw [List.flatMap_map, List.map_flatMap]
    exact List.flatMap_congr fun p hp => diagnostics_below hc hname hp
  rw [piecesFrom_break, List.flatMap_cons, hback, faults]
  rfl

variable (ha : a.faults = [])

include ha

/-- **The tokens and comments of two texts with a line break between them.** -/
theorem lexemes_below : c.lexemes = a.lexemes ++ b.lexemes.map (Lexeme.relocate a.below) := by
  rw [lexemes_append hc (parts_break b.text) ha fun _ _ _ => eq_break_of_mem, lexemes_break hc]

/-- **The tokens of two texts below each other** are those of the first, and those of the second moved down. -/
theorem tokens_below : c.tokens = a.tokens ++ b.tokens.map (Lexeme.relocate a.below) := by
  rw [tokens, lexemes_below hc ha, List.filter_append, List.filter_map]
  rfl

/-- The comments of two texts below each other. -/
theorem comments_below : c.comments = a.comments ++ b.comments.map (Lexeme.relocate a.below) := by
  rw [comments, lexemes_below hc ha, List.filter_append, List.filter_map]
  rfl

/-- The lexical problems are those of the second text, moved down. -/
theorem faults_below (hname : c.name = b.name) : c.faults = b.faults.map (Diagnostic.relocate a.below) := by
  rw [faults_append hc (parts_break b.text) ha fun _ _ _ => eq_break_of_mem, faults_break hc hname]

end Below

/-! ## Before a semicolon -/

theorem not_lineComment (h : a.comments = []) {x : Lexeme} (hx : x ∈ a.lexemes) : x.token ≠ .lineComment := by
  intro ht
  have hmem : x ∈ a.comments := List.mem_filter.2 ⟨hx, by simp [ht, Token.isComment]⟩
  simp [h] at hmem

/-- **A text without comments, and a semicolon behind it.** -/
theorem tokens_semi (hc : c.text = a.text ++ [byte ';']) (ha : a.faults = []) (hcomments : a.comments = []) :
    c.faults = [] ∧ ∃ semi, semi.token = .semi ∧ c.tokens = a.tokens ++ [semi] := by
  have hparts : Parts [byte ';'] := fun x hx => .inr (.inl (by simpa using hx.symm))
  have hline : ∀ x ∈ a.lexemes, x.token = .lineComment → ∀ c ∈ [byte ';'].head?, c = byte '\n' :=
    fun x hx ht => absurd ht (not_lineComment hcomments hx)
  have hpieces : piecesFrom a.size 0 [byte ';']
      = [{ start := a.size, text := [byte ';'], token := some .semi, fault := none }] := rfl
  constructor
  · rw [faults_append hc hparts ha hline, hpieces]
    rfl
  · refine ⟨{ token := .semi, text := [byte ';'], location := c.location ⟨a.size, a.size + 1⟩ }, rfl, ?_⟩
    rw [tokens, lexemes_append hc hparts ha hline, hpieces, List.filter_append]
    rfl

/-! ## On one line -/

section Between

variable (hline : byte '\n' ∉ c.text) (ha : byte '\n' ∉ a.text)

include hline ha

/-- On one line, locations move to the right by what stands before them. -/
theorem location_right (n i k : Nat) :
    c.location ⟨(i + n : Nat), (i + n : Nat) + k⟩ = (a.location ⟨i, i + k⟩).relocate (.right n) := by
  have hfirst := lineCol_of_notMem hline (show 0 ≤ ((i + n : Nat) : Int) by omega)
  have hlast := lineCol_of_notMem hline (show 0 ≤ ((i + n : Nat) : Int) + k by omega)
  have hfirst' := lineCol_of_notMem ha (show 0 ≤ (i : Int) by omega)
  have hlast' := lineCol_of_notMem ha (show 0 ≤ (i : Int) + k by omega)
  simp only [location, hfirst, hlast, hfirst', hlast', Location.relocate, Relocation.right]
  congr 2 <;> omega

theorem lexeme?_right (n : Nat) (p : Piece) :
    Piece.lexeme? c { p with start := p.start + n } = (Piece.lexeme? a p).map (Lexeme.relocate (.right n)) := by
  unfold Piece.lexeme?
  rw [Option.map_map, location_right hline ha]
  rfl

end Between

section Inserted

variable {f : Bytes} {ps : List Piece} (hc : c.text = f ++ (a.text ++ k))
  (hf : piecesFrom 0 0 (f ++ (a.text ++ k)) = ps ++ piecesFrom f.length 0 (a.text ++ k)) (hk : Parts k)
  (ha : a.faults = []) (hcomments : a.comments = [])

include hc hf hk ha hcomments

/-- **A text without comments between others**, of which the one in front has been cut to its end. -/
theorem pieces_between :
    c.pieces = ps ++ (a.pieces.map (fun p => { p with start := p.start + f.length })
      ++ piecesFrom (a.size + f.length) 0 k) := by
  have hmoved := piecesFrom_add f.length 0 0 (a.text ++ k)
  have hwhole := piecesFrom_append hk 0 a.text (fun p hp => fault_eq_none ha hp) fun p hp ht =>
    let ⟨x, hx, hxt⟩ := token_mem_of_mem_pieces hp ht
    absurd hxt (not_lineComment hcomments hx)
  have hback := piecesFrom_add f.length a.size 0 k
  rw [Nat.zero_add] at hmoved hwhole
  rw [pieces, hc, hf, hmoved, hwhole, List.map_append, hback]
  rfl

/-- **The tokens of a text in a frame** are those of the frame, with those of the text moved to the right between
them. -/
theorem tokens_between (hline : byte '\n' ∉ c.text) (hline' : byte '\n' ∉ a.text) :
    c.tokens = (ps.filterMap (Piece.lexeme? c)).filter (!·.token.isComment)
      ++ (a.tokens.map (Lexeme.relocate (.right f.length))
        ++ ((piecesFrom (a.size + f.length) 0 k).filterMap (Piece.lexeme? c)).filter (!·.token.isComment)) := by
  have hinner : (a.pieces.map fun p => { p with start := p.start + f.length }).filterMap (Piece.lexeme? c)
      = a.lexemes.map (Lexeme.relocate (.right f.length)) := by
    rw [List.filterMap_map, lexemes, List.map_filterMap]
    exact List.filterMap_congr fun p _ => lexeme?_right hline hline' f.length p
  rw [tokens, lexemes, pieces_between hc hf hk ha hcomments, List.filterMap_append, List.filterMap_append, hinner,
    List.filter_append, List.filter_append, List.filter_map]
  rfl

/-- The lexical problems are those of the frame. -/
theorem faults_between :
    c.faults = ps.flatMap (Piece.diagnostics c)
      ++ (piecesFrom (a.size + f.length) 0 k).flatMap (Piece.diagnostics c) := by
  have hinner : (a.pieces.map fun p => { p with start := p.start + f.length }).flatMap (Piece.diagnostics c) = [] := by
    rw [List.flatMap_map]
    refine List.flatMap_eq_nil_iff.2 fun p hp => ?_
    rw [Piece.diagnostics, fault_eq_none ha hp]
  rw [faults, pieces_between hc hf hk ha hcomments, List.flatMap_append, List.flatMap_append, hinner, List.nil_append]

end Inserted

end Source

end SmallJava
