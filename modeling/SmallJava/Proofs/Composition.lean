import SmallJava.Proofs.Language
import SmallJava.Proofs.Lexical.Joined
import SmallJava.Proofs.Mirroring.Stmt

/-!
# Texts below each other

A parse of a text that has another text above it is, from where the tokens of the upper text end, the parse of the lower
text: the limits, what has been reported and the last token taken do not make a difference.

* `Source.mirror` — the parse of the lower text, and the parse of both from there on;
* `parse_from`, `parse_below` — what the parse of both texts gives, if its first steps take what stands above;
* `Parser.repeats_topStep` — well-formed statements are taken one by one;
* `parse_joined` — a text without problems above any text.
-/

namespace SmallJava

open Grammar

namespace Parser

/-! ## Going on -/

section Loop

variable {α : Type} {setup : Setup} {step : α → Parser (ForInStep α)}

/-- A loop that comes to its end does so with any larger bound. -/
theorem loopWithin_mono {bound bound' : List Lexeme} (hle : bound.length ≤ bound'.length) {a c : α} {s s' : State}
    (h : loopWithin step bound a setup s = .ok c s') : loopWithin step bound' a setup s = .ok c s' := by
  induction bound generalizing bound' a s with
  | nil =>
    cases hstep : step a setup s with
    | error b t => simp [loopWithin_error _ hstep] at h
    | ok next t =>
      cases next with
      | done b => rwa [loopWithin_done _ hstep] at h ⊢
      | yield b =>
        rw [loopWithin, bind_ok _ hstep] at h
        cases h
  | cons x bound ih =>
    obtain ⟨x', bound', rfl⟩ := List.exists_cons_of_length_pos (Nat.lt_of_lt_of_le (Nat.succ_pos _) hle)
    cases hstep : step a setup s with
    | error b t => simp [loopWithin_error _ hstep] at h
    | ok next t =>
      cases next with
      | done b => rwa [loopWithin_done _ hstep] at h ⊢
      | yield b =>
        rw [loopWithin_yield _ hstep] at h ⊢
        exact ih (Nat.le_of_succ_le_succ hle) h

/-- A loop gives what it gives when it is started after some of its steps. -/
theorem Yields.loop_eq {a b c : α} {s s' s'' : State} (h : Yields setup step a s b s')
    (hloop : Parser.loop b step setup s' = .ok c s'') : Parser.loop a step setup s = .ok c s'' := by
  obtain ⟨bound, hle, heq⟩ := h.loopWithin s.rest (Nat.le_refl _)
  exact heq.trans (loopWithin_mono hle hloop)

end Loop

/-! ## Statements one by one -/

/-- **Statements of the grammar are taken one by one**, if what follows does not go on with the last one. -/
theorem repeats_topStep {setup : Setup} {m : Mode} {all xs rest : List Lexeme} {ss : List Stmt} (hw : setup.Suits all)
    (hm : m.Exact) (hb : setup.Bears m) (h : DerivesProgram m xs ss) {d : Nat} (hd : Stmt.nestings ss ≤ d) {s : State}
    (hs : s.Ready all (xs ++ rest)) (hrest : (headToken rest).continuesStmt = false) (before : List Stmt) :
    Repeats setup m (topStep d) before s xs (before ++ ss) := by
  unfold DerivesProgram at h
  generalize hsym : StmtSymbol.list .top = sym at h
  induction h generalizing s before with
  | nil =>
    rw [List.append_nil]
    exact .refl hs.running
  | @cons p xs ys t ts h hmore ih ihs =>
    cases hsym
    simp only [Stmt.nestings] at hd
    rw [List.append_assoc] at hs
    have hne : xs ≠ [] := h.ne_nil (by simp)
    have hfollow : (headToken (ys ++ rest)).continuesStmt = false := hmore.follow hm hrest
    have hitem := acceptedStmt hw hm hb h d (by omega) s _ hs hfollow
    have hone := accepts_listStep hw hs hne (h.startsItem hm) hitem before
    have hall : Repeats setup m (topStep d) before s (xs ++ ys) (before ++ [t] ++ ts) :=
      (Repeats.one hone hne).trans hs fun s₁ hs₁ => ihs (by omega) hs₁ (before ++ [t]) rfl
    simpa using hall
  | skip he => exact absurd he hm.errors
  | _ => cases hsym

end Parser

/-! ## The two parses -/

namespace Source

variable {a b c : Source}

/-- A text without lexical problems has no malformed tokens. -/
theorem token_ne_invalid (ha : a.faults = []) {x : Lexeme} (hx : x ∈ a.tokens) : x.token ≠ .invalid :=
  fun hi => a.faults_ne_nil hx hi ha

theorem start_nonneg (b : Source) {x : Lexeme} (hx : x ∈ b.tokens ++ [b.endMarker]) : 0 ≤ x.location.span.start := by
  rcases List.mem_append.1 hx with hx | hx
  · exact (b.holds_of_mem_tokens hx).start_nonneg
  · obtain rfl := List.mem_singleton.1 hx
    exact Int.natCast_nonneg _

/-- The parse of a text, and the parse of the same text with another one above it, once that one has been taken: the
token taken last is a valid one of the text above, if there is one. -/
def mirror (o : Options) (hname : c.name = b.name) (htext : c.text = a.text ++ byte '\n' :: b.text)
    (prior : Option Lexeme) (hprior : ∀ l ∈ prior, l.token ≠ .invalid ∧ l.location.span.stop ≤ a.size)
    (before : Diagnostics) (hcount : before = [] ∨ o.errorLimit? = none) : Mirror where
  move := a.below
  rename := id
  all := b.tokens
  setup := o.setup b
  setup' := o.setup c
  prior := prior
  before := before
  name_eq := hname
  maxDepth_eq := rfl
  maxErrors_eq := rfl
  endMarker_eq := endMarker_below htext
  starts x _ y _ h := by
    simp only [below, Relocation.down] at h
    omega
  order x _ y _ := by
    simp only [below, Relocation.down]
    omega
  lines x y _ := by
    simp only [below, Relocation.down]
    omega
  prior_valid l hl := (hprior l hl).1
  prior_le l hl x hx := by
    have hstop := (hprior l hl).2
    have hstart := b.start_nonneg hx
    simp only [below, Relocation.down]
    omega
  uncounted := hcount

end Source

/-- **A parse goes on below a text as if it started there**, if it goes on in the same way with a valid token, or none,
for the last one taken. -/
theorem parse_from {o : Options} {a b c : Source} (hname : c.name = b.name)
    (htext : c.text = a.text ++ byte '\n' :: b.text) {front : List Stmt} {s : State}
    (hyields : Parser.Yields (o.setup c) (Parser.topStep o.depthLimit) [] { rest := c.tokens } front s)
    (hrest : s.rest = b.tokens.map (Lexeme.relocate a.below)) (hrunning : s.halted = false)
    (hcount : s.problems = [] ∨ o.errorLimit? = none) {prior : Option Lexeme}
    (hprior : ∀ l ∈ prior, l.token ≠ .invalid ∧ l.location.span.stop ≤ a.size)
    (hlast : Parser.loop front (Parser.topStep o.depthLimit) (o.setup c) s
      = Parser.loop front (Parser.topStep o.depthLimit) (o.setup c) { s with last := prior }) :
    (parse o c).program.body = front ++ (parse o b).program.body.map (Stmt.relocate a.below) ∧
      ∃ ps : Diagnostics, (parse o b).diagnostics = Diagnostics.merge [b.faults, ps] ∧
        (parse o c).diagnostics = Diagnostics.merge [c.faults, s.problems ++ ps.map (Diagnostic.relocate a.below)] := by
  -- the parse of the lower text is mirrored by the parse of both, from the state that the upper text leads to
  let M := Source.mirror o hname htext prior hprior s.problems hcount
  obtain ⟨final, hrun, hdiagnostics, -⟩ := parse_reads o b
  have hstart : M.Relates { rest := b.tokens } { s with last := prior } :=
    ⟨⟨⟨[], rfl, .inl rfl⟩, nofun⟩, hrest, rfl, by simp [M, Source.mirror], hrunning⟩
  have hagree := M.follows_topStmts o.depthLimit front _ _ hstart
  rw [show Parser.loop [] (Parser.topStep o.depthLimit) M.setup { rest := b.tokens } = _ from hrun] at hagree
  cases hrun' : Parser.loop front (Parser.topStep o.depthLimit) M.setup' { s with last := prior } with
  | error bail t =>
    rw [hrun'] at hagree
    exact hagree.elim
  | ok ss final' =>
    rw [hrun'] at hagree
    obtain ⟨rfl, hfinal⟩ := hagree
    have hwhole : readStatements o c
        = (front ++ (parse o b).program.body.map (Stmt.relocate a.below), final') := by
      have hloop := hyields.loop_eq (hlast.trans hrun')
      unfold readStatements Parser.topStmts
      rw [hloop]
      rfl
    refine ⟨by simp [parse, hwhole], final.problems, hdiagnostics, ?_⟩
    simp only [parse, hwhole]
    rw [hfinal.problems]
    rfl

/-- A parse goes on below a text without faults as if it started there. -/
theorem parse_below {o : Options} {a b c : Source} (hname : c.name = b.name)
    (htext : c.text = a.text ++ byte '\n' :: b.text) (ha : a.faults = []) {front : List Stmt} {s : State}
    (hyields : Parser.Yields (o.setup c) (Parser.topStep o.depthLimit) [] { rest := c.tokens } front s)
    (hrest : s.rest = b.tokens.map (Lexeme.relocate a.below)) (hlast : s.last = a.tokens.getLast?)
    (hrunning : s.halted = false) (hcount : s.problems = [] ∨ o.errorLimit? = none) :
    (parse o c).program.body = front ++ (parse o b).program.body.map (Stmt.relocate a.below) ∧
      ∃ ps : Diagnostics, (parse o b).diagnostics = Diagnostics.merge [b.faults, ps] ∧
        (parse o c).diagnostics = Diagnostics.merge
          [b.faults.map (Diagnostic.relocate a.below), s.problems ++ ps.map (Diagnostic.relocate a.below)] := by
  have hprior : ∀ l ∈ a.tokens.getLast?, l.token ≠ .invalid ∧ l.location.span.stop ≤ a.size := by
    intro l hl
    have hmem := List.mem_of_getLast? hl
    exact ⟨Source.token_ne_invalid ha hmem, (a.holds_of_mem_tokens hmem).stop_le⟩
  rw [← Source.faults_below htext ha hname]
  exact parse_from hname htext hyields hrest hrunning hcount hprior (by rw [← hlast])

/-! ## A text without problems -/

/-- What is written below a text stays in its order. -/
theorem Source.before_below (a : Source) (d e : Diagnostic) :
    (d.relocate a.below).before (e.relocate a.below) = d.before e := by
  have hdistance : (d.relocate a.below).location.span.start - (e.relocate a.below).location.span.start
      = d.location.span.start - e.location.span.start := by
    simp only [Diagnostic.location_relocate, Location.start_relocate, below, Relocation.down]
    omega
  unfold Diagnostic.before
  rw [hdistance]

/-- The comments of the lower text follow those of the upper one, moved. -/
theorem Source.commentNodes_below {a b c : Source} (htext : c.text = a.text ++ byte '\n' :: b.text)
    (ha : a.faults = []) : c.commentNodes = a.commentNodes ++ b.commentNodes.map (Comment.relocate a.below) := by
  rw [commentNodes, comments_below htext ha, List.map_append, List.map_map, commentNodes, commentNodes, List.map_map]
  rfl

/-- **Parsing is compositional.** A text whose parse finds no problem, and below it any text that does not start with
`else`, `catch` or `finally`: the parse of both gives the statements and comments of the one and of the other, and the
diagnostics of the other. What comes from the lower text is moved by the size of the upper one and a line break, and by
the number of its lines, and the wording of a diagnostic does not change unless it names a position. -/
theorem parse_joined (o : Options) {a b c : Source} (hname : c.name = b.name)
    (htext : c.text = a.text ++ byte '\n' :: b.text) (ha : (parse o a).diagnostics = [])
    (hb : headToken b.tokens ∉ [.kwElse, .kwCatch, .kwFinally]) :
    (parse o c).program.body = (parse o a).program.body ++ (parse o b).program.body.map (Stmt.relocate a.below) ∧
      (parse o c).program.comments
        = (parse o a).program.comments ++ (parse o b).program.comments.map (Comment.relocate a.below) ∧
      (parse o c).diagnostics = (parse o b).diagnostics.map (Diagnostic.relocate a.below) ∧
      ∀ d ∈ (parse o b).diagnostics, d.code ≠ .unterminatedBlock → (d.relocate a.below).message = d.message := by
  obtain ⟨hfaults, hwell⟩ := wellFormed_of_parse ha
  obtain ⟨hderived, hnesting⟩ := wellFormed_iff.1 hwell
  have htokens := Source.tokens_below htext hfaults
  have hready : ({ rest := c.tokens } : State).Ready c.tokens
      (a.tokens ++ b.tokens.map (Lexeme.relocate a.below)) := ⟨c.at_start, rfl, htokens⟩
  -- the last statement of the upper text does not go on below
  have hfollow : (headToken (b.tokens.map (Lexeme.relocate a.below))).continuesStmt = false := by
    cases hfirst : b.tokens with
    | nil => rfl
    | cons x r =>
      rw [hfirst] at hb
      simp only [headToken_cons, List.map_cons, Lexeme.token_relocate] at hb ⊢
      revert hb
      cases x.token <;> simp [Token.continuesStmt]
  obtain ⟨s, hyields, hpass⟩ :=
    Parser.repeats_topStep (c.suits o) ⟨id, id, id⟩ (.inr id) hderived hnesting hready hfollow []
  have hquiet : s.problems = [] := by
    obtain ⟨ps, hps, -, hnone⟩ := hpass.problems
    simpa [hnone.resolve_left id] using hps
  obtain ⟨hbody, ps, hdiagnostics, hall⟩ := parse_below hname htext hfaults hyields
    (hready.passes hpass).rest (by simpa using hpass.last) hpass.running (.inl hquiet)
  refine ⟨by simpa using hbody, ?_, ?_, ?_⟩
  · simp only [parse, Source.commentNodes_below htext hfaults]
    split <;> rfl
  · rw [hall, hquiet, List.nil_append, hdiagnostics]
    exact Diagnostics.merge_map a.before_below [b.faults, ps]
  · exact fun d _ hcode => Problem.message_relocate d.problem hcode

/-- A comment and a whole statement. -/
def upperSource : Source :=
  { name := "", text := utf8 "// one\nif (a) \x7b f(); \x7d", wellFormed := by decide +kernel }

/-- A block that is left open, in which an expression is missing. -/
def lowerSource : Source :=
  { name := "", text := utf8 "\x7b b = ; /* two */", wellFormed := by decide +kernel }

/-- The statement, and the open block below it. -/
def joinedSource : Source :=
  { name := "", text := utf8 "// one\nif (a) \x7b f(); \x7d\n\x7b b = ; /* two */", wellFormed := by decide +kernel }

theorem parse_joined_open :
    (parse { maxErrors := 2, keepComments := true } upperSource).diagnostics = [] ∧
      headToken lowerSource.tokens ∉ [.kwElse, .kwCatch, .kwFinally] ∧
      (parse { maxErrors := 2, keepComments := true } lowerSource).diagnostics.map (·.code)
        = [.unexpectedToken, .unterminatedBlock, .tooManyErrors] ∧
      (parse { maxErrors := 2, keepComments := true } joinedSource).program.body
        = (parse { maxErrors := 2, keepComments := true } upperSource).program.body
          ++ (parse { maxErrors := 2, keepComments := true } lowerSource).program.body.map
            (Stmt.relocate upperSource.below) ∧
      (parse { maxErrors := 2, keepComments := true } joinedSource).diagnostics
        = (parse { maxErrors := 2, keepComments := true } lowerSource).diagnostics.map
          (Diagnostic.relocate upperSource.below) := by
  have hquiet : (parse { maxErrors := 2, keepComments := true } upperSource).diagnostics = [] := by decide +kernel
  have hfirst : headToken lowerSource.tokens ∉ [.kwElse, .kwCatch, .kwFinally] := by decide +kernel
  obtain ⟨hbody, -, hdiagnostics, -⟩ := parse_joined { maxErrors := 2, keepComments := true }
    (a := upperSource) (b := lowerSource) (c := joinedSource) rfl (by decide +kernel) hquiet hfirst
  exact ⟨hquiet, hfirst, by decide +kernel, hbody, hdiagnostics⟩

end SmallJava
