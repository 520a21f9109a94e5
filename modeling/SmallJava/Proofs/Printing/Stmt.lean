import SmallJava.Proofs.Printing.Part

/-!
# Printing statements

The printed text of derived statements is made of tokens that are derived to the same structure again, this time
without error productions: braces that were open at the end are closed, and tokens that were given up are not
printed.

* `DerivesStmt.unhindered` — nothing stands in the way of printing;
* `StmtSymbol.Reprints` — what is printed, and what it is derived to;
* `DerivesStmt.reprints` — derived statements are reprinted.
-/

namespace SmallJava

open Grammar

/-! ## What printing needs -/

/-- What is printed of the statements derived from a symbol. -/
def Grammar.StmtSymbol.chunks (indent : Bytes) : StmtSymbol → List Stmt → List Chunk
  | .list _, ss => Stmt.lines indent ss
  | _, ss => ss.flatMap (·.chunks indent)

/-- Nothing stands in the way of printing the expression. -/
abbrev Expr.Printable (x : Expr) : Prop := x.obstacle? = none ∧ x.breakdown? = none

/-- Nothing stands in the way of writing the chunks. -/
def Chunk.Unhindered (cs : List Chunk) : Prop := ∀ c ∈ cs, c.obstacle = none ∧ c.breakdown = none

namespace Chunk

variable {c : Chunk} {cs ds : List Chunk}

@[simp] theorem unhindered_nil : Unhindered [] := by simp [Unhindered]

@[simp] theorem unhindered_cons :
    Unhindered (c :: cs) ↔ (c.obstacle = none ∧ c.breakdown = none) ∧ Unhindered cs := by
  simp [Unhindered]

@[simp] theorem unhindered_append : Unhindered (cs ++ ds) ↔ Unhindered cs ∧ Unhindered ds := by
  simp only [Unhindered, List.mem_append, or_imp]
  exact forall_and

@[simp] theorem obstacle_of (s : String) : (of s).obstacle = none := rfl

@[simp] theorem breakdown_of (s : String) : (of s).breakdown = none := rfl

@[simp] theorem obstacle_expr (before : Bytes) (x : Expr) (after : Bytes) :
    (expr before x after).obstacle = none ↔ x.obstacle? = none := by
  simp [expr]

@[simp] theorem breakdown_expr (before : Bytes) (x : Expr) (after : Bytes) :
    (expr before x after).breakdown = x.breakdown? := rfl

end Chunk

@[simp] theorem ElseIf.allChunks_append (indent : Bytes) (as bs : List ElseIf) :
    ElseIf.allChunks indent (as ++ bs) = ElseIf.allChunks indent as ++ ElseIf.allChunks indent bs := by
  induction as with
  | nil => rfl
  | cons a as ih =>
    cases a
    simp [ElseIf.allChunks, ih]

@[simp] theorem CatchClause.allChunks_append (indent : Bytes) (cs ds : List CatchClause) :
    CatchClause.allChunks indent (cs ++ ds) = CatchClause.allChunks indent cs ++ CatchClause.allChunks indent ds := by
  induction cs with
  | nil => rfl
  | cons c cs ih =>
    cases c
    simp [CatchClause.allChunks, ih]

/-- The braces of a block are never in the way, only its statements can be. -/
theorem Block.unhindered {indent : Bytes} {loc : Location} {ss : List Stmt}
    (h : Chunk.Unhindered (Stmt.lines (deeper indent) ss)) : Chunk.Unhindered ((Block.mk loc ss).chunks indent) := by
  cases ss with
  | nil => simp [Block.chunks]
  | cons s ss => simpa [Block.chunks] using h

/-- Of a declaration, only the value can be in the way. -/
theorem VarDecl.unhindered {d : VarDecl} (after : String)
    (h : ∀ x ∈ d.init, x.Printable) : Chunk.Unhindered [d.chunk after] := by
  cases hinit : d.init with
  | none => simp [VarDecl.chunk, hinit]
  | some x => simpa [VarDecl.chunk, hinit] using h x (by simp [hinit])

namespace Grammar

variable {m : Mode} {xs ys : List Lexeme}

/-- Without bad nodes a derived expression can be printed. -/
theorem DerivesExpr.printable {sym : ExprSymbol} {x : Expr} (hm : ¬ m.errors) (h : DerivesExpr m sym xs [x]) :
    x.Printable :=
  (Expr.unhindered_cons.1 (h.unhindered hm)).1

theorem Condition.printable {c : Expr} (hm : ¬ m.errors) (h : Condition m xs c) :
    c.Printable := by
  cases h with
  | good _ hc _ => exact hc.printable hm
  | bad he => exact absurd he hm

theorem OptExpr.printable {o : Option Expr} (hm : ¬ m.errors) (h : OptExpr m xs o) :
    ∀ x ∈ o, x.Printable := by
  cases h with
  | none => simp
  | some hx => simpa using hx.printable hm

/-- What may follow a keyword, with the blank before it, can be printed if it is there. -/
theorem OptExpr.unhindered {o : Option Expr} (hm : ¬ m.errors) (h : OptExpr m xs o) :
    Chunk.Unhindered (spacedChunks o) := by
  cases h with
  | none => simp [spacedChunks]
  | some hx => simpa [spacedChunks] using hx.printable hm

/-- The value of a declaration can be printed, if it has one. -/
theorem Declares.printable {t : TypeName} {i : Ident} {o : Option Expr} (hm : ¬ m.errors) (h : Declares m xs t i o) :
    ∀ x ∈ o, x.Printable := by
  cases h with
  | bare => simp
  | init _ _ _ hx => simpa using hx.printable hm

/-- The first part of a `for` is a declaration or an expression, and both can be printed. -/
theorem ForInit.unhindered {o : Option Stmt} (hm : ¬ m.errors) (h : ForInit m xs o) :
    Chunk.Unhindered (initChunks o) := by
  cases h with
  | none => simp [initChunks]
  | decl hd => exact VarDecl.unhindered "" (hd.printable hm)
  | expr hx => simpa [initChunks] using hx.printable hm

/-- A derivation without bad nodes gives statements that can be printed. -/
theorem DerivesStmt.unhindered {sym : StmtSymbol} {ss : List Stmt} (hm : ¬ m.errors) (h : DerivesStmt m sym xs ss)
    (indent : Bytes) : Chunk.Unhindered (sym.chunks indent ss) := by
  induction h generalizing indent with
  | braced _ ih | ifStmt _ ih | tryStmt _ _ _ ih | stmt _ ih => exact ih indent
  | varDecl hd _ => exact VarDecl.unhindered ";" (hd.printable hm)
  | field _ hd _ => exact VarDecl.unhindered ";" (hd.printable hm)
  | expr hx _ _ => simpa [StmtSymbol.chunks, Stmt.chunks] using hx.printable hm
  | empty => simp [StmtSymbol.chunks, Stmt.chunks]
  | @ret _ _ _ o _ hx _ =>
    have hx := hx.printable hm
    cases o <;> simp_all [StmtSymbol.chunks, Stmt.chunks]
  | whileLoop _ hc _ ih | doWhile _ _ _ hc _ ih | arm _ hc _ ih =>
    simpa [StmtSymbol.chunks, Stmt.chunks, ElseIf.allChunks, hc.printable hm] using ih indent
  | forLoop _ _ hi _ hc _ hu _ _ ih =>
    simpa [StmtSymbol.chunks, Stmt.chunks, hi.unhindered hm, hc.unhindered hm, hu.unhindered hm] using ih indent
  | elseIf _ _ _ hc _ ih ihb =>
    have hall := And.intro (ih indent) (ihb indent)
    simp_all [StmtSymbol.chunks, Stmt.chunks, ElseIf.allChunks, hc.printable hm]
  | ifElse _ _ _ ih ihb | tryFinally _ _ _ ih ihb | catchClause _ _ _ _ _ _ _ ih ihb =>
    have hall := And.intro (ih indent) (ihb indent)
    simp_all [StmtSymbol.chunks, Stmt.chunks, CatchClause.allChunks]
  | guarded _ _ ih | method _ _ _ _ _ _ ih =>
    simpa [StmtSymbol.chunks, Stmt.chunks, CatchClause.allChunks] using ih indent
  | block _ _ _ ih | openBlock _ _ _ ih =>
    simpa [StmtSymbol.chunks, Stmt.chunks] using Block.unhindered (ih (deeper indent))
  | classDecl _ _ _ _ _ _ ih | openClass _ _ _ _ _ _ ih =>
    simpa [StmtSymbol.chunks, Stmt.chunks] using ih (deeper indent)
  | nil => simp [StmtSymbol.chunks, Stmt.lines]
  | cons _ _ ih ihs =>
    have hall := And.intro (ih indent) (ihs indent)
    simp_all [StmtSymbol.chunks, Stmt.lines]
  | skip he => exact absurd he hm

/-! ## Reprinting -/

/-- **Reprinting.** The text of the statements `ss` is made of the tokens `L`, and tokens spelled like `L` are derived
to the same structure. -/
structure StmtSymbol.Reprints (m : Mode) (sym : StmtSymbol) (ss : List Stmt) (L : List Spelled) : Prop where
  prints : ∀ indent : Bytes, indent.all isBlank = true → Prints Any (Chunk.texts (sym.chunks indent ss)) L
  derives : ∀ ys : List Lexeme, ys.map Lexeme.spelled = L →
    ∃ us, DerivesStmt m.exact sym ys us ∧ Stmt.unlocatedAll us = Stmt.unlocatedAll ss

/-- What has the structure of a single statement is a single statement. -/
theorem unlocatedAll_eq_stmt {us : List Stmt} {s : Stmt} (h : Stmt.unlocatedAll us = Stmt.unlocatedAll [s]) :
    ∃ u, us = [u] ∧ u.unlocated = s.unlocated := by
  cases us with
  | nil => simp at h
  | cons u us =>
    cases us with
    | nil => exact ⟨u, rfl, by simpa using h⟩
    | cons v vs => simp at h

theorem isBlank_deeper {indent : Bytes} (h : indent.all isBlank = true) : (deeper indent).all isBlank = true := by
  rw [deeper, List.all_append, h]
  rfl

/-- A keyword, a condition and a body. -/
theorem prints_headed {t : Token} {a b : Bytes} {A L M : List Spelled} {c : Expr} (ha : Prints Any a A)
    (ht : t.isKeyword = true) (hc : Continues (utf8 " (" ++ c.text ++ utf8 ")") L) (hb : Prints Any b M) :
    Prints Any (a ++ utf8 t.spelling ++ utf8 " (" ++ c.text ++ utf8 ") " ++ b) (A ++ t.spelled :: (L ++ M)) := by
  have hhead := (hc _ _ (ha.keyword ht)).blank
  have htext : utf8 ") " = utf8 ")" ++ utf8 " " := rfl
  simpa [htext] using hb.before hhead

namespace StmtSymbol.Reprints

variable {sym : StmtSymbol} {s : Stmt} {ss : List Stmt} {b b' : Block} {c : Expr} {loc : Location}
  {L M : List Spelled}

/-- Tokens that are spelled so are derived to a statement of the same structure. -/
theorem single (h : Reprints m sym [s] L) (hy : ys.map Lexeme.spelled = L) :
    ∃ u, DerivesStmt m.exact sym ys [u] ∧ u.unlocated = s.unlocated := by
  obtain ⟨us, hus, heq⟩ := h.derives ys hy
  obtain ⟨u, rfl, hu⟩ := unlocatedAll_eq_stmt heq
  exact ⟨u, hus, hu⟩

/-- Tokens that are spelled so are derived to a block of the same structure. -/
theorem body (h : Reprints m .block [.block b] L) (hy : ys.map Lexeme.spelled = L) :
    ∃ u, DerivesStmt m.exact .block ys [.block u] ∧ u.unlocated = b.unlocated := by
  obtain ⟨s, hs, heq⟩ := h.single hy
  obtain ⟨u, hu⟩ := hs.eq_block
  cases hu
  exact ⟨u, hs, by simpa using heq⟩

/-- Tokens that are spelled so are derived to arms of the same structure, and the conditional may go on behind them. -/
theorem arms {as : List ElseIf} (h : Reprints m .arms [.ifElse loc c b as none] L)
    (hy : ys.map Lexeme.spelled = L) :
    ∃ v u vs, DerivesStmt m.exact .arms ys [.ifElse (extent ys) v u vs none] ∧ v.unlocated = c.unlocated ∧
      u.unlocated = b.unlocated ∧ ElseIf.unlocatedAll vs = ElseIf.unlocatedAll as := by
  obtain ⟨s, hs, heq⟩ := h.single hy
  obtain ⟨v, u, vs, hu⟩ := hs.eq_ifElse
  cases hu
  exact ⟨v, u, vs, hs, by simpa using heq⟩

/-- Tokens that are spelled so are derived to clauses of the same structure, and the `try` may go on behind them. -/
theorem clauses {cs : List CatchClause} (h : Reprints m .clauses [.tryCatch loc b cs none] L)
    (hy : ys.map Lexeme.spelled = L) :
    ∃ u vs, DerivesStmt m.exact .clauses ys [.tryCatch (extent ys) u vs none] ∧ u.unlocated = b.unlocated ∧
      CatchClause.unlocatedAll vs = CatchClause.unlocatedAll cs := by
  obtain ⟨s, hs, heq⟩ := h.single hy
  obtain ⟨u, vs, hu⟩ := hs.eq_tryCatch
  cases hu
  exact ⟨u, vs, hs, by simpa using heq⟩

/-- One symbol stands for another. -/
theorem lift {sym' : StmtSymbol} (h : Reprints m sym [s] L)
    (htext : ∀ indent, sym'.chunks indent [s] = sym.chunks indent [s])
    (hd : ∀ ys u, DerivesStmt m.exact sym ys [u] → DerivesStmt m.exact sym' ys [u]) : Reprints m sym' [s] L where
  prints indent hblank := htext indent ▸ h.prints indent hblank
  derives ys hy := by
    obtain ⟨u, hu, heq⟩ := h.single hy
    exact ⟨[u], hd ys u hu, by simp [heq]⟩

/-! ### Blocks and lists -/

theorem nil {p : Place} : Reprints m (.list p) [] [] where
  prints _ _ := by simpa [StmtSymbol.chunks, Stmt.lines] using Prints.nil
  derives ys hy := by
    obtain rfl := List.map_eq_nil_iff.1 hy
    exact ⟨_, .nil, rfl⟩

/-- A statement is printed on lines of its own, so nothing runs from one into the next. -/
theorem cons {p : Place} (hs : Reprints m (.item p) [s] L) (hss : Reprints m (.list p) ss M) :
    Reprints m (.list p) (s :: ss) (L ++ M) where
  prints indent hblank := by
    have hline := ((hs.prints indent hblank).before (.blanks hblank)).spaces (w := utf8 "\n") rfl
    simpa [StmtSymbol.chunks, Stmt.lines] using (hss.prints indent hblank).before hline
  derives zs hz := by
    obtain ⟨xs, ys, rfl, hxs, hys⟩ := List.map_eq_append_iff.1 hz
    obtain ⟨u, hu, hus⟩ := hs.single hxs
    obtain ⟨vs, hvs, hvss⟩ := hss.derives ys hys
    exact ⟨_, .cons hu hvs, by simp [hus, hvss]⟩

/-- Between braces the statements are indented further. -/
theorem block (h : Reprints m (.list .inside) ss L) :
    Reprints m .block [.block (.mk loc ss)] (Token.lBrace.spelled :: (L ++ [Token.rBrace.spelled])) where
  prints indent hblank := by
    have hlines := h.prints (deeper indent) (isBlank_deeper hblank)
    have hopen : Prints Any (utf8 "\x7b") [Token.lBrace.spelled] := Prints.nil.mark (t := .lBrace) rfl
    cases ss with
    | nil =>
      have hall := (hlines.before hopen).clear.mark (t := .rBrace) rfl
      have htext : utf8 "\x7b\x7d" = utf8 "\x7b" ++ utf8 "\x7d" := rfl
      simpa [StmtSymbol.chunks, Stmt.chunks, Block.chunks, Stmt.lines, htext, Token.spelling] using hall
    | cons s ss =>
      have hfirst := hlines.before (hopen.spaces (w := utf8 "\n") rfl)
      have hall := (hfirst.spaces hblank).clear.mark (t := .rBrace) rfl
      have htext : utf8 "\x7b\n" = utf8 "\x7b" ++ utf8 "\n" := rfl
      simpa [StmtSymbol.chunks, Stmt.chunks, Block.chunks, htext, Token.spelling] using hall
  derives zs hz := by
    obtain ⟨l, rest, rfl, hl, hrest⟩ := List.map_eq_cons_iff.1 hz
    obtain ⟨xs, r, ws, rfl, hxs, hr, hws⟩ := split_spelled hrest
    obtain rfl := List.map_eq_nil_iff.1 hws
    obtain ⟨us, hus, huss⟩ := h.derives xs hxs
    exact ⟨_, .block (Lexeme.token_of_spelled hl) hus (Lexeme.token_of_spelled hr), by simp [huss]⟩

/-! ### Simple statements -/

/-- A declaration is derived again from its type, its name and its value. -/
theorem varDecl {t : TypeName} {i : Ident} {o : Option Expr} {loc : Location} (hm : ¬ m.errors)
    (hd : Declares m xs t i o) (hf : ∀ x ∈ xs, x.Faithful) :
    ∃ L, Reprints m (.item .inside)
      [.varDecl { location := loc, modifiers := [], type := t, name := i, init := o }] L := by
  obtain ⟨L, hL, hderives⟩ := hd.reprints hm hf
  refine ⟨L ++ [Token.semi.spelled], fun _ _ => ?_, fun zs hz => ?_⟩
  · simpa [StmtSymbol.chunks, Stmt.chunks, VarDecl.text_chunk, modifiersText, Token.spelling]
      using hL.mark (t := .semi) rfl
  · obtain ⟨xs', semi, ws, rfl, hxs, hsemi, hws⟩ := split_spelled hz
    obtain rfl := List.map_eq_nil_iff.1 hws
    obtain ⟨u, j, p, hu, hut, hji, hpo⟩ := hderives xs' hxs
    exact ⟨_, .varDecl hu (Lexeme.token_of_spelled hsemi), by simp [VarDecl.unlocated, hut, hji, hpo]⟩

/-- An expression is a statement, unless it starts with a brace. -/
theorem expr {x : Lexeme} {e : Expr} {L : List Spelled} (hx : ExprSymbol.Reprints m .expr (x :: xs) [e] L)
    (hbrace : x.token ≠ .lBrace) : Reprints m (.item .inside) [.expr loc e] (L ++ [Token.semi.spelled]) where
  prints _ _ := by
    simpa [StmtSymbol.chunks, Stmt.chunks, Token.spelling] using hx.prints.mark (t := .semi) rfl
  derives zs hz := by
    obtain ⟨xs', semi, ws, rfl, hxs, hsemi, hws⟩ := split_spelled hz
    obtain rfl := List.map_eq_nil_iff.1 hws
    obtain ⟨u, hu, hux⟩ := hx.single hxs
    -- the first token is spelled like the first token was
    have hhead : xs'.head?.map Lexeme.spelled = some x.spelled := by
      rw [← List.head?_map, hxs, hx.head]
      rfl
    cases xs' with
    | nil => simp at hhead
    | cons y ys' =>
      have hy : y.token = x.token := Lexeme.token_eq (by simpa using hhead)
      exact ⟨_, .expr hu (hy ▸ hbrace) (Lexeme.token_of_spelled hsemi), by simp [hux]⟩

theorem empty : Reprints m (.item .inside) [.empty loc] [Token.semi.spelled] where
  prints _ _ := by
    simpa [StmtSymbol.chunks, Stmt.chunks, Token.spelling] using Prints.nil.mark (t := .semi) rfl
  derives zs hz := by
    obtain ⟨semi, rfl, hsemi⟩ := List.map_eq_singleton_iff.1 hz
    exact ⟨_, .empty (Lexeme.token_of_spelled hsemi), by simp⟩

/-- The value of a `return` may be left out. -/
theorem ret {o : Option Expr} (hm : ¬ m.errors) (ho : OptExpr m xs o) (hf : ∀ x ∈ xs, x.Faithful) :
    ∃ L, Reprints m (.item .inside) [.ret loc o] L := by
  obtain ⟨L, hL, hderives⟩ := ho.reprints hm hf
  refine ⟨Token.kwReturn.spelled :: (L ++ [Token.semi.spelled]), fun indent _ => ?_, fun zs hz => ?_⟩
  · have hall := (hL _ _ (Prints.nil.keyword (t := .kwReturn) rfl)).mark (t := .semi) rfl
    have htext : Chunk.texts ((Stmt.ret loc o).chunks indent)
        = utf8 "return" ++ Chunk.texts (spacedChunks o) ++ utf8 ";" := by
      cases o <;> simp [Stmt.chunks, spacedChunks, ← utf8_append, ← List.append_assoc]
    simpa [StmtSymbol.chunks, htext, Token.spelling] using hall
  · obtain ⟨kw, rest, rfl, hkw, hrest⟩ := List.map_eq_cons_iff.1 hz
    obtain ⟨xs', semi, ws, rfl, hxs, hsemi, hws⟩ := split_spelled hrest
    obtain rfl := List.map_eq_nil_iff.1 hws
    obtain ⟨u, hu, huo⟩ := hderives xs' hxs
    exact ⟨_, .ret (Lexeme.token_of_spelled hkw) hu (Lexeme.token_of_spelled hsemi), by simp [huo]⟩

/-! ### Loops -/

/-- A condition in parentheses, and a block on the same line. -/
theorem whileLoop (hm : ¬ m.errors) (hc : Condition m xs c) (hf : ∀ x ∈ xs, x.Faithful)
    (hb : Reprints m .block [.block b] M) : ∃ L, Reprints m (.item .inside) [.whileLoop loc c b] L := by
  obtain ⟨L, hL, hderives⟩ := hc.reprints hm hf
  refine ⟨Token.kwWhile.spelled :: (L ++ M), fun indent hblank => ?_, fun zs hz => ?_⟩
  · have htext : utf8 "while (" = utf8 "while" ++ utf8 " (" := rfl
    simpa [StmtSymbol.chunks, Stmt.chunks, htext, Token.spelling]
      using prints_headed (t := .kwWhile) Prints.nil rfl hL (hb.prints indent hblank)
  · obtain ⟨kw, rest, rfl, hkw, hrest⟩ := List.map_eq_cons_iff.1 hz
    obtain ⟨xs', ys', rfl, hxs, hys⟩ := List.map_eq_append_iff.1 hrest
    obtain ⟨v, hv, hvc⟩ := hderives xs' hxs
    obtain ⟨u, hu, hub⟩ := hb.body hys
    exact ⟨_, .whileLoop (Lexeme.token_of_spelled hkw) hv hu, by simp [hvc, hub]⟩

/-- The condition stands behind the block, and is followed by a semicolon. -/
theorem doWhile (hm : ¬ m.errors) (hb : Reprints m .block [.block b] M) (hc : Condition m xs c)
    (hf : ∀ x ∈ xs, x.Faithful) : ∃ L, Reprints m (.item .inside) [.doWhile loc b c] L := by
  obtain ⟨L, hL, hderives⟩ := hc.reprints hm hf
  refine ⟨Token.kwDo.spelled :: (M ++ Token.kwWhile.spelled :: (L ++ [Token.semi.spelled])),
    fun indent hblank => ?_, fun zs hz => ?_⟩
  · have hdo := (hb.prints indent hblank).before (Prints.nil.keyword (t := .kwDo) rfl).blank
    have hhead := hL _ _ (hdo.clear.blank.keyword (t := .kwWhile) rfl)
    have hdotext : utf8 "do " = utf8 "do" ++ utf8 " " := rfl
    have hwhile : utf8 " while (" = utf8 " " ++ utf8 "while" ++ utf8 " (" := rfl
    have hend : utf8 ");" = utf8 ")" ++ utf8 ";" := rfl
    simpa [StmtSymbol.chunks, Stmt.chunks, hdotext, hwhile, hend, Token.spelling] using hhead.mark (t := .semi) rfl
  · obtain ⟨kw, rest, rfl, hkw, hrest⟩ := List.map_eq_cons_iff.1 hz
    obtain ⟨ys', wh, rest, rfl, hys, hwh, hrest⟩ := split_spelled hrest
    obtain ⟨xs', semi, ws, rfl, hxs, hsemi, hws⟩ := split_spelled hrest
    obtain rfl := List.map_eq_nil_iff.1 hws
    obtain ⟨u, hu, hub⟩ := hb.body hys
    obtain ⟨v, hv, hvc⟩ := hderives xs' hxs
    refine ⟨_, .doWhile (Lexeme.token_of_spelled hkw) hu (Lexeme.token_of_spelled hwh) hv
      (Lexeme.token_of_spelled hsemi), ?_⟩
    simp [hub, hvc]

/-- Each of the three parts may be left out, but the semicolons are printed. -/
theorem forLoop {init : Option Stmt} {o u : Option Expr} {zs : List Lexeme} (hm : ¬ m.errors)
    (hi : ForInit m xs init) (hfi : ∀ x ∈ xs, x.Faithful) (ho : OptExpr m ys o) (hfo : ∀ x ∈ ys, x.Faithful)
    (hu : OptExpr m zs u) (hfu : ∀ x ∈ zs, x.Faithful) (hb : Reprints m .block [.block b] M) :
    ∃ L, Reprints m (.item .inside) [.forLoop loc init o u b] L := by
  obtain ⟨I, hI, hinit⟩ := hi.reprints hm hfi
  obtain ⟨C, hC, hcond⟩ := ho.reprints hm hfo
  obtain ⟨U, hU, hupdate⟩ := hu.reprints hm hfu
  refine ⟨Token.kwFor.spelled :: Token.lParen.spelled :: (I ++ Token.semi.spelled :: (C ++ Token.semi.spelled ::
    (U ++ Token.rParen.spelled :: M))), fun indent hblank => ?_, fun ws hw => ?_⟩
  · have hopen := (Prints.nil.keyword (t := .kwFor) rfl).blank.clear.mark (t := .lParen) rfl
    have hfirst := (hI.before hopen).mark (t := .semi) rfl
    have hsecond := (hC _ _ hfirst.clear).mark (t := .semi) rfl
    have hthird := ((hU _ _ hsecond.clear).mark (t := .rParen) rfl).clear.blank
    have hfor : utf8 "for (" = utf8 "for" ++ utf8 " " ++ utf8 "(" := rfl
    have hclose : utf8 ") " = utf8 ")" ++ utf8 " " := rfl
    simpa [StmtSymbol.chunks, Stmt.chunks, hfor, hclose, Token.spelling] using (hb.prints indent hblank).before hthird
  · obtain ⟨kw, rest, rfl, hkw, hrest⟩ := List.map_eq_cons_iff.1 hw
    obtain ⟨l, rest, rfl, hl, hrest⟩ := List.map_eq_cons_iff.1 hrest
    obtain ⟨is, s₁, rest, rfl, his, hs₁, hrest⟩ := split_spelled hrest
    obtain ⟨cs, s₂, rest, rfl, hcs, hs₂, hrest⟩ := split_spelled hrest
    obtain ⟨us, r, bs, rfl, hus, hr, hbs⟩ := split_spelled hrest
    obtain ⟨i, hi, hii⟩ := hinit is his
    obtain ⟨c, hc, hco⟩ := hcond cs hcs
    obtain ⟨v, hv, hvu⟩ := hupdate us hus
    obtain ⟨d, hd, hdb⟩ := hb.body hbs
    refine ⟨_, .forLoop (Lexeme.token_of_spelled hkw) (Lexeme.token_of_spelled hl) hi (Lexeme.token_of_spelled hs₁) hc
      (Lexeme.token_of_spelled hs₂) hv (Lexeme.token_of_spelled hr) hd, ?_⟩
    simp [hii, hco, hvu, hdb]

/-! ### Conditionals -/

/-- An `if` with its first block is the beginning of the arms. -/
theorem arm (hm : ¬ m.errors) (hc : Condition m xs c) (hf : ∀ x ∈ xs, x.Faithful)
    (hb : Reprints m .block [.block b] M) : ∃ L, Reprints m .arms [.ifElse loc c b [] none] L := by
  obtain ⟨L, hL, hderives⟩ := hc.reprints hm hf
  refine ⟨Token.kwIf.spelled :: (L ++ M), fun indent hblank => ?_, fun zs hz => ?_⟩
  · have htext : utf8 "if (" = utf8 "if" ++ utf8 " (" := rfl
    simpa [StmtSymbol.chunks, Stmt.chunks, ElseIf.allChunks, htext, Token.spelling]
      using prints_headed (t := .kwIf) Prints.nil rfl hL (hb.prints indent hblank)
  · obtain ⟨kw, rest, rfl, hkw, hrest⟩ := List.map_eq_cons_iff.1 hz
    obtain ⟨xs', ys', rfl, hxs, hys⟩ := List.map_eq_append_iff.1 hrest
    obtain ⟨v, hv, hvc⟩ := hderives xs' hxs
    obtain ⟨u, hu, hub⟩ := hb.body hys
    exact ⟨_, .arm (Lexeme.token_of_spelled hkw) hv hu, by simp [hvc, hub]⟩

/-- One more arm goes behind those that there are. -/
theorem elseIf {as : List ElseIf} {c' : Expr} {loc' aloc : Location} (hm : ¬ m.errors)
    (ha : Reprints m .arms [.ifElse loc c b as none] L) (hc : Condition m xs c') (hf : ∀ x ∈ xs, x.Faithful)
    (hb : Reprints m .block [.block b'] M) :
    ∃ N, Reprints m .arms [.ifElse loc' c b (as ++ [.mk aloc c' b']) none] N := by
  obtain ⟨C, hC, hderives⟩ := hc.reprints hm hf
  refine ⟨L ++ Token.kwElse.spelled :: Token.kwIf.spelled :: (C ++ M), fun indent hblank => ?_, fun zs hz => ?_⟩
  · have helse := ((ha.prints indent hblank).clear.blank.keyword (t := .kwElse) rfl).blank
    have hall := prints_headed (t := .kwIf) helse rfl hC (hb.prints indent hblank)
    have htext : utf8 " else if (" = utf8 " " ++ utf8 "else" ++ utf8 " " ++ utf8 "if" ++ utf8 " (" := rfl
    simpa [StmtSymbol.chunks, Stmt.chunks, ElseIf.allChunks, htext, Token.spelling] using hall
  · obtain ⟨xs', els, rest, rfl, hxs, hels, hrest⟩ := split_spelled hz
    obtain ⟨kw, rest, rfl, hkw, hrest⟩ := List.map_eq_cons_iff.1 hrest
    obtain ⟨cs, bs, rfl, hcs, hbs⟩ := List.map_eq_append_iff.1 hrest
    obtain ⟨v, u, vs, hv, hvc, hub, hvs⟩ := ha.arms hxs
    obtain ⟨w, hw, hwc⟩ := hderives cs hcs
    obtain ⟨d, hd, hdb⟩ := hb.body hbs
    refine ⟨_, .elseIf hv (Lexeme.token_of_spelled hels) (Lexeme.token_of_spelled hkw) hw hd, ?_⟩
    simp [hvc, hub, hvs, hwc, hdb]

/-- The last block ends the arms. -/
theorem ifElse {as : List ElseIf} {loc' : Location} (ha : Reprints m .arms [.ifElse loc c b as none] L)
    (hb : Reprints m .block [.block b'] M) :
    Reprints m (.item .inside) [.ifElse loc' c b as (some b')] (L ++ Token.kwElse.spelled :: M) where
  prints indent hblank := by
    have helse := ((ha.prints indent hblank).clear.blank.keyword (t := .kwElse) rfl).blank
    have htext : utf8 " else " = utf8 " " ++ utf8 "else" ++ utf8 " " := rfl
    simpa [StmtSymbol.chunks, Stmt.chunks, htext, Token.spelling] using (hb.prints indent hblank).before helse
  derives zs hz := by
    obtain ⟨xs', els, ys', rfl, hxs, hels, hys⟩ := split_spelled hz
    obtain ⟨v, u, vs, hv, hvc, hub, hvs⟩ := ha.arms hxs
    obtain ⟨d, hd, hdb⟩ := hb.body hys
    exact ⟨_, .ifElse hv (Lexeme.token_of_spelled hels) hd, by simp [hvc, hub, hvs, hdb]⟩

/-! ### Protected blocks -/

/-- A `try` with its block is the beginning of the clauses. -/
theorem guarded (hb : Reprints m .block [.block b] M) :
    Reprints m .clauses [.tryCatch loc b [] none] (Token.kwTry.spelled :: M) where
  prints indent hblank := by
    have htry := (Prints.nil.keyword (t := .kwTry) rfl).blank
    have htext : utf8 "try " = utf8 "try" ++ utf8 " " := rfl
    simpa [StmtSymbol.chunks, Stmt.chunks, CatchClause.allChunks, htext, Token.spelling]
      using (hb.prints indent hblank).before htry
  derives zs hz := by
    obtain ⟨kw, ys', rfl, hkw, hys⟩ := List.map_eq_cons_iff.1 hz
    obtain ⟨u, hu, hub⟩ := hb.body hys
    exact ⟨_, .guarded (Lexeme.token_of_spelled hkw) hu, by simp [hub]⟩

/-- One more clause goes behind those that there are. -/
theorem catchClause {cs : List CatchClause} {loc' cloc : Location} {t : TypeName} {i : Lexeme}
    (hc : Reprints m .clauses [.tryCatch loc b cs none] L) (ht : TypeRef xs t) (hf : ∀ x ∈ xs, x.Faithful)
    (hi : i.token = .ident) (hfi : i.Faithful) (hb : Reprints m .block [.block b'] M) :
    Reprints m .clauses [.tryCatch loc' b (cs ++ [.mk cloc t i.ident b']) none]
      (L ++ Token.kwCatch.spelled :: Token.lParen.spelled ::
        (xs.map Lexeme.spelled ++ i.spelled :: Token.rParen.spelled :: M)) where
  prints indent hblank := by
    have hcatch := (hc.prints indent hblank).clear.blank.keyword (t := .kwCatch) rfl
    have htype := ((ht.prints hf).before (hcatch.blank.clear.mark (t := .lParen) rfl)).blank
    have hhead := ((htype.ident hfi hi).mark (t := .rParen) rfl).clear.blank
    have hopen : utf8 " catch (" = utf8 " " ++ utf8 "catch" ++ utf8 " " ++ utf8 "(" := rfl
    have hclose : utf8 ") " = utf8 ")" ++ utf8 " " := rfl
    simpa [StmtSymbol.chunks, Stmt.chunks, CatchClause.allChunks, hopen, hclose, Token.spelling, Lexeme.ident]
      using (hb.prints indent hblank).before hhead
  derives zs hz := by
    obtain ⟨xs', kw, rest, rfl, hxs, hkw, hrest⟩ := split_spelled hz
    obtain ⟨l, rest, rfl, hl, hrest⟩ := List.map_eq_cons_iff.1 hrest
    obtain ⟨ts, j, rest, rfl, hts, hj, hrest⟩ := split_spelled hrest
    obtain ⟨r, bs, rfl, hr, hbs⟩ := List.map_eq_cons_iff.1 hrest
    obtain ⟨u, vs, hu, hub, hvs⟩ := hc.clauses hxs
    obtain ⟨q, hq, hqt⟩ := ht.respell hts
    obtain ⟨d, hd, hdb⟩ := hb.body hbs
    refine ⟨_, .catchClause hu (Lexeme.token_of_spelled hkw) (Lexeme.token_of_spelled hl) hq
      ((Lexeme.token_eq hj).trans hi) (Lexeme.token_of_spelled hr) hd, ?_⟩
    simp [hub, hvs, hqt, hdb, Lexeme.ident_unlocated hj]

theorem tryStmt {cs : List CatchClause} (hc : Reprints m .clauses [.tryCatch loc b cs none] L)
    (hhandled : m.lax ∨ cs ≠ []) : Reprints m (.item .inside) [.tryCatch loc b cs none] L where
  prints indent hblank := hc.prints indent hblank
  derives zs hz := by
    obtain ⟨u, vs, hu, hub, hvs⟩ := hc.clauses hz
    have hsome : m.exact.lax ∨ vs ≠ [] := by
      refine hhandled.imp_right fun hne hnil => hne ?_
      rw [hnil] at hvs
      cases cs with
      | nil => rfl
      | cons c cs => cases c; simp at hvs
    have hall : DerivesStmt m.exact (.item .inside) (zs ++ []) [.tryCatch (extent zs) u vs none] :=
      .tryStmt hu hsome (.inl rfl)
    rw [List.append_nil] at hall
    exact ⟨_, hall, by simp [hub, hvs]⟩

/-- A last block is a handler, so clauses are not needed. -/
theorem tryFinally {cs : List CatchClause} {loc' : Location} (hc : Reprints m .clauses [.tryCatch loc b cs none] L)
    (hb : Reprints m .block [.block b'] M) :
    Reprints m (.item .inside) [.tryCatch loc' b cs (some b')] (L ++ Token.kwFinally.spelled :: M) where
  prints indent hblank := by
    have hfinally := ((hc.prints indent hblank).clear.blank.keyword (t := .kwFinally) rfl).blank
    have htext : utf8 " finally " = utf8 " " ++ utf8 "finally" ++ utf8 " " := rfl
    simpa [StmtSymbol.chunks, Stmt.chunks, htext, Token.spelling] using (hb.prints indent hblank).before hfinally
  derives zs hz := by
    obtain ⟨xs', kw, ys', rfl, hxs, hkw, hys⟩ := split_spelled hz
    obtain ⟨u, vs, hu, hub, hvs⟩ := hc.clauses hxs
    obtain ⟨d, hd, hdb⟩ := hb.body hys
    exact ⟨_, .tryFinally hu (Lexeme.token_of_spelled hkw) hd, by simp [hub, hvs, hdb]⟩

/-! ### Declarations -/

/-- A member has its modifiers before it, each with a blank. -/
theorem field {mods : List Lexeme} {t : TypeName} {i : Ident} {o : Option Expr} (hm : ¬ m.errors)
    (hmods : ∀ k ∈ mods, k.token.isModifier = true) (hfm : ∀ k ∈ mods, k.Faithful) (hd : Declares m xs t i o)
    (hf : ∀ x ∈ xs, x.Faithful) :
    ∃ L, Reprints m (.item .member)
      [.varDecl { location := loc, modifiers := mods.map (·.token), type := t, name := i, init := o }] L := by
  obtain ⟨L, hL, hderives⟩ := hd.reprints hm hf
  refine ⟨mods.map Lexeme.spelled ++ (L ++ [Token.semi.spelled]), fun _ _ => ?_, fun zs hz => ?_⟩
  · have hall := (hL.before (Prints.nil.modifiers hfm hmods)).mark (t := .semi) rfl
    simpa [StmtSymbol.chunks, Stmt.chunks, VarDecl.text_chunk, Token.spelling] using hall
  · obtain ⟨ks, rest, rfl, hks, hrest⟩ := List.map_eq_append_iff.1 hz
    obtain ⟨xs', semi, ws, rfl, hxs, hsemi, hws⟩ := split_spelled hrest
    obtain rfl := List.map_eq_nil_iff.1 hws
    obtain ⟨hkinds, htokens⟩ := respell_modifiers hmods hks
    obtain ⟨u, j, p, hu, hut, hji, hpo⟩ := hderives xs' hxs
    refine ⟨_, .field hkinds hu (Lexeme.token_of_spelled hsemi), ?_⟩
    simp [VarDecl.unlocated, htokens, hut, hji, hpo]

/-- Outside of other statements, a method is printed with its modifiers and parameters. -/
theorem method {p : Place} {mods : List Lexeme} {t : TypeName} {i : Lexeme} {ps : List Param} (hp : p ≠ .inside)
    (hmods : ∀ k ∈ mods, k.token.isModifier = true) (hfm : ∀ k ∈ mods, k.Faithful) (ht : TypeRef xs t)
    (hft : ∀ x ∈ xs, x.Faithful) (hi : i.token = .ident) (hfi : i.Faithful) (hps : Params ys ps)
    (hfp : ∀ y ∈ ys, y.Faithful) (hb : Reprints m .block [.block b] M) :
    Reprints m (.item p) [.methodDecl loc (mods.map (·.token)) t i.ident ps b]
      (mods.map Lexeme.spelled ++ (xs.map Lexeme.spelled ++ i.spelled :: (ys.map Lexeme.spelled ++ M))) where
  prints indent hblank := by
    have htype := ((ht.prints hft).before (Prints.nil.modifiers hfm hmods)).blank
    have hhead := (hps.prints hfp (htype.ident hfi hi)).clear.blank
    have hclose : utf8 ") " = utf8 ")" ++ utf8 " " := rfl
    simpa [StmtSymbol.chunks, Stmt.chunks, methodHead, hclose, Lexeme.ident]
      using (hb.prints indent hblank).before hhead
  derives zs hz := by
    obtain ⟨ks, rest, rfl, hks, hrest⟩ := List.map_eq_append_iff.1 hz
    obtain ⟨ts, j, rest, rfl, hts, hj, hrest⟩ := split_spelled hrest
    obtain ⟨qs, bs, rfl, hqs, hbs⟩ := List.map_eq_append_iff.1 hrest
    obtain ⟨hkinds, htokens⟩ := respell_modifiers hmods hks
    obtain ⟨u, hu, hut⟩ := ht.respell hts
    obtain ⟨vs, hvs, hvps⟩ := hps.respell hqs
    obtain ⟨d, hd, hdb⟩ := hb.body hbs
    refine ⟨_, .method hp hkinds hu ((Lexeme.token_eq hj).trans hi) hvs hd, ?_⟩
    simp [htokens, hut, Lexeme.ident_unlocated hj, hvps, hdb]

/-- The members of a class stand between its braces. -/
theorem classDecl {mods : List Lexeme} {i : Lexeme} (hmods : ∀ k ∈ mods, k.token.isModifier = true)
    (hfm : ∀ k ∈ mods, k.Faithful) (hi : i.token = .ident) (hfi : i.Faithful)
    (hss : Reprints m (.list .member) ss L) :
    Reprints m (.item .top) [.classDecl loc (mods.map (·.token)) i.ident ss]
      (mods.map Lexeme.spelled ++ Token.kwClass.spelled :: i.spelled :: Token.lBrace.spelled ::
        (L ++ [Token.rBrace.spelled])) where
  prints indent hblank := by
    have hclass := ((Prints.nil.modifiers hfm hmods).keyword (t := .kwClass) rfl).blank
    have hopen := (hclass.ident hfi hi).blank.clear.mark (t := .lBrace) rfl
    have hlines := (hss.prints (deeper indent) (isBlank_deeper hblank)).before
      (hopen.spaces (w := utf8 "\n") rfl)
    have hclassText : utf8 "class " = utf8 "class" ++ utf8 " " := rfl
    have hopenText : utf8 " \x7b\n" = utf8 " " ++ utf8 "\x7b" ++ utf8 "\n" := rfl
    simpa [StmtSymbol.chunks, Stmt.chunks, hclassText, hopenText, Token.spelling, Lexeme.ident]
      using (hlines.spaces hblank).clear.mark (t := .rBrace) rfl
  derives zs hz := by
    obtain ⟨ks, kw, rest, rfl, hks, hkw, hrest⟩ := split_spelled hz
    obtain ⟨j, rest, rfl, hj, hrest⟩ := List.map_eq_cons_iff.1 hrest
    obtain ⟨l, rest, rfl, hl, hrest⟩ := List.map_eq_cons_iff.1 hrest
    obtain ⟨xs', r, ws, rfl, hxs, hr, hws⟩ := split_spelled hrest
    obtain rfl := List.map_eq_nil_iff.1 hws
    obtain ⟨hkinds, htokens⟩ := respell_modifiers hmods hks
    obtain ⟨us, hus, huss⟩ := hss.derives xs' hxs
    refine ⟨_, .classDecl hkinds (Lexeme.token_of_spelled hkw) ((Lexeme.token_eq hj).trans hi)
      (Lexeme.token_of_spelled hl) hus (Lexeme.token_of_spelled hr), ?_⟩
    simp [htokens, Lexeme.ident_unlocated hj, huss]

end StmtSymbol.Reprints

/-- **Derived statements are reprinted.** -/
theorem DerivesStmt.reprints {sym : StmtSymbol} {ss : List Stmt} (hm : ¬ m.errors) (h : DerivesStmt m sym xs ss)
    (hf : ∀ x ∈ xs, x.Faithful) : ∃ L, sym.Reprints m ss L := by
  induction h with
  | braced _ ih =>
    obtain ⟨L, hL⟩ := ih hf
    exact ⟨L, hL.lift (fun _ => rfl) fun _ _ => .braced⟩
  | ifStmt _ ih =>
    obtain ⟨L, hL⟩ := ih hf
    exact ⟨L, hL.lift (fun _ => rfl) fun _ _ => .ifStmt⟩
  | stmt _ ih =>
    obtain ⟨L, hL⟩ := ih hf
    exact ⟨L, hL.lift (fun _ => rfl) fun _ _ => .stmt⟩
  | varDecl hd _ => exact StmtSymbol.Reprints.varDecl hm hd fun x hx => hf x (by simp [hx])
  | expr hx hbrace _ =>
    obtain ⟨L, hL⟩ := hx.reprints hm fun x hx => hf x (List.mem_append_left _ hx)
    exact ⟨_, .expr hL hbrace⟩
  | empty _ => exact ⟨_, .empty⟩
  | ret _ ho _ => exact StmtSymbol.Reprints.ret hm ho fun x hx => hf x (by simp [hx])
  | whileLoop _ hc _ ih =>
    obtain ⟨M, hM⟩ := ih fun x hx => hf x (by simp [hx])
    exact StmtSymbol.Reprints.whileLoop hm hc (fun x hx => hf x (by simp [hx])) hM
  | doWhile _ _ _ hc _ ih =>
    obtain ⟨M, hM⟩ := ih fun x hx => hf x (by simp [hx])
    exact StmtSymbol.Reprints.doWhile hm hM hc fun x hx => hf x (by simp [hx])
  | forLoop _ _ hi _ hc _ hu _ _ ih =>
    obtain ⟨M, hM⟩ := ih fun x hx => hf x (by simp [hx])
    exact StmtSymbol.Reprints.forLoop hm hi (fun x hx => hf x (by simp [hx])) hc (fun x hx => hf x (by simp [hx])) hu
      (fun x hx => hf x (by simp [hx])) hM
  | arm _ hc _ ih =>
    obtain ⟨M, hM⟩ := ih fun x hx => hf x (by simp [hx])
    exact StmtSymbol.Reprints.arm hm hc (fun x hx => hf x (by simp [hx])) hM
  | elseIf _ _ _ hc _ ih ihb =>
    obtain ⟨L, hL⟩ := ih fun x hx => hf x (by simp [hx])
    obtain ⟨M, hM⟩ := ihb fun x hx => hf x (by simp [hx])
    exact StmtSymbol.Reprints.elseIf hm hL hc (fun x hx => hf x (by simp [hx])) hM
  | ifElse _ _ _ ih ihb =>
    obtain ⟨L, hL⟩ := ih fun x hx => hf x (by simp [hx])
    obtain ⟨M, hM⟩ := ihb fun x hx => hf x (by simp [hx])
    exact ⟨_, hL.ifElse hM⟩
  | guarded _ _ ih =>
    obtain ⟨M, hM⟩ := ih fun x hx => hf x (by simp [hx])
    exact ⟨_, .guarded hM⟩
  | catchClause _ _ _ ht hi _ _ ih ihb =>
    obtain ⟨L, hL⟩ := ih fun x hx => hf x (by simp [hx])
    obtain ⟨M, hM⟩ := ihb fun x hx => hf x (by simp [hx])
    exact ⟨_, hL.catchClause ht (fun x hx => hf x (by simp [hx])) hi (hf _ (by simp)) hM⟩
  | tryStmt _ hhandled _ ih =>
    obtain ⟨L, hL⟩ := ih fun x hx => hf x (by simp [hx])
    exact ⟨L, hL.tryStmt hhandled⟩
  | tryFinally _ _ _ ih ihb =>
    obtain ⟨L, hL⟩ := ih fun x hx => hf x (by simp [hx])
    obtain ⟨M, hM⟩ := ihb fun x hx => hf x (by simp [hx])
    exact ⟨_, hL.tryFinally hM⟩
  | block _ _ _ ih | openBlock _ _ _ ih =>
    obtain ⟨L, hL⟩ := ih fun x hx => hf x (by simp [hx])
    exact ⟨_, hL.block⟩
  | field hmods hd _ =>
    exact StmtSymbol.Reprints.field hm hmods (fun x hx => hf x (by simp [hx])) hd fun x hx => hf x (by simp [hx])
  | method hp hmods ht hi hps _ ih =>
    obtain ⟨M, hM⟩ := ih fun x hx => hf x (by simp [hx])
    exact ⟨_, .method hp hmods (fun x hx => hf x (by simp [hx])) ht (fun x hx => hf x (by simp [hx])) hi
      (hf _ (by simp)) hps (fun x hx => hf x (by simp [hx])) hM⟩
  | classDecl hmods _ hi _ _ _ ih | openClass _ hmods _ hi _ _ ih =>
    obtain ⟨L, hL⟩ := ih fun x hx => hf x (by simp [hx])
    exact ⟨_, hL.classDecl hmods (fun x hx => hf x (by simp [hx])) hi (hf _ (by simp))⟩
  | nil => exact ⟨_, .nil⟩
  | cons _ _ ih ihs =>
    obtain ⟨L, hL⟩ := ih fun x hx => hf x (by simp [hx])
    obtain ⟨M, hM⟩ := ihs fun x hx => hf x (by simp [hx])
    exact ⟨_, hL.cons hM⟩
  | skip he => exact absurd he hm

end Grammar

end SmallJava
