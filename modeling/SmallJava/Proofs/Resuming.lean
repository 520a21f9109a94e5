import SmallJava.Proofs.Diagnostics
import SmallJava.Proofs.Grammar.Spoiled
import SmallJava.Proofs.Isolation
import SmallJava.Proofs.Lexical.Unterminated

/-!
# Going on after a string that is left open

A string that is left open at the end of a line is one malformed token, and the scanner reports it. The parser takes it
for an operand, misses the semicolon behind it, and says nothing about that since the next token is on a later line. It
gives up what it has read of the statement and goes on with the next line as if the text started there.

For that, the malformed token must not have an effect on the next line, although it is the last one taken. It has none
if a statement starts there: its first token is taken before anything asks for the token in front of it.

* `Parser.IgnoresLast`, `Parser.ignoresLast_loop` — reading without looking back;
* `Parser.Resumes`, `Parser.resumes_topStmt` — a statement that is left unfinished, and bails out without a report;
* `Parser.repeats_topStep_resumed`, `parse_unfinished` — the step that makes a bad statement of it, and the whole parse;
* `parse_resumed` — what the parse gives for the open string and everything below it.
-/

namespace SmallJava

open Grammar

/-- Whether the token opens a statement or a declaration: a name, an opening brace, a keyword or a modifier. -/
def Token.opensStmt : Token → Bool
  | .ident | .lBrace | .kwIf | .kwWhile | .kwDo | .kwFor | .kwTry | .kwReturn | .kwClass | .kwPublic | .kwPrivate
  | .kwProtected | .kwStatic => true
  | _ => false

/-- Such a token ends an expression, but it is no semicolon. -/
theorem Token.endsExpr_of_opensStmt {t : Token} (h : t.opensStmt = true) : t.endsExpr = true ∧ t ≠ .semi := by
  revert h
  cases t <;> decide

namespace Parser

/-! ## The token taken last -/

/-- **The parser does not look back**: what it does in `s` does not depend on the token that was taken last. -/
def IgnoresLast {α : Type} (setup : Setup) (s : State) (p : Parser α) : Prop :=
  ∀ last, p setup { s with last := last } = p setup s

section Rules

variable {α β : Type} {setup : Setup} {s : State} {p : Parser α} {f : α → Parser β} {t : Token}

/-- What comes behind a parser that has forgotten the token does not know of it either. -/
theorem IgnoresLast.bind (h : IgnoresLast setup s p) : IgnoresLast setup s (p >>= f) := by
  intro last
  show EStateM.bind (p setup) (fun a => f a setup) { s with last := last }
    = EStateM.bind (p setup) (fun a => f a setup) s
  unfold EStateM.bind
  rw [h last]

theorem IgnoresLast.tryCatch {handle : Bailout → Parser α} (h : IgnoresLast setup s p) :
    IgnoresLast setup s (tryCatch p handle) := by
  intro last
  show EStateM.tryCatch (p setup) (fun b => handle b setup) { s with last := last }
    = EStateM.tryCatch (p setup) (fun b => handle b setup) s
  unfold EStateM.tryCatch
  rw [h last]

theorem IgnoresLast.loop {a : α} {step : α → Parser (ForInStep α)} (h : IgnoresLast setup s (step a)) :
    IgnoresLast setup s (Parser.loop a step) := by
  intro last
  show loopWithin step s.rest a setup { s with last := last } = loopWithin step s.rest a setup s
  unfold loopWithin
  exact h.bind last

/-! Looking at the tokens that are left is not looking back. -/

theorem ignoresLast_current_bind {f : Lexeme → Parser β} :
    IgnoresLast setup s (current >>= f) ↔ IgnoresLast setup s (f (s.current setup)) := Iff.rfl

theorem ignoresLast_token_bind {f : Token → Parser β} :
    IgnoresLast setup s (token >>= f) ↔ IgnoresLast setup s (f (s.current setup).token) := Iff.rfl

theorem ignoresLast_atVarDecl_bind {f : Bool → Parser β} :
    IgnoresLast setup s (atVarDecl >>= f) ↔ IgnoresLast setup s (f (startsVarDecl s.rest)) := Iff.rfl

theorem ignoresLast_atMethodDecl_bind {f : Bool → Parser β} :
    IgnoresLast setup s (atMethodDecl >>= f) ↔ IgnoresLast setup s (f (startsMethodDecl s.rest)) := Iff.rfl

theorem ignoresLast_next : IgnoresLast setup s next := fun _ => rfl

theorem ignoresLast_want (h : (s.current setup).token = t) : IgnoresLast setup s (want t) := by
  unfold want
  rw [ignoresLast_current_bind, if_pos h]
  exact ignoresLast_next

end Rules

variable {setup : Setup} {s : State}

/-! What starts with the current token takes it before anything else. -/

/-- A name at the start of an expression. -/
theorem ignoresLast_unary (h : (s.current setup).token = .ident) (d : Nat) : IgnoresLast setup s (unary d) := by
  have hprimary : ∀ (inner : Option Inner) (expr : Parser Expr), IgnoresLast setup s (primary inner expr) := by
    intro inner expr
    unfold primary
    rw [ignoresLast_current_bind, h]
    exact (ignoresLast_want h).bind.bind
  have hwith : ∀ inner : Option Inner, IgnoresLast setup s (unaryWith inner) := by
    intro inner
    unfold unaryWith
    rw [ignoresLast_token_bind, h]
    exact (hprimary inner _).bind
  cases d <;> exact hwith _

theorem ignoresLast_expr (h : (s.current setup).token = .ident) (d : Nat) : IgnoresLast setup s (expr (d + 1)) := by
  have hlevels : ∀ levels, IgnoresLast setup s (binaryLevels (unary d) levels) := by
    intro levels
    induction levels with
    | zero => exact ignoresLast_unary h d
    | succ levels ih => exact ih.bind
  exact (hlevels 6).bind

/-- A name at the start of a declaration. -/
theorem ignoresLast_typeName (h : (s.current setup).token = .ident) : IgnoresLast setup s typeName :=
  (ignoresLast_want h).bind.bind

theorem ignoresLast_simpleStmt (h : (s.current setup).token = .ident) (d : Nat) :
    IgnoresLast setup s (simpleStmt (level (d + 1))) := by
  unfold simpleStmt
  rw [ignoresLast_atVarDecl_bind]
  split
  · rw [ignoresLast_current_bind]
    exact (ignoresLast_typeName h).bind.bind
  · exact (ignoresLast_expr h d).bind

theorem ignoresLast_block (h : (s.current setup).token = .lBrace) (d : Nat) :
    IgnoresLast setup s (block (level (d + 1))) :=
  (ignoresLast_want h).bind

/-- A statement takes its name, its brace or its keyword. -/
theorem ignoresLast_stmt (h : (s.current setup).token.opensStmt = true)
    (hmodifier : (s.current setup).token.isModifier = false) (hclass : (s.current setup).token ≠ .kwClass) (d : Nat) :
    IgnoresLast setup s (stmt (d + 1)) := by
  rw [stmt_eq_stmtAt]
  unfold stmtAt
  rw [ignoresLast_token_bind]
  cases ht : (s.current setup).token
  case ident => exact ignoresLast_simpleStmt ht d
  case lBrace => exact (ignoresLast_block ht d).bind
  case kwIf | kwWhile | kwDo | kwFor | kwTry | kwReturn => exact (ignoresLast_want ht).bind
  case kwClass => exact absurd ht hclass
  case kwPublic | kwPrivate | kwProtected | kwStatic => simp [ht, Token.isModifier] at hmodifier
  all_goals simp [ht, Token.opensStmt] at h

variable {x : Lexeme} {r : List Lexeme}

/-- Modifiers are taken, if there are any. -/
theorem ignoresLast_modifiers (hrest : s.rest = x :: r) (hx : x.token.isModifier = true) :
    IgnoresLast setup s modifiers := by
  intro last
  let mods := (s.rest.takeWhile (·.token.isModifier)).map (·.token)
  have hskip : State.skip { s with last := last } mods.length = s.skip mods.length := by
    simp [mods, State.skip, hrest, hx, List.getLast?_cons]
  show EStateM.Result.ok mods (State.skip { s with last := last } mods.length) = .ok mods (s.skip mods.length)
  rw [hskip]

/-- If there are none, it depends on what follows. -/
theorem ignoresLast_modifiers_bind {α : Type} {f : List Token → Parser α} (hrest : s.rest = x :: r)
    (hx : x.token.isModifier = false) (hf : IgnoresLast setup s (f [])) : IgnoresLast setup s (modifiers >>= f) := by
  have hnone : ∀ last, modifiers setup { s with last := last } = .ok [] { s with last := last } := by
    intro last
    let mods := (s.rest.takeWhile (·.token.isModifier)).map (·.token)
    have hmods : mods = [] := by simp [mods, hrest, hx]
    show EStateM.Result.ok mods (State.skip { s with last := last } mods.length) = _
    rw [hmods]
    rfl
  intro last
  rw [bind_ok f (hnone last), bind_ok f (hnone s.last)]
  exact hf last

/-- **A statement or declaration is read without looking back**, if a token stands there that opens one. -/
theorem ignoresLast_topStmt (hrest : s.rest = x :: r) (hx : x.token.opensStmt = true) (d : Nat) :
    IgnoresLast setup s (topStmt (d + 1)) := by
  have hcurrent : s.current setup = x := by simp [State.current, hrest]
  unfold topStmt
  rw [ignoresLast_current_bind, ignoresLast_atMethodDecl_bind, hcurrent]
  by_cases hmodifier : x.token.isModifier = true
  · rw [if_pos (by simp [hmodifier])]
    exact (ignoresLast_modifiers hrest hmodifier).bind
  rw [Bool.not_eq_true] at hmodifier
  by_cases hclass : x.token = .kwClass
  · rw [if_pos (by simp [hclass])]
    refine ignoresLast_modifiers_bind hrest hmodifier ?_
    rw [ignoresLast_token_bind, if_pos (by rw [hcurrent, hclass])]
    exact (ignoresLast_want (by rw [hcurrent, hclass])).bind
  by_cases hmethod : startsMethodDecl s.rest = true
  · rw [if_pos (by simp [hmethod])]
    have hident : x.token = .ident := by
      by_contra hne
      have hvar : startsVarDecl s.rest = false := startsVarDecl_of_ne_ident (by rwa [hrest])
      simp [startsMethodDecl_of_startsVarDecl hvar] at hmethod
    refine ignoresLast_modifiers_bind hrest hmodifier ?_
    rw [ignoresLast_token_bind, if_neg (by rwa [hcurrent]), ignoresLast_atMethodDecl_bind, if_pos hmethod]
    exact (ignoresLast_typeName (by rw [hcurrent, hident])).bind
  · rw [if_neg (by simp [hmodifier, hclass, hmethod])]
    exact ignoresLast_stmt (by rwa [hcurrent]) (by rwa [hcurrent]) (by rwa [hcurrent]) d

/-- **The rest of the text is read without looking back** at what is in front of it. -/
theorem ignoresLast_loop (setup : Setup) (hrest : s.rest = x :: r) (hx : x.token.opensStmt = true) (d : Nat)
    (before : List Stmt) : IgnoresLast setup s (Parser.loop before (topStep (d + 1))) := by
  apply IgnoresLast.loop
  have hne : (s.current setup).token ≠ .eof := by
    intro heof
    simp [State.current, hrest] at heof
    simp [heof, Token.opensStmt] at hx
  unfold topStep
  rw [ignoresLast_token_bind, if_neg hne]
  apply IgnoresLast.bind
  unfold recoverStmt
  rw [ignoresLast_current_bind]
  exact (ignoresLast_topStmt hrest hx d).tryCatch

/-! ## After a malformed token -/

/-- **Resuming.** Started in `s`, the parser passes the tokens `xs` and bails out, to go on right there. -/
def Resumes {α : Type} (setup : Setup) (m : Mode) (p : Parser α) (s : State) (xs : List Lexeme) : Prop :=
  ∃ s', p setup s = .error .resume s' ∧ s.Passes m xs s'

section Resume

variable {α β : Type} {m : Mode} {all xs ys rest : List Lexeme} {p : Parser α} {f : α → Parser β} {a : α}

theorem Resumes.bind (hp : Accepts setup m p s xs a) (hs : s.Ready all (xs ++ rest))
    (hf : ∀ s', s.Passes m xs s' → s'.Ready all rest → Resumes setup m (f a) s' ys) :
    Resumes setup m (p >>= f) s (xs ++ ys) := by
  obtain ⟨s', hrun, hpass⟩ := hp
  obtain ⟨s'', hrun', hpass'⟩ := hf s' hpass (hs.passes hpass)
  exact ⟨s'', (bind_ok f hrun).trans hrun', hpass.trans hpass'⟩

/-- A parser, and then something that resumes at once. -/
theorem Resumes.last (hp : Accepts setup m p s xs a) (hs : s.Ready all (xs ++ rest))
    (hf : ∀ s', s.Passes m xs s' → s'.Ready all rest → Resumes setup m (f a) s' []) :
    Resumes setup m (p >>= f) s xs := by
  simpa using Resumes.bind hp hs hf

theorem resumes_current_bind {f : Lexeme → Parser β} :
    Resumes setup m (current >>= f) s xs ↔ Resumes setup m (f (s.current setup)) s xs := Iff.rfl

theorem resumes_token_bind {f : Token → Parser β} :
    Resumes setup m (token >>= f) s xs ↔ Resumes setup m (f (s.current setup).token) s xs := Iff.rfl

theorem resumes_atVarDecl_bind {f : Bool → Parser β} :
    Resumes setup m (atVarDecl >>= f) s xs ↔ Resumes setup m (f (startsVarDecl s.rest)) s xs := Iff.rfl

/-- **A token that is missed at the end of a line is not reported**, if the line ends in a malformed token. -/
theorem resumes_want_bind {f : Lexeme → Parser β} {t : Token} {y bad : Lexeme} (hs : s.Ready all (y :: rest))
    (hy : y.token ≠ t) (hlast : s.last = some bad) (hbad : bad.token = .invalid)
    (hline : bad.location.last.line < y.location.first.line) : Resumes setup m (want t >>= f) s [] := by
  have hmalformed : s.afterMalformed y = true := by simp [State.afterMalformed, hlast, hbad, hline]
  have hwant : want t setup s = .error .resume (s.note (.resumed y.location.first)) := by
    show (if (s.current setup).token = t then next else fail _ : Parser Lexeme) setup s = _
    rw [hs.current, if_neg hy]
    show (if s.afterMalformed (s.current setup) then _ else _ : Parser Lexeme) setup s = _
    rw [hs.current, if_pos hmalformed]
    rfl
  exact ⟨_, bind_error f hwant, rfl, rfl, hs.running, [], (List.append_nil _).symm, by simp, .inr rfl⟩

/-- **A statement that resumes** is the text passed. -/
theorem Resumes.recoverStmt {p : Parser Stmt} (h : Resumes setup m p s (x :: xs))
    (hw : setup.Suits (x :: xs ++ rest)) (hs : s.Ready (x :: xs ++ rest) (x :: xs ++ rest)) :
    Accepts setup m (recoverStmt p) s (x :: xs) (.bad (extent (x :: xs))) := by
  obtain ⟨s', hrun, hpass⟩ := h
  have hrest : s'.rest = rest := (hs.passes hpass).rest
  -- what comes next stands behind the first token, so it is not given up
  have habandon : s'.abandon setup x false = s' := by
    unfold State.abandon
    simp only [Bool.false_eq_true, if_false]
    rw [if_neg]
    rintro ⟨hsame, -⟩
    have hlt := hw.start_lt
    simp only [State.current, hrest] at hsame
    omega
  refine ⟨s', ?_, hpass⟩
  rw [recoverStmt_error hrun (by simp), hs.current]
  show EStateM.Result.ok (Stmt.bad ((s'.abandon setup x false).spanFrom x.location)) (s'.abandon setup x false) = _
  rw [habandon, spanFrom_eq_of_passes hw hs.place hpass]

end Resume

section Unfinished

variable {m : Mode} {all xs zs rest : List Lexeme} {bad y : Lexeme} {d : Nat}

/-- Behind the tokens `zs` a semicolon is missed without a report. -/
def MissesSemi (setup : Setup) (m : Mode) (all : List Lexeme) (s : State) (zs rest : List Lexeme) : Prop :=
  ∀ (f : Lexeme → Parser Stmt) (s' : State), s.Passes m zs s' → s'.Ready all rest →
    Resumes setup m (want .semi >>= f) s' []

theorem missesSemi_of_malformed (hbad : bad.token = .invalid) (hsemi : y.token ≠ .semi)
    (hline : bad.location.last.line < y.location.first.line) :
    MissesSemi setup m all s (xs ++ [bad]) (y :: rest) := by
  intro f s' hpass hs'
  have hlast : s'.last = some bad := by simpa using hpass.last
  exact resumes_want_bind hs' hsemi hlast hbad hline

/-! The three kinds of statements that end in an expression and a semicolon. -/

theorem resumes_decl {ts ys : List Lexeme} {t : TypeName} {i a : Lexeme} {x : Expr} (hw : setup.Suits all)
    (hb : setup.Bears m) (ht : TypeRef ts t) (hi : i.token = .ident) (ha : a.token = .assign)
    (hx : DerivesExpr m .expr ys [x]) (hd : x.nesting + 1 ≤ d) (hs : s.Ready all (ts ++ i :: a :: ys ++ y :: rest))
    (hends : y.token.endsExpr = true) (hmissed : MissesSemi setup m all s (ts ++ i :: a :: ys) (y :: rest)) :
    Resumes setup m (topStmt d) s (ts ++ i :: a :: ys) := by
  have hvar : startsVarDecl (ts ++ i :: a :: ys ++ y :: rest) = true := by
    simpa using startsVarDecl_of_typeRef ht hi
  have hmethod : startsMethodDecl (ts ++ i :: a :: ys ++ y :: rest) = false := by
    simp [startsMethodDecl_of_typeRef ht hi, ha]
  have hhead : headToken (ts ++ i :: a :: ys ++ y :: rest) = .ident := by
    rw [List.append_assoc, headToken_append ht.ne_nil, ht.starts]
  have hsimple : topStmt d setup s = simpleStmt (level d) setup s := by
    rw [topStmt_eq_stmt hw hs (by rw [hhead]; rfl) hmethod]
    exact stmt_eq_simpleStmt hw hs (by rw [hhead]; rfl) (by rw [hhead]; decide)
  unfold Resumes
  rw [hsimple]
  show Resumes setup m (simpleStmt (level d)) s _
  unfold simpleStmt
  rw [resumes_atVarDecl_bind, hs.rest, if_pos hvar, resumes_current_bind]
  have hdecl := accepts_varDecl hw hb hs.place (.refl hs.running) (.init ht hi ha hx) hd hs hends []
  exact .last hdecl hs (hmissed _)

theorem resumes_expr {x : Lexeme} {e : Expr} (hw : setup.Suits all) (hb : setup.Bears m)
    (he : DerivesExpr m .expr (x :: zs) [e]) (hbrace : x.token ≠ .lBrace) (hd : e.nesting + 1 ≤ d)
    (hlast : xs ++ [bad] = x :: zs) (hbad : bad.token = .invalid) (hs : s.Ready all (x :: zs ++ y :: rest))
    (hends : y.token.endsExpr = true) (hmissed : MissesSemi setup m all s (x :: zs) (y :: rest)) :
    Resumes setup m (topStmt d) s (x :: zs) := by
  -- names stand apart up to the malformed token, and that one is no part of a declaration
  have hvar : startsVarDecl (x :: zs ++ y :: rest) = false := by
    have happart := he.apart
    rw [← hlast] at happart ⊢
    rw [List.append_assoc]
    exact startsVarDecl_of_apart happart.left_of_append (by rw [hbad]; rfl)
  have hsimple : topStmt d setup s = simpleStmt (level d) setup s := by
    rw [topStmt_eq_stmt hw hs (Token.startsStmt_of_startsExpr he.starts) (startsMethodDecl_of_startsVarDecl hvar)]
    exact stmt_eq_simpleStmt hw hs he.starts hbrace
  unfold Resumes
  rw [hsimple]
  show Resumes setup m (simpleStmt (level d)) s _
  unfold simpleStmt
  rw [resumes_atVarDecl_bind, hs.rest, if_neg (by rw [hvar]; decide)]
  exact .last (accepts_expr hw hb he hd hs hends) hs (hmissed _)

theorem resumes_ret {kw : Lexeme} {e : Expr} (hw : setup.Suits all) (hb : setup.Bears m) (hk : kw.token = .kwReturn)
    (he : DerivesExpr m .expr zs [e]) (hd : e.nesting + 1 ≤ d) (hs : s.Ready all (kw :: zs ++ y :: rest))
    (hends : y.token.endsExpr = true) (hmissed : MissesSemi setup m all s (kw :: zs) (y :: rest)) :
    Resumes setup m (topStmt d) s (kw :: zs) := by
  have hhead : headToken (kw :: zs ++ y :: rest) = .kwReturn := hk
  have hmethod : startsMethodDecl (kw :: zs ++ y :: rest) = false :=
    startsMethodDecl_of_startsVarDecl (startsVarDecl_of_ne_ident (by rw [hhead]; decide))
  unfold Resumes
  rw [topStmt_eq_stmt hw hs (by rw [hhead]; rfl) hmethod, stmt_eq_stmtAt]
  show Resumes setup m (stmtAt (level d)) s _
  unfold stmtAt
  rw [resumes_token_bind, hs.token hw, hhead]
  rw [List.cons_append] at hs
  refine .bind (accepts_want hs hk) hs fun s₁ h₁ hs₁ => ?_
  refine .last (accepts_optionalExpr_some hw hb he hd rfl hs₁ hends) hs₁ fun s₂ h₂ hs₂ => ?_
  exact hmissed _ s₂ (h₁.trans h₂) hs₂

/-- **A statement that is left unfinished at the end of a line resumes at the next one**, if it ends in a malformed
token and a statement starts there. -/
theorem resumes_topStmt (hw : setup.Suits all) (hb : setup.Bears m) (h : Unfinished m d (xs ++ [bad]))
    (hbad : bad.token = .invalid) (hs : s.Ready all (xs ++ [bad] ++ y :: rest)) (hy : y.token.opensStmt = true)
    (hline : bad.location.last.line < y.location.first.line) : Resumes setup m (topStmt d) s (xs ++ [bad]) := by
  obtain ⟨hends, hsemi⟩ := Token.endsExpr_of_opensStmt hy
  have hmissed : MissesSemi setup m all s (xs ++ [bad]) (y :: rest) := missesSemi_of_malformed hbad hsemi hline
  generalize hlast : xs ++ [bad] = zs at h hs hmissed ⊢
  cases h with
  | decl ht hi ha hx hd => exact resumes_decl hw hb ht hi ha hx hd hs hends hmissed
  | expr he hbrace hd => exact resumes_expr hw hb he hbrace hd hlast hbad hs hends hmissed
  | ret hk he hd => exact resumes_ret hw hb hk he hd hs hends hmissed

/-- **The step that resumes.** The tokens up to the malformed one are one bad statement, and nothing is reported. -/
theorem repeats_topStep_resumed (hw : setup.Suits (xs ++ [bad] ++ y :: rest)) (hb : setup.Bears m)
    (h : Unfinished m d (xs ++ [bad])) (hbad : bad.token = .invalid)
    (hs : s.Ready (xs ++ [bad] ++ y :: rest) (xs ++ [bad] ++ y :: rest)) (hy : y.token.opensStmt = true)
    (hline : bad.location.last.line < y.location.first.line) (before : List Stmt) :
    Repeats setup m (topStep d) before s (xs ++ [bad]) (before ++ [.bad (extent (xs ++ [bad]))]) := by
  have hresumes := resumes_topStmt hw hb h hbad hs hy hline
  obtain ⟨x, zs, hzs⟩ := List.exists_cons_of_ne_nil (List.concat_ne_nil bad xs)
  rw [hzs] at hw hs hresumes ⊢
  have hne : (s.current setup).token ≠ .eof := by
    rw [hs.current]
    exact hw.tokens x (by simp)
  refine .one ?_ (List.cons_ne_nil x zs)
  unfold topStep
  rw [accepts_token_bind, if_neg hne]
  exact (hresumes.recoverStmt hw hs).last hs fun s₁ _ hs₁ => .pure hs₁.running

end Unfinished

end Parser

/-! ## The whole text -/

/-- The one statement of a program. -/
theorem item_of_program {m : Mode} (hm : m.Exact) {xs : List Lexeme} {t : Stmt} (h : DerivesProgram m xs [t]) :
    DerivesStmt m (.item .top) xs [t] := by
  cases h with
  | cons ht hnil =>
    cases hnil with
    | nil => rwa [List.append_nil]
  | skip he => exact absurd he hm.errors

/-- What is written below a text stands on later lines. -/
theorem Source.line_lt_below {l b c : Source} (hc : c.text = l.text ++ byte '\n' :: b.text) {i : Int} (hi : 0 ≤ i)
    (hle : i ≤ l.size) {y : Lexeme} (hy : y ∈ b.tokens) :
    (c.lineCol i).line < (y.relocate l.below).location.first.line := by
  have hupper : (c.lineCol i).line ≤ l.lineCount := by
    rw [lineCol_of_le hc hi hle]
    exact l.line_le hi
  have hlower : 1 ≤ y.location.first.line := by
    rw [(b.holds_of_mem_tokens hy).located]
    show 1 ≤ ((bisect _ _ _ - 1 : Nat) : Int) + 1
    omega
  show _ < y.location.first.line + l.lineCount
  omega

/-- The tokens up to the open literal reach from the first of them to its end. -/
theorem extent_open {s e l c : Source} {w : Bytes} {xs ys : List Lexeme} {lit semi : Lexeme}
    (hall : c.tokens = xs ++ c.openLiteral s l w :: ys) (htokens : e.tokens = xs ++ [lit, semi])
    (hlit : lit.location.span.start = s.size) :
    extent (xs ++ [c.openLiteral s l w]) = c.location ⟨(extent e.tokens).span.start, l.size⟩ := by
  rw [htokens]
  cases xs with
  | nil =>
    show c.location ⟨s.size, l.size⟩ = c.location ⟨lit.location.span.start, l.size⟩
    rw [hlit]
  | cons x xs =>
    have hx := c.holds_of_mem_tokens (x := x) (by simp [hall])
    rw [List.cons_append, extent_concat, List.cons_append, extent_start, hx.located]
    rfl

/-- **Below a statement that an open string leaves unfinished, the parse goes on** as if it started there. -/
theorem parse_unfinished {o : Options} {s l b c : Source} {w : Bytes} {xs : List Lexeme}
    (hc : c.text = l.text ++ byte '\n' :: b.text) (hname : c.name = b.name)
    (hall : c.tokens = xs ++ c.openLiteral s l w :: b.tokens.map (Lexeme.relocate l.below))
    (h : Unfinished Mode.tight.spoiled o.depthLimit (xs ++ [c.openLiteral s l w]))
    (hb : (headToken b.tokens).opensStmt = true) :
    (parse o c).program.body
        = .bad (extent (xs ++ [c.openLiteral s l w])) :: (parse o b).program.body.map (Stmt.relocate l.below) ∧
      ∃ ps : Diagnostics, (parse o b).diagnostics = Diagnostics.merge [b.faults, ps] ∧
        (parse o c).diagnostics = Diagnostics.merge [c.faults, ps.map (Diagnostic.relocate l.below)] := by
  obtain ⟨y, ys, hys⟩ : ∃ y ys, b.tokens = y :: ys := by
    cases hnil : b.tokens with
    | nil => simp [hnil, Token.opensStmt] at hb
    | cons y ys => exact ⟨y, ys, rfl⟩
  have hlow : (y.relocate l.below).token.opensStmt = true := by simpa [hys] using hb
  have hline : (c.lineCol l.size).line < (y.relocate l.below).location.first.line :=
    Source.line_lt_below hc (Int.natCast_nonneg _) (Int.le_refl _) (by simp [hys])
  have htext : c.tokens
      = xs ++ [c.openLiteral s l w] ++ y.relocate l.below :: ys.map (Lexeme.relocate l.below) := by simp [hall, hys]
  have hw := c.suits o
  have hready : ({ rest := c.tokens } : State).Ready c.tokens c.tokens := ⟨c.at_start, rfl, rfl⟩
  rw [htext] at hw hready
  obtain ⟨s₁, hyields, hpass⟩ := Parser.repeats_topStep_resumed hw (.inr id) h rfl hready hlow hline []
  rw [← htext] at hyields
  have hrest : s₁.rest = y.relocate l.below :: ys.map (Lexeme.relocate l.below) := (hready.passes hpass).rest
  have hsilent : s₁.problems = [] := hpass.problems_eq id
  -- what is below does not look back at the open string, so that it may as well have been taken for nothing
  obtain ⟨d, hd⟩ := Nat.exists_eq_add_one.2 o.depthLimit_pos
  have hlast := (Parser.ignoresLast_loop (o.setup c) hrest hlow d
    [.bad (extent (xs ++ [c.openLiteral s l w]))] none).symm
  rw [← hd] at hlast
  have hnone : ∀ x ∈ (none : Option Lexeme), x.token ≠ .invalid ∧ x.location.span.stop ≤ l.size := by simp
  obtain ⟨hbodies, ps, hlower, hdiagnostics⟩ :=
    parse_from hname hc hyields (by rw [hrest, hys]; rfl) hpass.running (.inl hsilent) hnone hlast
  rw [hsilent, List.nil_append] at hdiagnostics
  exact ⟨hbodies, ps, hlower, hdiagnostics⟩

section Below

variable {o : Options} {l b : Source} {u : Diagnostic} {ps : Diagnostics}

/-- What is reported in a text, moved below another text, and one diagnostic besides. -/
theorem merge_below_perm (hlower : (parse o b).diagnostics = Diagnostics.merge [b.faults, ps]) :
    (Diagnostics.merge [u :: b.faults.map (Diagnostic.relocate l.below), ps.map (Diagnostic.relocate l.below)]).Perm
      (u :: (parse o b).diagnostics.map (Diagnostic.relocate l.below)) := by
  have hmoved := ((Diagnostics.merge_perm [b.faults, ps]).map (Diagnostic.relocate l.below)).symm
  rw [← hlower] at hmoved
  refine (Diagnostics.merge_perm _).trans ?_
  simpa using hmoved

/-- If that diagnostic is above the text, it stays in front. -/
theorem merge_below (hlower : (parse o b).diagnostics = Diagnostics.merge [b.faults, ps])
    (hstart : 0 ≤ u.start) (hle : u.start ≤ l.size) (hsize : l.size + 1 + b.size < 0x8000000000000000) :
    Diagnostics.merge [u :: b.faults.map (Diagnostic.relocate l.below), ps.map (Diagnostic.relocate l.below)]
      = u :: (parse o b).diagnostics.map (Diagnostic.relocate l.below) := by
  have hmoved : ∀ d ∈ [b.faults.map (Diagnostic.relocate l.below), ps.map (Diagnostic.relocate l.below)].flatten,
      l.size < d.start ∧ d.start ≤ l.size + 1 + b.size := by
    intro d hd
    obtain ⟨d, hmem, rfl⟩ : ∃ d' ∈ [b.faults, ps].flatten, d'.relocate l.below = d := by
      simpa [or_and_right, exists_or] using hd
    rw [← Diagnostics.mem_merge, ← hlower] at hmem
    obtain ⟨-, -, hfirst, hspan, hstop, -⟩ := parse_attributes hmem
    show _ < d.location.span.start + (l.size + 1) ∧ d.location.span.start + (l.size + 1) ≤ _
    omega
  rw [Diagnostics.merge_cons, hlower]
  · exact congrArg (u :: ·) (Diagnostics.merge_map l.before_below [b.faults, ps])
  · intro d hd
    rcases List.mem_cons.1 hd with rfl | hd
    · omega
    · have := hmoved d hd
      omega
  · intro d hd
    have := hmoved d hd
    omega

end Below

/-- **A string that is left open costs one diagnostic.** Take a text `s` which an empty string and a semicolon make one
statement without problems, a declaration, an expression or a `return`, that ends in these two tokens. If a string that
is left open at the end of its line stands there instead, and the text `b` below it starts with a token that opens a
statement, the parse gives one bad statement from the first token to the end of the string, and then what it gives for
`b` alone. The diagnostics are that of the open string, and then those of `b` alone. Offsets are compared as machine
words, so this order takes a text of less than 2⁶³ bytes. -/
theorem parse_resumed {o : Options} {s e l b c : Source} {w : Bytes} {t : Stmt} {front : List Lexeme}
    {lit semi : Lexeme} (he : e.text = s.text ++ utf8 "\"\";") (hquiet : (parse o e).diagnostics = [])
    (hbody : (parse o e).program.body = [t]) (hkind : t.kind ∈ [.varDecl, .exprStmt, .returnStmt])
    (htokens : e.tokens = front ++ [lit, semi]) (hlit : lit.location.span.start = s.size)
    (hl : l.text = s.text ++ byte '"' :: w) (hquote : hasQuote w = false) (hbreak : byte '\n' ∉ w)
    (hreturn : byte '\r' ∉ w) (hc : c.text = l.text ++ byte '\n' :: b.text) (hname : c.name = b.name)
    (hb : (headToken b.tokens).opensStmt = true) :
    let u : Diagnostic :=
      { problem := .unterminatedString, location := c.location ⟨s.size, l.size⟩, source := c.name }
    (parse o c).program.body
        = .bad (c.location ⟨(extent e.tokens).span.start, l.size⟩)
          :: (parse o b).program.body.map (Stmt.relocate l.below) ∧
      (parse o c).diagnostics.Perm (u :: (parse o b).diagnostics.map (Diagnostic.relocate l.below)) ∧
      (c.size < 0x8000000000000000 →
        (parse o c).diagnostics = u :: (parse o b).diagnostics.map (Diagnostic.relocate l.below)) := by
  intro u
  obtain ⟨hfaults, hwell⟩ := wellFormed_of_parse hquiet
  rw [hbody] at hwell
  obtain ⟨hderived, hnesting⟩ := wellFormed_iff.1 hwell
  obtain ⟨xs, lit', semi', htokens', hstring, -, hlit', hall, hproblems⟩ := Source.tokens_open he hfaults
    (by simp [htokens]) hlit hl hquote hbreak hreturn hc hname
  -- the statement with the open string in place of the empty one
  have hitem := item_of_program ⟨id, id, id⟩ hderived
  rw [htokens'] at hitem
  have hunfinished : Unfinished Mode.tight.spoiled o.depthLimit (xs ++ [c.openLiteral s l w]) :=
    unfinished_of_stmt hitem hkind (by rw [hstring]; rfl) rfl (by simpa [Stmt.nestings] using hnesting)
  obtain ⟨hbodies, ps, hlower, hdiagnostics⟩ := parse_unfinished hc hname hall hunfinished hb
  rw [hproblems] at hdiagnostics
  rw [extent_open hall htokens' hlit'] at hbodies
  refine ⟨hbodies, ?_, ?_⟩
  · rw [hdiagnostics]
    exact merge_below_perm hlower
  · intro hsize
    have hstop : s.size ≤ l.size := by simp [Source.size, hl]
    have htotal : c.size = l.size + 1 + b.size := by
      simp only [Source.size, hc, List.length_append, List.length_cons]
      omega
    rw [hdiagnostics]
    exact merge_below hlower (Int.natCast_nonneg _) (Int.ofNat_le.2 hstop) (by omega)

/-- A declaration up to its last operand. -/
def openingText : Source := { name := "", text := utf8 "int x = a + f(1) * ", wellFormed := by decide +kernel }

/-- The declaration with an empty string. -/
def closedText : Source := { name := "", text := utf8 "int x = a + f(1) * \"\";", wellFormed := by decide +kernel }

/-- The declaration with a string in which the last quote is escaped. -/
def openLine : Source := { name := "", text := utf8 "int x = a + f(1) * \"b\\\";", wellFormed := by decide +kernel }

/-- The open string, and below it a block in which an expression is missing, and a number that runs into a word. -/
def openText : Source :=
  { name := "", text := utf8 "int x = a + f(1) * \"b\\\";\n\x7b c = ; \x7d 1y;", wellFormed := by decide +kernel }

/-- What is below the open string. -/
def lowerText : Source := { name := "", text := utf8 "\x7b c = ; \x7d 1y;", wellFormed := by decide +kernel }

theorem parse_resumed_escaped :
    (parse {} closedText).diagnostics = [] ∧ (parse {} closedText).program.body.map (·.kind) = [.varDecl] ∧
      hasQuote (utf8 "b\\\";") = false ∧ headToken lowerText.tokens = .lBrace ∧
      (parse {} openText).program.body
        = .bad (openText.location ⟨0, 24⟩) :: (parse {} lowerText).program.body.map (Stmt.relocate (.down 25 1)) ∧
      (parse {} openText).diagnostics
        = { problem := .unterminatedString, location := openText.location ⟨19, 24⟩, source := "" }
          :: (parse {} lowerText).diagnostics.map (Diagnostic.relocate (.down 25 1)) ∧
      (parse {} openText).diagnostics.map (·.code) = [.unterminatedString, .unexpectedToken, .malformedNumber] := by
  have hquiet : (parse {} closedText).diagnostics = [] := by decide +kernel
  have hkinds : (parse {} closedText).program.body.map (·.kind) = [.varDecl] := by decide +kernel
  have hquote : hasQuote (utf8 "b\\\";") = false := by decide +kernel
  have hfirst : headToken lowerText.tokens = .lBrace := by decide +kernel
  obtain ⟨t, hbody, hkind⟩ := List.map_eq_singleton_iff.1 hkinds
  have hupper : openingText.size = 19 := by decide +kernel
  have hline : openLine.size = 24 := by decide +kernel
  have htokens : closedText.tokens = closedText.tokens.take 10
      ++ [{ token := .string, text := utf8 "\"\"", location := closedText.location ⟨19, 21⟩ },
        { token := .semi, text := utf8 ";", location := closedText.location ⟨21, 22⟩ }] := by decide +kernel
  obtain ⟨hbodies, -, hdiagnostics⟩ := parse_resumed (o := {}) (s := openingText) (e := closedText) (l := openLine)
    (b := lowerText) (c := openText) (w := utf8 "b\\\";") (by decide +kernel) hquiet hbody (by simp [hkind]) htokens
    (by rw [hupper]; rfl) (by decide +kernel) hquote (by decide +kernel) (by decide +kernel) (by decide +kernel) rfl
    (by rw [hfirst]; rfl)
  have hstart : (extent closedText.tokens).span.start = 0 := by decide +kernel
  have hbelow : openLine.below = .down 25 1 := by
    rw [Source.below, hline, Source.lineCount_of_notMem (by decide +kernel)]
    rfl
  rw [hbelow, hstart, hline] at hbodies
  rw [hbelow, hupper, hline] at hdiagnostics
  exact ⟨hquiet, hkinds, hquote, hfirst, hbodies, hdiagnostics (by decide +kernel), by decide +kernel⟩

end SmallJava
