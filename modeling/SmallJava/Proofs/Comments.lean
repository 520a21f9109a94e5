import SmallJava.Proofs.Lexical.Streaming
import SmallJava.Proofs.Reading.Program
import SmallJava.Proofs.Steps

/-!
# Comments

A parse reads its tokens from a stream, and the comments of the program are those delivered on the way. So whether
comments are kept must not show in the tokens, and the parse must not end before the stream has come to its end. Both
hold for any looking ahead: whatever is asked of the stream between the tokens taken, it shows the tokens that the state
of the parse has left, and when the parse is over the stream has delivered every comment.
-/

namespace SmallJava

namespace Source

variable {s : Source} {calls : List Stream.Call}

theorem reads_listen (s : Source) (on : Bool) :
    ((Stream.ofSource s).listen on).Reads s (s.tokens.getD · s.endMarker) 0 := by
  have h := (Stream.reads_ofScanner (Scanner.placed_ofSource s)).listen on
  rwa [(Scanner.placed_ofSource s).upcoming_eq] at h

/-- A stream from which some tokens have been taken shows the others, whether somebody listens or not. -/
theorem peek_after (s : Source) (on : Bool) (calls : List Stream.Call) {rest : List Lexeme} (hrest : rest <:+ s.tokens)
    (hcount : calls.count .next + rest.length = s.tokens.length) (n : Nat) :
    ((((Stream.ofSource s).listen on).run calls).2.perform (.peek n)).1 = .lexeme (rest.getD n s.endMarker) := by
  have hdrop : rest = s.tokens.drop (calls.count .next) := by
    rw [List.suffix_iff_eq_drop.1 hrest]
    congr 1
    omega
  rw [(((s.reads_listen on).run calls).perform (.peek n)).1, Nat.zero_add, Stream.Call.answer, hdrop]
  simp only [List.getD_eq_getElem?_getD, List.getElem?_drop]

/-- A stream from which all tokens have been taken, and that has come to the end marker, has delivered every comment. -/
theorem comments_after (s : Source) (on : Bool) (hcalls : ∀ call ∈ calls, call.sets = false)
    (hcount : s.tokens.length ≤ calls.count .next) :
    (((Stream.ofSource s).listen on).run (calls ++ [.token])).1 = (if on then s.comments else []) ∧
      (((Stream.ofSource s).listen on).run (calls ++ [.token])).2.scanner.diagnostics = s.faults := by
  have hreading : ∀ call ∈ calls ++ [Stream.Call.token], call.sets = false := by
    intro call hcall
    rcases List.mem_append.1 hcall with hcall | hcall
    · exact hcalls call hcall
    · rw [List.mem_singleton.1 hcall]
      rfl
  have hplaced := Scanner.placed_ofSource s
  have hrun := (Stream.delivers_listen hplaced on).run hreading
  obtain ⟨m, hm⟩ : ∃ m, max 0 (Stream.reach 0 (calls ++ [.token])) = m + 1 := by
    rw [Stream.reach_append_token]
    exact ⟨max (Stream.reach 0 calls) (calls.count .next + 1) - 1, by omega⟩
  have hbeyond : s.tokens.length ≤ m := by
    rw [Stream.reach_append_token] at hm
    omega
  rw [hplaced.upcoming_eq, hm, List.nil_append] at hrun
  have heof : ((s.tokens.getD m s.endMarker)).token = .eof := by
    rw [List.getD_eq_default _ _ hbeyond]
    rfl
  obtain ⟨hproblems, hcomments⟩ := hrun.at_end List.suffix_rfl heof
  exact ⟨hcomments, hproblems⟩

end Source

/-- A parse goes in steps to its end, and then everything has been taken. -/
theorem readStatements_steps (o : Options) (s : Source) :
    State.Steps (o.setup s) { rest := s.tokens } (readStatements o s).2 ∧ (readStatements o s).2.rest = [] := by
  obtain ⟨final, hrun, -, htaken, -⟩ := parse_reads o s
  have hfinal : (readStatements o s).2 = final := by rw [readStatements, hrun]
  rw [hfinal]
  exact ⟨(Parser.walks.topStmts o.depthLimit).ok hrun, by simpa using htaken.rest⟩

/-- When a parse is over, a stream from which as many tokens have been taken has delivered every comment, and its scanner
has reported every lexical problem. -/
theorem stream_after (o : Options) (s : Source) {calls : List Stream.Call} (hcalls : ∀ call ∈ calls, call.sets = false)
    (hcount : s.tokens.length ≤ calls.count .next + (readStatements o s).2.rest.length) :
    (((Stream.ofSource s).listen o.keepComments).run (calls ++ [.token])).1
        = (if o.keepComments then s.comments else []) ∧
      (((Stream.ofSource s).listen o.keepComments).run (calls ++ [.token])).2.scanner.diagnostics = s.faults := by
  rw [(readStatements_steps o s).2] at hcount
  exact s.comments_after o.keepComments hcalls hcount

/-- **Comments are complete and do not interfere.** Whether comments are kept makes no difference to the statements and
to the diagnostics. Kept comments are those that a plain scan of the text comes to, with their texts and locations.
This is what reading from a stream gives, with any looking ahead: in every state that the parse comes to, a stream from
which as many tokens have been taken shows the tokens that are left, whether somebody listens or not. Every parse ends
with no token left, also one that was halted, and then the stream has delivered the comments of the program and its
scanner has reported all lexical problems. -/
theorem parse_comments (o : Options) (keep : Bool) (s : Source) :
    (parse { o with keepComments := keep } s).program.body = (parse o s).program.body ∧
    (parse { o with keepComments := keep } s).diagnostics = (parse o s).diagnostics ∧
    (o.keepComments = true → (parse o s).program.comments
      = (s.scan.1.filter (·.token.isComment)).map fun x => { location := x.location, text := x.text }) ∧
    (∀ st, State.Steps (o.setup s) { rest := s.tokens } st → ∀ on calls n,
      calls.count .next + st.rest.length = s.tokens.length →
      ((((Stream.ofSource s).listen on).run calls).2.perform (.peek n)).1 = .lexeme (st.rest.getD n s.endMarker)) ∧
    State.Steps (o.setup s) { rest := s.tokens } (readStatements o s).2 ∧
    (readStatements o s).2.rest = [] ∧
    ∀ calls : List Stream.Call, (∀ call ∈ calls, call.sets = false) →
      s.tokens.length ≤ calls.count .next + (readStatements o s).2.rest.length →
      let ended := ((Stream.ofSource s).listen o.keepComments).run (calls ++ [.token])
      (parse o s).program.comments = ended.1.map (fun x => { location := x.location, text := x.text }) ∧
      (parse o s).diagnostics = Diagnostics.merge [ended.2.scanner.diagnostics, (readStatements o s).2.problems] := by
  obtain ⟨hsteps, hrest⟩ := readStatements_steps o s
  refine ⟨rfl, rfl, fun hkeep => ?_, fun st hst on calls n hcount => ?_, hsteps, hrest, fun calls hcalls hcount => ?_⟩
  · rw [s.scan_eq, List.filter_append]
    simp only [parse, hkeep, if_true]
    exact (congrArg _ (List.append_nil _)).symm
  · exact s.peek_after on calls hst.rest_suffix hcount n
  · obtain ⟨hcomments, hproblems⟩ := stream_after o s hcalls hcount
    dsimp only
    rw [hcomments, hproblems]
    refine ⟨?_, rfl⟩
    simp only [parse]
    split <;> rfl

/-- A problem between comments, at which a parse that reports one problem is halted. -/
def interruptedSource : Source :=
  { name := "", text := utf8 "/* one */ x = ; // two\ny /* three */", wellFormed := by decide +kernel }

theorem parse_comments_interrupted :
    (readStatements { maxErrors := 1, keepComments := true } interruptedSource).2.halted = true ∧
    (∀ call ∈ [Stream.Call.peek 2, .next, .next, .token, .next, .next], call.sets = false) ∧
    (parse { maxErrors := 1, keepComments := true } interruptedSource).program.comments.length = 3 ∧
    (parse { maxErrors := 1, keepComments := true } interruptedSource).program.comments
      = (((Stream.ofSource interruptedSource).listen true).run
          [.peek 2, .next, .next, .token, .next, .next, .token]).1.map
            (fun x => { location := x.location, text := x.text }) := by
  have hcalls : ∀ call ∈ [Stream.Call.peek 2, .next, .next, .token, .next, .next], call.sets = false := by decide
  obtain ⟨-, -, -, -, -, -, hended⟩ :=
    parse_comments { maxErrors := 1, keepComments := true } false interruptedSource
  exact ⟨by decide +kernel, hcalls, by decide +kernel, (hended _ hcalls (by decide +kernel)).1⟩

end SmallJava
