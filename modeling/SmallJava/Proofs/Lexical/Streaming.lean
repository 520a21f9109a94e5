import Mathlib.Data.List.GetD
import SmallJava.Proofs.Lexical.Passing

/-!
# A stream is a list of tokens

A stream reads ahead as far as it is asked to, and its scanner may be told at any time to keep comments or to drop them.
None of this can be seen in the tokens: they are those of the source one by one, and then end markers forever. Somebody
who listens all the time is told of every comment in front of the furthest token read, once and in order.

* `Stream.view` — the tokens that a stream has left, whether they have been read or not;
* `Stream.Call` — what can be asked of a stream, with `Stream.perform` and `Stream.run`;
* `Stream.Reads` — the tokens left are those of a list, and every call keeps that;
* `Stream.Delivers` — the comments delivered are those of the pieces that the scanner has gone over;
* `stream_refines` — the whole statement.
-/

namespace SmallJava

namespace Stream

/-! ## Calls -/

/-- What can be asked of a stream. -/
inductive Call where
  /-- The token so many places behind the current one. -/
  | peek (n : Nat)
  /-- The current token, which is taken. -/
  | next
  /-- The kind of the current token. -/
  | token
  /-- The token taken last. -/
  | last
  /-- To listen for comments, or to stop listening. -/
  | listen (on : Bool)
  /-- That the scanner keeps comments, or drops them. -/
  | keep (on : Bool)
deriving DecidableEq

/-- What a call gives. -/
inductive Answer where
  | lexeme (x : Lexeme)
  | kind (t : Token)
  | nothing
deriving DecidableEq

/-- Makes a call. The comments delivered come with the answer. -/
def perform (s : Stream) : Call → Answer × List Lexeme × Stream
  | .peek n => let (x, cs, s) := s.peek? n; ((x.map .lexeme).getD .nothing, cs, s)
  | .next => let (x, cs, s) := s.next; (.lexeme x, cs, s)
  | .token => let (x, cs, s) := s.peek? 0; ((x.map (.kind ·.token)).getD .nothing, cs, s)
  | .last => (.lexeme s.last, [], s)
  | .listen on => (.nothing, [], s.listen on)
  | .keep on => (.nothing, [], { s with scanner := { s.scanner with keepComments := on } })

/-- Makes calls one after the other, and gives the comments delivered on the way. -/
def run (s : Stream) : List Call → List Lexeme × Stream
  | [] => ([], s)
  | call :: calls =>
    let (_, xs, s) := s.perform call
    let (ys, s) := s.run calls
    (xs ++ ys, s)

/-! ## Answers from a list -/

/-- The element in front of place `k`. -/
def previous (tokens : Nat → Lexeme) : Nat → Lexeme
  | 0 => default
  | k + 1 => tokens k

namespace Call

/-- The answer to a call that the list `tokens` gives, when `k` of its elements have been taken. -/
def answer (tokens : Nat → Lexeme) (k : Nat) : Call → Answer
  | .peek n => .lexeme (tokens (k + n))
  | .next => .lexeme (tokens k)
  | .token => .kind (tokens k).token
  | .last => .lexeme (previous tokens k)
  | .listen _ | .keep _ => .nothing

/-- How many elements a call takes. -/
def taken : Call → Nat
  | .next => 1
  | _ => 0

/-- How many elements a call has to know, when `k` elements have been taken. -/
def reach (k : Nat) : Call → Nat
  | .peek n => k + n + 1
  | .next | .token => k + 1
  | .last | .listen _ | .keep _ => 0

/-- Whether a call changes who is told of comments. -/
def sets : Call → Bool
  | .listen _ | .keep _ => true
  | _ => false

end Call

/-- How many elements some calls have to know, when `k` elements have been taken before them. -/
def reach (k : Nat) : List Call → Nat
  | [] => 0
  | call :: calls => max (call.reach k) (reach (k + call.taken) calls)

/-! ## Reading ahead -/

/-- The token `i` places behind the current one, whether it has been read or not. -/
def view (st : Stream) (i : Nat) : Lexeme :=
  (st.buffer ++ st.scanner.source.tokensOf st.scanner.pending).getD i st.scanner.source.endMarker

/-- **Reading one token**: the scanner goes on to it, and the comments on the way are delivered if somebody listens and
the scanner keeps them. -/
theorem pull_eq (st : Stream) : ∃ passed c', st.scanner.Goes passed c' ∧
    st.pull = (if st.listening && st.scanner.keepComments then st.scanner.source.commentsOf passed else [],
      { st with scanner := c', buffer := st.buffer ++ [c'.lexeme] }) ∧
    (st.scanner.source.tokensOf passed = [c'.lexeme] ∨
      st.scanner.source.tokensOf passed = [] ∧ c'.pending = [] ∧ c'.lexeme = st.scanner.source.endMarker) := by
  obtain ⟨passed, hgoes, hxs, hreached⟩ := Scanner.goes_skipComments _ st.scanner (Nat.le_refl _)
  refine ⟨passed, _, hgoes, ?_, hreached⟩
  rw [pull]
  simp only [hxs]
  cases st.listening <;> simp

theorem length_pullMany (n : Nat) (st : Stream) : (pullMany n st).2.buffer.length = st.buffer.length + n := by
  induction n generalizing st with
  | zero => rfl
  | succ n ih =>
    obtain ⟨_, _, _, hpull, _⟩ := st.pull_eq
    rw [pullMany]
    simp only [ih, hpull, List.length_append, List.length_singleton]
    omega

/-- A buffer is filled up to a length, or has it already. -/
theorem length_fill (st : Stream) (n : Nat) : (st.fill n).2.buffer.length = max n st.buffer.length := by
  rw [fill, length_pullMany]
  omega

/-- What stands in the buffer is in view. -/
theorem getElem?_buffer {st : Stream} {i : Nat} (h : i < st.buffer.length) : st.buffer[i]? = some (st.view i) := by
  rw [view, List.getD_append _ _ _ _ h, List.getD_eq_getElem _ _ h, List.getElem?_eq_getElem h]

/-! ## The tokens -/

/-- **A stream reads a list**: `tokens` from place `k` on are left of it. An end marker in the buffer means that there
is no token left, and the last token taken is the one in front of place `k`. -/
structure Reads (s : Source) (tokens : Nat → Lexeme) (k : Nat) (st : Stream) : Prop where
  source : st.scanner.source = s
  suffix : st.scanner.pending <:+ s.pieces
  view : ∀ i, st.view i = tokens (k + i)
  ended : ∀ x ∈ st.buffer, x.token = .eof → x = s.endMarker ∧ s.tokensOf st.scanner.pending = []
  last : st.last = previous tokens k

section Reads

variable {s : Source} {tokens : Nat → Lexeme} {k : Nat} {st : Stream}

/-- A new stream stands before the first token of its scanner. -/
theorem reads_ofScanner {c : Scanner} {gone : List Piece} (h : c.Placed gone) :
    (ofScanner c).Reads c.source (c.upcoming.getD · c.source.endMarker) 0 where
  source := rfl
  suffix := ⟨gone, h.pieces.symm⟩
  view i := by rw [h.upcoming_eq, Nat.zero_add]; rfl
  ended _ hx := nomatch hx
  last := rfl

theorem Reads.listen (h : st.Reads s tokens k) (on : Bool) : (st.listen on).Reads s tokens k :=
  ⟨h.source, h.suffix, h.view, h.ended, h.last⟩

/-- One token more in the buffer is one less behind it. -/
theorem Reads.pull (h : st.Reads s tokens k) : st.pull.2.Reads s tokens k := by
  obtain ⟨passed, c', hgoes, hpull, hreached⟩ := st.pull_eq
  have hsource := h.source
  rw [hpull]
  rw [hsource] at hreached
  have hsuffix : c'.pending <:+ st.scanner.pending := ⟨passed, hgoes.pending.symm⟩
  have hleft : s.tokensOf st.scanner.pending = s.tokensOf passed ++ s.tokensOf c'.pending := by
    rw [hgoes.pending, Source.tokensOf_append]
  refine ⟨hgoes.source.trans hsource, hsuffix.trans h.suffix, fun i => ?_, fun x hx heof => ?_, h.last⟩
  · rw [← h.view i, Stream.view, Stream.view]
    simp only [hgoes.source, hsource, hleft, List.append_assoc]
    rcases hreached with hfound | ⟨hnone, hnil, hend⟩
    · rw [hfound]
    · -- behind the last token, one end marker more or less is not seen
      rw [hnone, hnil, hend]
      simp only [Source.tokensOf_nil, List.append_nil]
      grind
  · rcases List.mem_append.1 hx with hx | hx
    · obtain ⟨rfl, hnone⟩ := h.ended x hx heof
      exact ⟨rfl, (List.append_eq_nil_iff.1 (hleft ▸ hnone)).2⟩
    · obtain rfl := List.mem_singleton.1 hx
      rcases hreached with hfound | ⟨-, hnil, hend⟩
      · -- no token of the source is an end marker
        obtain ⟨p, hp, hpx, -⟩ := Source.exists_of_mem_tokensOf (hfound ▸ List.mem_singleton_self c'.lexeme)
        have hmem : p ∈ s.pieces := h.suffix.subset (hgoes.pending ▸ List.mem_append_left _ hp)
        exact absurd heof (s.holds_of_mem_lexemes (List.mem_filterMap.2 ⟨p, hmem, hpx⟩)).2
      · exact ⟨hend, by rw [hnil, Source.tokensOf_nil]⟩

/-- Filling the buffer takes no token from the stream. -/
theorem Reads.pullMany (h : st.Reads s tokens k) (n : Nat) : (pullMany n st).2.Reads s tokens k := by
  induction n generalizing st with
  | zero => exact h
  | succ n ih => exact ih h.pull

theorem Reads.fill (h : st.Reads s tokens k) (n : Nat) : (st.fill n).2.Reads s tokens k := h.pullMany _

/-- Looking ahead fills the buffer as far as needed. -/
theorem peek?_eq (st : Stream) (n : Nat) :
    st.peek? n = (some ((st.fill (n + 1)).2.view n), (st.fill (n + 1)).1, (st.fill (n + 1)).2) := by
  have hlt : n < (st.fill (n + 1)).2.buffer.length := by
    rw [length_fill]
    omega
  rw [peek?, if_neg (by omega), Int.toNat_natCast, ← getElem?_buffer hlt]

/-- **Taking a token** makes the next one current, unless that leaves nothing but an end marker. -/
theorem next_eq (st : Stream) : ∃ x r, (st.fill 1).2.buffer = x :: r ∧
    st.next = (x, (st.fill 1).1,
      { (st.fill 1).2 with last := x, buffer := if x.token = .eof ∧ r = [] then [x] else r }) := by
  have hlength := st.length_fill 1
  rw [next]
  cases hbuffer : (st.fill 1).2.buffer with
  | nil =>
    rw [hbuffer, List.length_nil] at hlength
    omega
  | cons x r =>
    refine ⟨x, r, rfl, ?_⟩
    simp only [hbuffer]

/-- Taking a token gives the first one, and the stream stands before the next. -/
theorem Reads.next (h : st.Reads s tokens k) : st.next.1 = tokens k ∧ st.next.2.2.Reads s tokens (k + 1) := by
  obtain ⟨x, r, hbuffer, hnext⟩ := st.next_eq
  have hfill := h.fill 1
  have hx : x = tokens k := by
    have := hfill.view 0
    rwa [Stream.view, hbuffer] at this
  have hsource := hfill.source
  rw [hnext]
  refine ⟨hx, ⟨hsource, hfill.suffix, fun i => ?_, fun y hy heof => ?_, hx⟩⟩
  · have hview := hfill.view (i + 1)
    rw [show k + 1 + i = k + (i + 1) by omega, ← hview, Stream.view, Stream.view]
    simp only [hbuffer, hsource]
    split
    · next hlast =>
      -- the marker that stays is as good as the next one
      obtain ⟨hmarker, hnone⟩ := hfill.ended x (by simp [hbuffer]) hlast.1
      rw [hlast.2, hnone, hmarker]
      grind
    · rfl
  · refine hfill.ended y ?_ heof
    rw [hbuffer]
    dsimp only at hy
    split at hy
    · next hlast => rwa [hlast.2]
    · exact List.mem_cons_of_mem x hy

/-- **Every call** gives the answer of the list, and leaves a stream that reads it from the right place on. -/
theorem Reads.perform (h : st.Reads s tokens k) (call : Call) :
    (st.perform call).1 = call.answer tokens k ∧ (st.perform call).2.2.Reads s tokens (k + call.taken) := by
  cases call with
  | peek n =>
    have hfill := h.fill (n + 1)
    simp only [Stream.perform, peek?_eq, Option.map_some, Option.getD_some, hfill.view]
    exact ⟨rfl, hfill⟩
  | next => exact ⟨congrArg Answer.lexeme h.next.1, h.next.2⟩
  | token =>
    have hfill := h.fill (0 + 1)
    have hpeek := st.peek?_eq 0
    simp only [Stream.perform]
    rw [show st.peek? 0 = _ from hpeek]
    simp only [Option.map_some, Option.getD_some, hfill.view]
    exact ⟨rfl, hfill⟩
  | last => exact ⟨congrArg Answer.lexeme h.last, h⟩
  | listen on => exact ⟨rfl, h.listen on⟩
  | keep on => exact ⟨rfl, ⟨h.source, h.suffix, h.view, h.ended, h.last⟩⟩

theorem count_next_cons (call : Call) (calls : List Call) :
    (call :: calls).count .next = call.taken + calls.count .next := by
  cases call <;> simp [Call.taken, Nat.add_comm]

/-- **Every run** leaves a stream that reads the list from the right place on. -/
theorem Reads.run (h : st.Reads s tokens k) (calls : List Call) :
    (st.run calls).2.Reads s tokens (k + calls.count .next) := by
  induction calls generalizing k st with
  | nil => exact h
  | cons call calls ih =>
    rw [count_next_cons, ← Nat.add_assoc]
    exact ih (h.perform call).2

end Reads

/-! ## The comments -/

/-- A scanner that came to a token, or did not move: the comments on its way are `xs`, if it keeps comments. -/
def Delivered (c₀ : Scanner) (xs : List Lexeme) (c : Scanner) : Nat → Prop
  | 0 => c = c₀ ∧ xs = []
  | _ + 1 => c.token.isComment = false ∧ ∃ passed, c₀.Goes passed c ∧
      xs = if c₀.keepComments then c₀.source.commentsOf passed else []

/-- **The comments delivered** to somebody who listens all the time, or never. The scanner went from `c₀` to the last of
the `m` tokens that had to be known, and what it kept on its way is `xs`. Where only end markers are left there may be
more tokens in view than had to be known, but they are all the same. -/
structure Delivers (c₀ : Scanner) (tokens : Nat → Lexeme) (k m : Nat) (xs : List Lexeme) (st : Stream) : Prop where
  reads : st.Reads c₀.source tokens k
  listening : st.listening = c₀.keepComments
  keeps : st.scanner.keepComments = c₀.keepComments
  begun : m = 0 → k + st.buffer.length = 0
  known : m ≤ k + st.buffer.length
  furthest : ∀ j, m ≤ j + 1 → j < k + st.buffer.length → st.scanner.lexeme = tokens j
  delivered : Delivered c₀ xs st.scanner m

section Delivers

variable {c₀ : Scanner} {tokens : Nat → Lexeme} {k m : Nat} {xs : List Lexeme} {st : Stream}

/-- What a scanner passes over, and what it passes over later. -/
theorem Delivered.trans {c c' : Scanner} {passed : List Piece} (h : Delivered c₀ xs c m) (hgoes : c.Goes passed c')
    (hc : c'.token.isComment = false) :
    Delivered c₀ (xs ++ if c₀.keepComments then c.source.commentsOf passed else []) c' (m + 1) := by
  cases m with
  | zero =>
    obtain ⟨rfl, rfl⟩ := h
    exact ⟨hc, passed, hgoes, rfl⟩
  | succ m =>
    obtain ⟨-, passed₀, hgoes₀, rfl⟩ := h
    refine ⟨hc, _, hgoes₀.trans hgoes, ?_⟩
    rw [hgoes₀.source]
    split <;> simp

/-- What is in view counts as known. -/
theorem Delivers.mono {m' : Nat} (h : st.Delivers c₀ tokens k m xs) (hm : m ≤ m') (hle : m' ≤ k + st.buffer.length) :
    st.Delivers c₀ tokens k m' xs := by
  refine ⟨h.reads, h.listening, h.keeps, fun h0 => h.begun (by omega), hle,
    fun j hj => h.furthest j (by omega), ?_⟩
  have hbegun := h.begun
  have hdelivered := h.delivered
  cases m with
  | zero =>
    have : m' = 0 := by omega
    rwa [this]
  | succ m =>
    cases m' with
    | zero => omega
    | succ m' => exact hdelivered

/-- One more token in the buffer delivers the comments before it. -/
theorem Delivers.pull (h : st.Delivers c₀ tokens k m xs) :
    st.pull.2.Delivers c₀ tokens k (k + st.buffer.length + 1) (xs ++ st.pull.1) := by
  have hreads := h.reads.pull
  obtain ⟨passed, c', hgoes, hpull, hreached⟩ := st.pull_eq
  have hc : c'.token.isComment = false := by
    rcases hreached with hfound | ⟨-, -, hend⟩
    · obtain ⟨-, -, -, hc⟩ := Source.exists_of_mem_tokensOf (hfound ▸ List.mem_singleton_self c'.lexeme)
      exact hc
    · exact congrArg (·.token.isComment) hend
  simp only [hpull, h.listening, h.keeps, Bool.and_self] at hreads ⊢
  refine ⟨hreads, rfl, hgoes.keeps.trans h.keeps, by omega, ?_, fun j hj hlt => ?_, ?_⟩
  · simp only [List.length_append, List.length_singleton]
    omega
  · simp only [List.length_append, List.length_singleton] at hlt
    have hview := hreads.view st.buffer.length
    rw [show j = k + st.buffer.length by omega, ← hview, Stream.view]
    simp
  · exact h.delivered.trans hgoes hc

theorem Delivers.pullMany (h : st.Delivers c₀ tokens k m xs) (n : Nat) :
    (pullMany n st).2.Delivers c₀ tokens k (if n = 0 then m else k + st.buffer.length + n)
      (xs ++ (pullMany n st).1) := by
  induction n generalizing m xs st with
  | zero => simpa [Stream.pullMany] using h
  | succ n ih =>
    have hrest := ih h.pull
    have hlength : st.pull.2.buffer.length = st.buffer.length + 1 := st.length_pullMany 1
    have hm : (if n = 0 then k + st.buffer.length + 1 else k + (st.buffer.length + 1) + n)
        = k + st.buffer.length + (n + 1) := by
      split <;> omega
    rw [hlength, hm, List.append_assoc] at hrest
    exact hrest

/-- Filling the buffer delivers the comments before the last token in it. -/
theorem Delivers.fill (h : st.Delivers c₀ tokens k m xs) (n : Nat) :
    (st.fill (n + 1)).2.Delivers c₀ tokens k (max m (k + (n + 1))) (xs ++ (st.fill (n + 1)).1) := by
  have hlength := st.length_fill (n + 1)
  have hknown := h.known
  refine (h.pullMany _).mono ?_ (by rw [← Stream.fill, hlength]; omega)
  split <;> omega

/-- **Every call** that changes nothing about comments delivers those up to the last token that it has to know. -/
theorem Delivers.perform (h : st.Delivers c₀ tokens k m xs) {call : Call} (hcall : call.sets = false) :
    (st.perform call).2.2.Delivers c₀ tokens (k + call.taken) (max m (call.reach k))
      (xs ++ (st.perform call).2.1) := by
  cases call with
  | peek n =>
    simp only [Stream.perform, peek?_eq]
    exact h.fill n
  | token =>
    simp only [Stream.perform]
    rw [show st.peek? 0 = _ from st.peek?_eq 0]
    exact h.fill 0
  | last => simpa [Stream.perform, Call.taken, Call.reach] using h
  | next =>
    have hreads := h.reads.next
    obtain ⟨x, r, hbuffer, hnext⟩ := st.next_eq
    have hfill : (st.fill 1).2.Delivers c₀ tokens k (max m (k + 1)) (xs ++ (st.fill 1).1) := h.fill 0
    simp only [Stream.perform, hnext] at hreads ⊢
    have hknown := hfill.known
    have hfurthest := hfill.furthest
    rw [hbuffer, List.length_cons] at hknown hfurthest
    refine ⟨hreads.2, hfill.listening, hfill.keeps, by simp only [Call.reach]; omega, ?_, fun j hj hlt => ?_,
      hfill.delivered⟩
    · simp only [Call.reach, Call.taken]
      split
      · next hlast =>
        simp only [hlast.2, List.length_nil, List.length_singleton] at hknown ⊢
        omega
      · omega
    · simp only [Call.reach, Call.taken] at hj hlt
      split at hlt
      · next hlast =>
        -- the marker that stays is the next token too
        simp only [hlast.2, List.length_nil, List.length_singleton] at hknown hfurthest hlt
        have hscanner := hfurthest k (by omega) (by omega)
        have hview := hreads.2.view 0
        rw [Stream.view] at hview
        simp only [hlast, and_self, if_true, List.cons_append, List.getD_cons_zero] at hview
        rcases Nat.lt_or_ge j (k + 1) with hj' | hj'
        · rw [show j = k by omega]
          exact hscanner
        · rw [show j = k + 1 + 0 by omega, ← hview, hreads.1]
          exact hscanner
      · exact hfurthest j (by omega) (by omega)
  | listen on => cases hcall
  | keep on => cases hcall

/-- **Every run** of such calls delivers the comments up to the furthest token that it has to know. -/
theorem Delivers.run (h : st.Delivers c₀ tokens k m xs) {calls : List Call}
    (hcalls : ∀ call ∈ calls, call.sets = false) :
    (st.run calls).2.Delivers c₀ tokens (k + calls.count .next) (max m (Stream.reach k calls))
      (xs ++ (st.run calls).1) := by
  induction calls generalizing k m xs st with
  | nil => simpa [Stream.run, Stream.reach] using h
  | cons call calls ih =>
    have hrest := ih (h.perform (hcalls call List.mem_cons_self)) fun c hc => hcalls c (List.mem_cons_of_mem _ hc)
    rw [count_next_cons, Stream.reach, ← Nat.add_assoc, ← Nat.max_assoc, Stream.run]
    simpa only [List.append_assoc] using hrest

/-- At the start nothing has been delivered. -/
theorem delivers_listen {c : Scanner} {gone : List Piece} (h : c.Placed gone) (on : Bool) :
    ((ofScanner c).listen on).Delivers { c with keepComments := on } (c.upcoming.getD · c.source.endMarker) 0 0 [] where
  reads := (reads_ofScanner h).listen on
  listening := rfl
  keeps := rfl
  begun _ := rfl
  known := Nat.zero_le _
  furthest _ _ hlt := absurd hlt (Nat.not_lt_zero _)
  delivered := ⟨rfl, rfl⟩

/-- Where the furthest of `m` tokens starts; none is at `start`. -/
def frontier (start : Int) (tokens : Nat → Lexeme) : Nat → Int
  | 0 => start
  | m + 1 => (tokens m).location.span.start

/-- The comments delivered are those that stand in front of the furthest token. -/
theorem Delivers.commentsBetween_eq {gone : List Piece} (h : st.Delivers c₀ tokens k m xs) (hplaced : c₀.Placed gone) :
    xs = if c₀.keepComments then c₀.source.commentsBetween c₀.span.stop (frontier c₀.span.stop tokens m) else [] := by
  have hknown := h.known
  have hfurthest := h.furthest
  have hdelivered := h.delivered
  cases m with
  | zero =>
    have hnone : c₀.source.commentsBetween c₀.span.stop c₀.span.stop = [] := by
      rw [Source.commentsBetween, List.filter_eq_nil_iff]
      intro x _
      simp
    rw [hdelivered.2, frontier, hnone, ite_self]
  | succ m =>
    obtain ⟨hc, passed, hgoes, rfl⟩ := hdelivered
    rw [frontier, ← hfurthest m (Nat.le_refl _) hknown, hgoes.commentsBetween_eq hplaced hc]

/-- **At the end** the scanner has gone over all pieces: it has reported what is wrong with them, and their comments
have been delivered. -/
theorem Delivers.at_end (h : st.Delivers c₀ tokens k (m + 1) xs) (hpending : c₀.pending <:+ c₀.source.pieces)
    (heof : (tokens m).token = .eof) :
    st.scanner.diagnostics = c₀.diagnostics ++ c₀.source.faultsOf c₀.pending ∧
      xs = if c₀.keepComments then c₀.source.commentsOf c₀.pending else [] := by
  obtain ⟨-, passed, hgoes, rfl⟩ := h.delivered
  rw [← h.furthest m (Nat.le_refl _) h.known] at heof
  rcases hgoes.place with ⟨front, p, rfl, hp⟩ | ⟨hnil, -⟩
  · have hmem : p ∈ c₀.source.pieces := hpending.subset (by simp [hgoes.pending])
    exact absurd heof (c₀.source.holds_of_mem_lexemes (List.mem_filterMap.2 ⟨p, hmem, hp⟩)).2
  · have hall : c₀.pending = passed := by rw [hgoes.pending, hnil, List.append_nil]
    rw [hgoes.problems, hall]
    exact ⟨rfl, rfl⟩

end Delivers

/-- To know the kind of the current token, a stream has to know all tokens up to it. -/
theorem reach_append_token (k : Nat) (calls : List Call) :
    reach k (calls ++ [.token]) = max (reach k calls) (k + calls.count .next + 1) := by
  induction calls generalizing k with
  | nil => simp [reach, Call.reach]
  | cons call calls ih =>
    rw [List.cons_append, reach, reach, ih, count_next_cons]
    omega

/-- No answer is a comment, since no token is. -/
theorem Call.not_comment_of_answer {tokens : Nat → Lexeme} (h : ∀ i, (tokens i).token.isComment = false) {k : Nat}
    {call : Call} {x : Lexeme} (hx : call.answer tokens k = .lexeme x) : x.token.isComment = false := by
  cases call with
  | peek n =>
    cases hx
    exact h (k + n)
  | next =>
    cases hx
    exact h k
  | last =>
    cases hx
    cases k with
    | zero => rfl
    | succ k => exact h k
  | token => cases hx
  | listen on => cases hx
  | keep on => cases hx

end Stream

theorem Scanner.not_comment_of_upcoming (c : Scanner) (i : Nat) :
    (c.upcoming.getD i c.source.endMarker).token.isComment = false := by
  rcases Nat.lt_or_ge i c.upcoming.length with hi | hi
  · rw [List.getD_eq_getElem _ _ hi]
    have hmem := (List.mem_filter.1 (List.getElem_mem hi)).1
    simpa using (List.mem_filter.1 hmem).2
  · rw [List.getD_eq_default _ _ hi]
    rfl

/-- Comments stand one behind the other. -/
theorem Source.commentsBetween_sorted (s : Source) (start stop : Int) :
    (s.commentsBetween start stop).Pairwise fun x y => x.location.span.start < y.location.span.start := by
  refine List.Pairwise.filter _ (List.Pairwise.filter _ (s.lexemes_sorted.imp_of_mem ?_))
  intro x y hx _ hxy
  have := (s.holds_of_mem_lexemes hx).1.nonempty
  omega

/-- **A stream refines the list of tokens.** Take a scanner of a source `s` that has been moved in any way, and the list
of the tokens behind its lexeme with end markers behind them; for a scanner that has not been moved these are the tokens
of a plain scan. After any calls, every call on the stream of the scanner is answered from the list, no answer is a
comment, and the comments delivered to somebody who listens all the time are those in front of the furthest token that
the calls ask for, each once and in order. -/
theorem stream_refines (s : Source) (moves : List Scanner.Move) (calls : List Stream.Call) :
    let c := Scanner.after s moves
    let tokens := fun i => c.upcoming.getD i s.endMarker
    (Scanner.ofSource s).upcoming ++ [s.endMarker] = s.scan.1.filter (fun x => !x.token.isComment) ∧
    (∀ call, (((Stream.ofScanner c).run calls).2.perform call).1 = call.answer tokens (calls.count .next)) ∧
    (∀ call x, (((Stream.ofScanner c).run calls).2.perform call).1 = .lexeme x → x.token.isComment = false) ∧
    ((∀ call ∈ calls, call.sets = false) →
      ((Stream.ofScanner c).run (.listen true :: calls)).1
          = s.commentsBetween c.span.stop (Stream.frontier c.span.stop tokens (Stream.reach 0 calls)) ∧
        ((Stream.ofScanner c).run (.listen true :: calls)).1.Pairwise
          fun x y => x.location.span.start < y.location.span.start) := by
  intro c tokens
  -- wherever the moves have led, the scanner stands between pieces of the source
  obtain ⟨hsource, gone, hplaced⟩ := Scanner.placed_after s moves
  have hreads : (Stream.ofScanner c).Reads s tokens 0 := by
    have h := Stream.reads_ofScanner hplaced
    rwa [hsource] at h
  have hanswer : ∀ call, (((Stream.ofScanner c).run calls).2.perform call).1
      = call.answer tokens (calls.count .next) := by
    intro call
    have h := ((hreads.run calls).perform call).1
    rwa [Nat.zero_add] at h
  have htokens : ∀ i, (tokens i).token.isComment = false := by
    intro i
    have h := c.not_comment_of_upcoming i
    rwa [hsource] at h
  refine ⟨?_, hanswer, fun call x hx => ?_, fun hcalls => ?_⟩
  · rw [(Scanner.placed_ofSource s).upcoming_eq, s.scan_eq, List.filter_append]
    rfl
  · rw [hanswer call] at hx
    exact Stream.Call.not_comment_of_answer htokens hx
  · have hdelivers := (Stream.delivers_listen hplaced true).run hcalls
    have hbetween := hdelivers.commentsBetween_eq ⟨hplaced.pieces, hplaced.behind, hplaced.ahead⟩
    rw [List.nil_append, Nat.zero_max, hsource] at hbetween
    refine ⟨hbetween, ?_⟩
    rw [show ((Stream.ofScanner c).run (.listen true :: calls)).1 = _ from hbetween]
    exact s.commentsBetween_sorted _ _

/-- A token between comments, and a comment at the end. -/
def annotatedSource : Source :=
  { name := "", text := utf8 "/* one */ x // two\n/* three */", wellFormed := by decide +kernel }

/-- Looking past the end, taking end markers and looking again, with a scanner that has come to the first comment. -/
theorem stream_refines_annotated :
    let c := Scanner.after annotatedSource [.keep true, .next]
    let calls : List Stream.Call := [.peek 3, .next, .next, .last, .next, .next, .next, .token, .peek 1]
    (∀ call ∈ calls, call.sets = false) ∧
    ((Stream.ofScanner c).run (.listen true :: calls)).1.length = 2 ∧
    ((Stream.ofScanner c).run (.listen true :: calls)).1
      = annotatedSource.commentsBetween c.span.stop
          (Stream.frontier c.span.stop (c.upcoming.getD · annotatedSource.endMarker) (Stream.reach 0 calls)) := by
  intro c calls
  have hcalls : ∀ call ∈ calls, call.sets = false := by decide
  exact ⟨hcalls, by decide +kernel, ((stream_refines annotatedSource [.keep true, .next] calls).2.2.2 hcalls).1⟩

end SmallJava
