import Mathlib.Data.List.DropRight
import SmallJava.Proofs.Text.Lines

/-!
# Positions and lines by counting

Lines and columns are looked up in a table of the offsets at which lines start. This module says what they are without
that table, by counting bytes and by cutting the text at its line feeds.

* `lineCol_exact` — the line and the column of an offset, from the bytes before it, and the order of positions;
* `LineAt` — a part of a text that is one of its lines; every offset is on one (`exists_lineAt`), and every number of a
  line belongs to one (`Source.exists_lineAt_of_lt`);
* `line_exact` — the text of a line, and the byte at a position.
-/

namespace SmallJava

/-! ## The last line of a text -/

/-- What stands behind the last line feed of a text, or all of it. -/
def lastLine (text : Bytes) : Bytes := text.rtakeWhile (· != byte '\n')

theorem lastLine_append {line : Bytes} (front : Bytes) (h : byte '\n' ∉ line) :
    lastLine (front ++ line) = lastLine front ++ line := by
  have hline : ∀ b ∈ line.reverse, (b != byte '\n') = true := by
    intro b hb
    rw [bne_iff_ne]
    rintro rfl
    exact h (List.mem_reverse.1 hb)
  unfold lastLine List.rtakeWhile
  rw [List.reverse_append, List.takeWhile_append_of_pos hline, List.reverse_append, List.reverse_reverse]

theorem lastLine_of_break {front : Bytes} (h : ∀ b ∈ front.getLast?, b = byte '\n') : lastLine front = [] := by
  rcases List.eq_nil_or_concat front with rfl | ⟨front, b, rfl⟩
  · rfl
  · rw [List.concat_eq_append] at h ⊢
    obtain rfl : b = byte '\n' := h b (by simp)
    exact List.rtakeWhile_concat_neg _ _ _ (by simp)

/-- The lines of a text start behind its line feeds, and the last of them is what stands behind the last line feed. -/
theorem lineStarts_eq_concat (text : Bytes) : ∃ starts last, lineStarts text = starts ++ [last] ∧
    starts.length = text.count (byte '\n') ∧ last + (lastLine text).length = text.length := by
  -- from the end of the text: a line feed starts a line there, any other byte makes the last line longer
  induction text using List.reverseRecOn with
  | nil => exact ⟨[], 0, rfl, rfl, rfl⟩
  | append_singleton text b ih =>
    obtain ⟨starts, last, hstarts, hcount, hlast⟩ := ih
    have happend := lineStarts_extend text [b]
    by_cases hb : b = byte '\n'
    · subst hb
      refine ⟨lineStarts text, text.length + 1, happend, ?_, ?_⟩
      · rw [hstarts, List.length_append, hcount, List.count_append, List.count_singleton_self]
        rfl
      · rw [lastLine_of_break (by simp), List.length_append]
        rfl
    · refine ⟨starts, last, ?_, ?_, ?_⟩
      · rw [happend, lineStartsFrom, if_neg hb, lineStartsFrom, List.append_nil, hstarts]
      · rw [List.count_append, List.count_singleton, if_neg (by simpa using hb), hcount, Nat.add_zero]
      · rw [lastLine_append text (by simpa using Ne.symm hb), List.length_append, List.length_append]
        omega

/-! ## Lines and columns by counting -/

/-- The first position is on an earlier line, or on the same line and further left. -/
def LineCol.Before (p q : LineCol) : Prop := p.line < q.line ∨ p.line = q.line ∧ p.column < q.column

theorem LineCol.Before.asymm {p q : LineCol} (h : p.Before q) : ¬ q.Before p := by
  unfold Before at h ⊢
  omega

theorem LineCol.Before.ne {p q : LineCol} (h : p.Before q) : p ≠ q := by
  rintro rfl
  exact h.asymm h

namespace Source

variable {s : Source}

theorem lineCount_eq_count (s : Source) : s.lineCount = s.text.count (byte '\n') + 1 := by
  obtain ⟨starts, last, hstarts, hcount, -⟩ := lineStarts_eq_concat s.text
  rw [lineCount_eq, hstarts, List.length_append, hcount, List.length_singleton]

/-- **The position behind a part of the text** is counted from the line feeds in that part. -/
theorem lineCol_append {front back : Bytes} (h : s.text = front ++ back) :
    s.lineCol front.length =
      { line := 1 + (front.count (byte '\n') : Int), column := 1 + ((lastLine front).length : Int) } := by
  obtain ⟨starts, last, hstarts, hcount, hlast⟩ := lineStarts_eq_concat front
  have hsplit : lineStarts s.text = starts ++ last :: lineStartsFrom front.length back := by
    rw [h, lineStarts_extend, hstarts, List.append_assoc, List.singleton_append]
  have hupTo : ∀ i ∈ starts ++ [last], (i : Int) ≤ (front.length : Int) := by
    intro i hi
    rw [← hstarts] at hi
    exact Int.ofNat_le.2 (mem_lineStarts hi)
  have hbehind : ∀ i ∈ lineStartsFrom front.length back, (front.length : Int) < (i : Int) := by
    intro i hi
    exact Int.ofNat_lt.2 (mem_lineStartsFrom hi).1
  rw [lineCol_eq hsplit hupTo hbehind, hcount, LineCol.mk.injEq]
  omega

theorem lineCol_eq_count (s : Source) {pos : Nat} (h : pos ≤ s.size) :
    s.lineCol pos = { line := 1 + ((s.text.take pos).count (byte '\n') : Int),
                      column := 1 + ((lastLine (s.text.take pos)).length : Int) } := by
  have hpos := lineCol_append (s.text.take_append_drop pos).symm
  rw [List.length_take_of_le h] at hpos
  exact hpos

/-- **Later offsets have later positions.** -/
theorem lineCol_before {pos pos' : Nat} (hlt : pos < pos') (h : pos' ≤ s.size) :
    (s.lineCol pos).Before (s.lineCol pos') := by
  have hle : pos ≤ s.size := Nat.le_trans (Nat.le_of_lt hlt) h
  obtain ⟨mid, hmid⟩ : s.text.take pos <+: s.text.take pos' := List.take_prefix_take_left (Nat.le_of_lt hlt)
  have hlength := congrArg List.length hmid
  rw [List.length_append, List.length_take_of_le h, List.length_take_of_le hle] at hlength
  rw [lineCol_eq_count s h, lineCol_eq_count s hle, ← hmid, List.count_append]
  by_cases hbreak : byte '\n' ∈ mid
  · have := List.count_pos_iff.2 hbreak
    left
    push_cast
    omega
  · right
    rw [List.count_eq_zero_of_not_mem hbreak, lastLine_append _ hbreak, List.length_append]
    push_cast
    omega

theorem lineCol_before_iff {pos pos' : Nat} (h : pos ≤ s.size) (h' : pos' ≤ s.size) :
    (s.lineCol pos).Before (s.lineCol pos') ↔ pos < pos' := by
  refine ⟨fun hbefore => ?_, fun hlt => lineCol_before hlt h'⟩
  rcases Nat.lt_trichotomy pos pos' with hlt | rfl | hlt
  · exact hlt
  · exact absurd rfl hbefore.ne
  · exact absurd (lineCol_before hlt h) hbefore.asymm

theorem lineCol_inj {pos pos' : Nat} (h : pos ≤ s.size) (h' : pos' ≤ s.size) :
    s.lineCol pos = s.lineCol pos' ↔ pos = pos' := by
  refine ⟨fun heq => ?_, fun heq => heq ▸ rfl⟩
  rcases Nat.lt_trichotomy pos pos' with hlt | heq' | hlt
  · exact absurd heq (lineCol_before hlt h').ne
  · exact heq'
  · exact absurd heq.symm (lineCol_before hlt h).ne

end Source

/-- **Line and column are exact.** The line of an offset is one more than the number of line feeds before it, and its
column is one more than the number of bytes since the last of them. So later offsets have later positions, no two
offsets have the same, no offset is behind the last line, and the ends of a location are in the order of its offsets. -/
theorem lineCol_exact (s : Source) :
    (∀ pos : Nat, pos ≤ s.size →
      s.lineCol pos = { line := 1 + (s.text.take pos).count (byte '\n'),
                        column := 1 + (lastLine (s.text.take pos)).length } ∧
      (s.lineCol pos).line ≤ s.lineCount) ∧
    (∀ pos pos' : Nat, pos ≤ s.size → pos' ≤ s.size →
      ((s.lineCol pos).Before (s.lineCol pos') ↔ pos < pos') ∧ (s.lineCol pos = s.lineCol pos' ↔ pos = pos')) ∧
    ∀ start stop : Nat, start ≤ s.size → stop ≤ s.size →
      let l := s.location ⟨start, stop⟩
      (l.first.Before l.last ∨ l.first = l.last) ↔ start ≤ stop := by
  refine ⟨?_, ?_, ?_⟩
  · intro pos hpos
    exact ⟨s.lineCol_eq_count hpos, s.line_le (Int.natCast_nonneg pos)⟩
  · intro pos pos' hpos hpos'
    exact ⟨Source.lineCol_before_iff hpos hpos', Source.lineCol_inj hpos hpos'⟩
  · intro start stop hstart hstop l
    have hbefore : l.first.Before l.last ↔ start < stop := Source.lineCol_before_iff hstart hstop
    have hequal : l.first = l.last ↔ start = stop := Source.lineCol_inj hstart hstop
    rw [hbefore, hequal]
    exact Nat.le_iff_lt_or_eq.symm

/-- A text with line breaks of all kinds. -/
def mixedSource : Source :=
  { name := "", text := utf8 "ab\r\ncd\n\n\rxyz\r", wellFormed := by decide +kernel }

/-- The end of a text that does not end in a line feed, and the start of its last line. -/
theorem lineCol_exact_mixed :
    let backwards := mixedSource.location ⟨(13 : Nat), (8 : Nat)⟩
    13 ≤ mixedSource.size ∧ 8 ≤ mixedSource.size ∧
      mixedSource.lineCol (13 : Nat) = { line := 4, column := 6 } ∧
      (mixedSource.lineCol (8 : Nat)).Before (mixedSource.lineCol (13 : Nat)) ∧
      ¬ (backwards.first.Before backwards.last ∨ backwards.first = backwards.last) := by
  intro backwards
  have hstop : 13 ≤ mixedSource.size := by decide +kernel
  have hstart : 8 ≤ mixedSource.size := by decide +kernel
  obtain ⟨hexact, horder, hlocation⟩ := lineCol_exact mixedSource
  refine ⟨hstop, hstart, ?_, ?_, ?_⟩
  · rw [(hexact 13 hstop).1]
    decide +kernel
  · exact (horder 8 13 hstart hstop).1.2 (by decide)
  · exact fun h => absurd ((hlocation 13 8 hstop hstart).1 h) (by decide)

/-! ## Lines -/

/-- The bytes `piece` are a line of the text: there is no line feed in them, and what stands before and behind them is
divided from them by one. -/
structure LineAt (text front piece back : Bytes) : Prop where
  text_eq : text = front ++ (piece ++ back)
  unbroken : byte '\n' ∉ piece
  before : ∀ b ∈ front.getLast?, b = byte '\n'
  behind : ∀ b ∈ back.head?, b = byte '\n'

theorem length_splitOn (text : Bytes) : (text.splitOn (byte '\n')).length = text.count (byte '\n') + 1 := by
  induction text with
  | nil => rfl
  | cons b text ih =>
    rw [List.splitOn_cons_eq_if_modifyHead, List.count_cons]
    by_cases hb : (b == byte '\n') = true
    · simp only [hb, if_true, List.length_cons, ih]
    · simp only [hb, Bool.false_eq_true, if_false, List.length_modifyHead, ih, Nat.add_zero]

/-- Every offset is on a line. -/
theorem exists_lineAt {text : Bytes} {pos : Nat} (h : pos ≤ text.length) :
    ∃ front piece back k, LineAt text front piece back ∧ k ≤ piece.length ∧ pos = front.length + k := by
  let inLine : UInt8 → Bool := (· != byte '\n')
  have hfront : (text.take pos).rdropWhile inLine ++ lastLine (text.take pos) = text.take pos :=
    List.rdropWhile_append_rtakeWhile
  have hback : firstLine (text.drop pos) ++ (text.drop pos).dropWhile inLine = text.drop pos :=
    List.takeWhile_append_dropWhile
  -- a run of bytes without a line feed stops at one
  have hstop : ∀ (l : Bytes), ∀ b ∈ (l.dropWhile inLine).head?, b = byte '\n' := by
    intro l b hb
    have hfirst := List.head?_dropWhile_not inLine l
    rw [Option.mem_def.1 hb] at hfirst
    simpa [inLine] using hfirst
  refine ⟨(text.take pos).rdropWhile inLine, lastLine (text.take pos) ++ firstLine (text.drop pos),
    (text.drop pos).dropWhile inLine, (lastLine (text.take pos)).length, ⟨?_, ?_, ?_, ?_⟩, by simp, ?_⟩
  · rw [List.append_assoc, hback, ← List.append_assoc, hfront, List.take_append_drop]
  · rw [List.mem_append, not_or]
    constructor
    · intro hmem
      simpa using List.mem_rtakeWhile_imp hmem
    · intro hmem
      simpa using List.mem_takeWhile_imp hmem
  · rw [List.rdropWhile, List.getLast?_reverse]
    exact hstop _
  · exact hstop _
  · rw [← List.length_append, hfront, List.length_take_of_le h]

namespace LineAt

variable {text front piece back : Bytes}

theorem getElem?_eq (h : LineAt text front piece back) (k : Nat) : text[front.length + k]? = (piece ++ back)[k]? := by
  rw [h.text_eq, List.getElem?_append_right (Nat.le_add_right _ _), Nat.add_sub_cancel_left]

/-- A line is one of the pieces between line feeds. -/
theorem getElem?_splitOn (h : LineAt text front piece back) :
    (text.splitOn (byte '\n'))[front.count (byte '\n')]? = some piece := by
  have hpieces : ∃ more, (piece ++ back).splitOn (byte '\n') = piece :: more := by
    cases hback : back with
    | nil => exact ⟨[], by rw [List.append_nil, List.splitOn_eq_singleton h.unbroken]⟩
    | cons b rest =>
      obtain rfl : b = byte '\n' := h.behind b (by simp [hback])
      exact ⟨_, List.splitOn_append_cons_self_of_not_mem h.unbroken rest⟩
  obtain ⟨more, hmore⟩ := hpieces
  rcases List.eq_nil_or_concat front with hfront | ⟨rest, b, hfront⟩
  · rw [h.text_eq, hfront, List.nil_append, hmore]
    rfl
  -- the line feed at the end of `front` divides the pieces before it from this one
  · rw [List.concat_eq_append] at hfront
    obtain rfl : b = byte '\n' := h.before b (by simp [hfront])
    rw [h.text_eq, hfront, List.append_assoc, List.singleton_append, List.splitOn_append_cons_self, hmore,
      List.count_append, List.count_singleton_self, ← length_splitOn, List.getElem?_append_right (Nat.le_refl _),
      Nat.sub_self, List.getElem?_cons_zero]

/-- Lines start behind line feeds. -/
theorem lineStarts_eq (h : LineAt text front piece back) : ∃ starts, starts.length = front.count (byte '\n') ∧
    lineStarts text = starts ++ front.length :: lineStartsFrom (front.length + piece.length) back := by
  obtain ⟨starts, last, hstarts, hcount, hlast⟩ := lineStarts_eq_concat front
  rw [lastLine_of_break h.before, List.length_nil, Nat.add_zero] at hlast
  refine ⟨starts, hcount, ?_⟩
  rw [h.text_eq, lineStarts_extend, lineStartsFrom_append, lineStartsFrom_of_notMem _ h.unbroken, hstarts, hlast,
    List.nil_append, List.append_assoc, List.singleton_append]

/-- The next line starts behind a line feed, unless the text ends with this one. -/
theorem next_cases (h : LineAt text front piece back) :
    lineStartsFrom (front.length + piece.length) back = [] ∧ text.length = front.length + piece.length ∨
      ∃ more, lineStartsFrom (front.length + piece.length) back = (front.length + piece.length + 1) :: more := by
  cases hback : back with
  | nil =>
    refine .inl ⟨rfl, ?_⟩
    rw [h.text_eq, hback, List.append_nil, List.length_append]
  | cons b rest =>
    obtain rfl : b = byte '\n' := h.behind b (by simp [hback])
    exact .inr ⟨_, by rw [lineStartsFrom, if_pos rfl]⟩

variable {s : Source}

/-- Columns are counted from the start of the line. -/
theorem lineCol_eq (h : LineAt s.text front piece back) {k : Nat} (hk : k ≤ piece.length) :
    s.lineCol ((front.length + k : Nat) : Int) = { line := front.count (byte '\n') + 1, column := k + 1 } := by
  have hsplit : s.text = (front ++ piece.take k) ++ (piece.drop k ++ back) := by
    rw [h.text_eq, List.append_assoc, ← List.append_assoc (piece.take k), List.take_append_drop]
  have hunbroken : byte '\n' ∉ piece.take k := fun hmem => h.unbroken (List.mem_of_mem_take hmem)
  have hpos := Source.lineCol_append hsplit
  rw [List.length_append, List.length_take_of_le hk, List.count_append, List.count_eq_zero_of_not_mem hunbroken,
    lastLine_append _ hunbroken, lastLine_of_break h.before, List.nil_append, List.length_take_of_le hk] at hpos
  rw [hpos, LineCol.mk.injEq]
  push_cast
  omega

end LineAt

namespace Source

variable {s : Source}

/-- Each line of a source can be asked for. -/
theorem line_eq {front piece back : Bytes} (h : LineAt s.text front piece back) :
    s.line (front.count (byte '\n') + 1) = withoutReturn piece := by
  obtain ⟨starts, hlength, hstarts⟩ := h.lineStarts_eq
  have hcount : s.lineCount
      = front.count (byte '\n') + 1 + (lineStartsFrom (front.length + piece.length) back).length := by
    rw [lineCount_eq, hstarts, List.length_append, List.length_cons, hlength]
    omega
  have hstart : s.starts.getD (front.count (byte '\n')) 0 = front.length := by
    rw [starts_getD, hstarts, ← hlength, List.getD_append_right _ _ _ _ (Nat.le_refl _), Nat.sub_self,
      List.getD_cons_zero]
  have hstop : (if front.count (byte '\n') + 1 < s.lineCount then s.starts.getD (front.count (byte '\n') + 1) 0 - 1
      else s.size) = front.length + piece.length := by
    rcases h.next_cases with ⟨hlast, hsize⟩ | ⟨more, hnext⟩
    · rw [hlast, List.length_nil] at hcount
      rw [if_neg (by omega), size, hsize]
    · rw [hnext, List.length_cons] at hcount
      rw [if_pos (by omega), starts_getD, hstarts, hnext, ← hlength, List.getD_append_right _ _ _ _ (Nat.le_succ _),
        Nat.succ_sub (Nat.le_refl _), Nat.sub_self, List.getD_cons_succ, List.getD_cons_zero, Nat.add_sub_cancel]
  have htext : (s.text.drop front.length).take piece.length = piece := by
    rw [h.text_eq, List.drop_left, List.take_left]
  have hindex : ((front.count (byte '\n') : Int) + 1).toNat - 1 = front.count (byte '\n') := by omega
  unfold Source.line withoutReturn
  rw [if_neg (by omega)]
  simp only [hindex, hstart, hstop, Nat.add_sub_cancel_left, htext]

/-- Lines are numbered by the line feeds before them. -/
theorem exists_lineAt_of_lt (s : Source) {i : Nat} (h : i < s.lineCount) :
    ∃ front piece back, LineAt s.text front piece back ∧ front.count (byte '\n') = i := by
  rw [lineCount_eq] at h
  obtain ⟨starts, start, more, hsplit, hlength⟩ : ∃ starts start more,
      lineStarts s.text = starts ++ start :: more ∧ starts.length = i :=
    ⟨_, _, _, by rw [← List.drop_eq_getElem_cons h, List.take_append_drop], List.length_take_of_le (Nat.le_of_lt h)⟩
  have hsorted := lineStarts_sorted s.text
  rw [hsplit] at hsorted
  obtain ⟨-, hbehind, hupTo⟩ := List.pairwise_append.1 hsorted
  have hstart : start ≤ s.text.length := mem_lineStarts (hsplit ▸ by simp)
  -- the line on which the start of the line is
  obtain ⟨front, piece, back, k, hline, hk, hpos⟩ := exists_lineAt hstart
  refine ⟨front, piece, back, hline, ?_⟩
  have hnumber : s.lineCol (start : Int) = { line := starts.length + 1, column := (start : Int) - start + 1 } := by
    refine lineCol_eq hsplit ?_ ?_
    · intro j hj
      rcases List.mem_append.1 hj with hj | hj
      · exact Int.ofNat_le.2 (Nat.le_of_lt (hupTo j hj start List.mem_cons_self))
      · exact Int.ofNat_le.2 (Nat.le_of_eq (List.mem_singleton.1 hj))
    · intro j hj
      exact Int.ofNat_lt.2 ((List.pairwise_cons.1 hbehind).1 j hj)
  rw [hpos, hline.lineCol_eq hk, LineCol.mk.injEq] at hnumber
  omega

end Source

/-! ## Bytes of lines -/

/-- The byte at the offset belongs to the end of a line: it is a line feed, or a carriage return with a line feed or
nothing behind it. -/
def EndsLine (text : Bytes) (pos : Nat) : Prop :=
  text[pos]? = some (byte '\n') ∨ text[pos]? = some (byte '\r') ∧ ∀ b ∈ text[pos + 1]?, b = byte '\n'

instance (text : Bytes) (pos : Nat) : Decidable (EndsLine text pos) := inferInstanceAs (Decidable (_ ∨ _ ∧ _))

theorem getElem?_withoutReturn (piece : Bytes) (k : Nat) :
    (withoutReturn piece)[k]? = if k + 1 = piece.length ∧ piece[k]? = some (byte '\r') then none else piece[k]? := by
  unfold withoutReturn
  rw [List.getLast?_eq_getElem?]
  by_cases hreturn : piece[piece.length - 1]? = some (byte '\r')
  · rw [if_pos hreturn, List.getElem?_dropLast]
    by_cases hlast : k + 1 = piece.length
    · have hk : piece[k]? = some (byte '\r') := by
        rw [← hreturn, ← hlast, Nat.add_sub_cancel]
      rw [if_neg (by omega), if_pos ⟨hlast, hk⟩]
    · have hnot : ¬ (k + 1 = piece.length ∧ piece[k]? = some (byte '\r')) := fun h => hlast h.1
      rw [if_neg hnot]
      by_cases hk : k < piece.length - 1
      · rw [if_pos hk]
      · rw [if_neg hk, List.getElem?_eq_none (by omega)]
  · have hk : ¬ (k + 1 = piece.length ∧ piece[k]? = some (byte '\r')) := by
      rintro ⟨hlast, hk⟩
      rw [← hlast, Nat.add_sub_cancel] at hreturn
      exact hreturn hk
    rw [if_neg hreturn, if_neg hk]

namespace LineAt

variable {text front piece back : Bytes}

/-- A line ends with its last byte if that is a carriage return, or else behind it. -/
theorem endsLine_iff (h : LineAt text front piece back) {k : Nat} (hk : k ≤ piece.length)
    (hpos : front.length + k < text.length) :
    EndsLine text (front.length + k) ↔ k = piece.length ∨ k + 1 = piece.length ∧ piece[k]? = some (byte '\r') := by
  unfold EndsLine
  rw [Nat.add_assoc, h.getElem?_eq, h.getElem?_eq]
  rcases Nat.lt_or_eq_of_le hk with hlt | rfl
  · have hbreak : piece[k]? ≠ some (byte '\n') := fun heq => h.unbroken (List.mem_of_getElem? heq)
    rw [List.getElem?_append_left hlt]
    by_cases hlast : k + 1 = piece.length
    · have hnext : ∀ b ∈ (piece ++ back)[k + 1]?, b = byte '\n' := by
        rw [hlast, List.getElem?_append_right (Nat.le_refl _), Nat.sub_self, ← List.head?_eq_getElem?]
        exact h.behind
      simp only [hbreak, false_or, hlast, true_and, Nat.ne_of_lt hlt]
      exact and_iff_left (hlast ▸ hnext)
    · have hnext : ¬ ∀ b ∈ (piece ++ back)[k + 1]?, b = byte '\n' := by
        have hlt' : k + 1 < piece.length := by omega
        intro hall
        rw [List.getElem?_append_left hlt', List.getElem?_eq_getElem hlt'] at hall
        exact h.unbroken (hall _ rfl ▸ List.getElem_mem hlt')
      simp only [hbreak, false_or, hlast, false_and, Nat.ne_of_lt hlt, hnext, and_false]
  · obtain ⟨b, rest, hback⟩ : ∃ b rest, back = b :: rest := by
      refine List.exists_cons_of_ne_nil ?_
      rintro rfl
      rw [h.text_eq, List.append_nil, List.length_append] at hpos
      exact Nat.lt_irrefl _ hpos
    obtain rfl : b = byte '\n' := h.behind b (by simp [hback])
    simp [hback]

end LineAt

namespace Source

variable {s : Source}

/-- **A byte stands in its line at its column**, unless it belongs to the end of the line. -/
theorem getElem?_line {pos : Nat} (h : pos < s.size) :
    (¬ EndsLine s.text pos → (s.line (s.lineCol pos).line)[((s.lineCol pos).column - 1).toNat]? = s.text[pos]?) ∧
      (EndsLine s.text pos → (s.line (s.lineCol pos).line)[((s.lineCol pos).column - 1).toNat]? = none) := by
  obtain ⟨front, piece, back, k, hline, hk, rfl⟩ := exists_lineAt (Nat.le_of_lt h)
  have hcolumn : ((k : Int) + 1 - 1).toNat = k := by omega
  rw [hline.lineCol_eq hk, line_eq hline, hcolumn, getElem?_withoutReturn, hline.endsLine_iff hk h]
  constructor
  · intro hends
    rw [not_or] at hends
    have hlt : k < piece.length := Nat.lt_of_le_of_ne hk hends.1
    rw [if_neg hends.2, hline.getElem?_eq, List.getElem?_append_left hlt]
  · rintro (rfl | hreturn)
    · rw [List.getElem?_eq_none (Nat.le_refl _), ite_self]
    · rw [if_pos hreturn]

end Source

/-- **Lines agree with the text and with positions.** The lines of a source are the pieces between its line feeds, each
without a carriage return at its end, and there are no others. A byte stands in the line of its position at the column
of its position, unless it belongs to the end of the line, which is not in the line. -/
theorem line_exact (s : Source) :
    let pieces := s.text.splitOn (byte '\n')
    pieces.length = s.lineCount ∧
    (∀ n : Int, 1 ≤ n → n ≤ s.lineCount →
      ∃ piece, pieces[n.toNat - 1]? = some piece ∧ s.line n = withoutReturn piece) ∧
    (∀ n : Int, n < 1 ∨ s.lineCount < n → s.line n = []) ∧
    ∀ pos : Nat, pos < s.size →
      let place := s.lineCol pos
      (¬ EndsLine s.text pos → (s.line place.line)[(place.column - 1).toNat]? = s.text[pos]?) ∧
        (EndsLine s.text pos → (s.line place.line)[(place.column - 1).toNat]? = none) := by
  refine ⟨?_, ?_, ?_, ?_⟩
  · rw [length_splitOn, s.lineCount_eq_count]
  · intro n hfirst hlast
    obtain ⟨front, piece, back, hline, hcount⟩ := s.exists_lineAt_of_lt (i := n.toNat - 1) (by omega)
    have hn : n = (front.count (byte '\n') : Int) + 1 := by omega
    exact ⟨piece, hcount ▸ hline.getElem?_splitOn, hn ▸ Source.line_eq hline⟩
  · intro n hn
    unfold Source.line
    rw [if_pos hn]
  · intro pos hpos
    exact Source.getElem?_line hpos

/-- The last line of the text, which both starts and ends with a carriage return. -/
theorem line_exact_mixed :
    let first := mixedSource.lineCol (8 : Nat)
    let last := mixedSource.lineCol (12 : Nat)
    (4 : Int) ≤ mixedSource.lineCount ∧
      (∃ piece, (mixedSource.text.splitOn (byte '\n'))[3]? = some piece ∧ mixedSource.line 4 = withoutReturn piece) ∧
      ¬ EndsLine mixedSource.text 8 ∧ EndsLine mixedSource.text 12 ∧
      (mixedSource.line first.line)[(first.column - 1).toNat]? = mixedSource.text[8]? ∧
      (mixedSource.line last.line)[(last.column - 1).toNat]? = none := by
  intro first last
  have hlast : (4 : Int) ≤ mixedSource.lineCount := by decide +kernel
  have hfirst : ¬ EndsLine mixedSource.text 8 := by decide +kernel
  have hends : EndsLine mixedSource.text 12 := by decide +kernel
  obtain ⟨-, hline, -, hbytes⟩ := line_exact mixedSource
  exact ⟨hlast, hline 4 (by decide) hlast, hfirst, hends, (hbytes 8 (by decide +kernel)).1 hfirst,
    (hbytes 12 (by decide +kernel)).2 hends⟩

end SmallJava
