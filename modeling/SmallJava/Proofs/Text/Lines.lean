import Mathlib.Data.List.GetD
import SmallJava.Source

/-!
# Lines of a text

The line of an offset is found by binary search among the offsets at which lines start. These are in ascending order,
so the search comes to the border between the lines that start at or before the offset and those behind it
(`bisect_eq`, `Source.lineCol_eq`).

If a text ends in a line break, what follows it starts a new line, and its lines are those of what follows
(`lineStarts_append`). So positions in a text do not change when something is written behind it (`lineCol_of_le`), and
positions behind a line break are moved by a number of lines (`lineCol_add`).
-/

namespace SmallJava

/-! ## Binary search -/

/-- **Binary search finds the border** between indices where the test fails and indices where it holds. -/
theorem bisect_eq {p : Nat → Bool} {lo hi border : Nat} (hlo : lo ≤ border) (hhi : border ≤ hi)
    (hbefore : ∀ i, lo ≤ i → i < border → p i = false) (hfrom : ∀ i, border ≤ i → i < hi → p i = true) :
    bisect p lo hi = border := by
  suffices h : ∀ rounds lo hi, hi - lo ≤ rounds → lo ≤ border → border ≤ hi →
      (∀ i, lo ≤ i → i < border → p i = false) → (∀ i, border ≤ i → i < hi → p i = true) →
      bisect.go p rounds lo hi = border from
    h (hi - lo) lo hi (Nat.le_refl _) hlo hhi hbefore hfrom
  intro rounds
  induction rounds with
  | zero =>
    intro lo hi hrounds hlo hhi _ _
    rw [bisect.go]
    omega
  | succ rounds ih =>
    intro lo hi hrounds hlo hhi hbefore hfrom
    rw [bisect.go]
    split
    · next hlt =>
      dsimp only
      by_cases hmid : border ≤ (lo + hi) / 2
      · rw [hfrom _ hmid (by omega), if_pos rfl]
        exact ih _ _ (by omega) hlo hmid hbefore fun i hi' hlt' => hfrom i hi' (by omega)
      · rw [hbefore _ (by omega) (by omega), if_neg (by decide)]
        exact ih _ _ (by omega) (by omega) hhi (fun i hi' => hbefore i (by omega)) hfrom
    · omega

/-! ## Where lines start -/

/-- A line starts behind a byte of the text. -/
theorem mem_lineStartsFrom {offset i : Nat} {text : Bytes} (h : i ∈ lineStartsFrom offset text) :
    offset < i ∧ i ≤ offset + text.length := by
  induction text generalizing offset with
  | nil => simp [lineStartsFrom] at h
  | cons b r ih =>
    simp only [lineStartsFrom] at h
    simp only [List.length_cons]
    split at h
    · rcases List.mem_cons.1 h with rfl | h
      · omega
      · have := ih h
        omega
    · have := ih h
      omega

theorem lineStartsFrom_sorted (offset : Nat) (text : Bytes) : (lineStartsFrom offset text).Pairwise (· < ·) := by
  induction text generalizing offset with
  | nil => exact .nil
  | cons b r ih =>
    rw [lineStartsFrom]
    split
    · exact List.pairwise_cons.2 ⟨fun i hi => (mem_lineStartsFrom hi).1, ih _⟩
    · exact ih _

theorem lineStartsFrom_add (offset n : Nat) (text : Bytes) :
    lineStartsFrom (offset + n) text = (lineStartsFrom offset text).map (· + n) := by
  induction text generalizing offset with
  | nil => rfl
  | cons b r ih =>
    have hnext : offset + n + 1 = offset + 1 + n := by omega
    simp only [lineStartsFrom, hnext, ih]
    split
    · rfl
    · rfl

/-- Lines of a text, and then those of what follows. -/
theorem lineStartsFrom_append (offset : Nat) (a b : Bytes) :
    lineStartsFrom offset (a ++ b) = lineStartsFrom offset a ++ lineStartsFrom (offset + a.length) b := by
  induction a generalizing offset with
  | nil => rfl
  | cons x a ih =>
    have hnext : offset + 1 + a.length = offset + (x :: a).length := by
      simp only [List.length_cons]
      omega
    rw [List.cons_append, lineStartsFrom, lineStartsFrom, ih, hnext]
    split
    · rfl
    · rfl

/-- Without a line break no other line starts. -/
theorem lineStartsFrom_of_notMem {text : Bytes} (offset : Nat) (h : byte '\n' ∉ text) :
    lineStartsFrom offset text = [] := by
  induction text generalizing offset with
  | nil => rfl
  | cons b r ih =>
    obtain ⟨hb, hr⟩ := List.ne_and_not_mem_of_not_mem_cons h
    rw [lineStartsFrom, if_neg (Ne.symm hb), ih _ hr]

theorem mem_lineStarts {i : Nat} {text : Bytes} (h : i ∈ lineStarts text) : i ≤ text.length := by
  rcases List.mem_cons.1 h with rfl | h
  · exact Nat.zero_le _
  · have := (mem_lineStartsFrom h).2
    omega

/-- Lines start one behind the other. -/
theorem lineStarts_sorted (text : Bytes) : (lineStarts text).Pairwise (· < ·) :=
  List.pairwise_cons.2 ⟨fun _ h => (mem_lineStartsFrom h).1, lineStartsFrom_sorted 0 text⟩

theorem lineStarts_extend (a b : Bytes) : lineStarts (a ++ b) = lineStarts a ++ lineStartsFrom a.length b := by
  rw [lineStarts, lineStarts, lineStartsFrom_append, Nat.zero_add, List.cons_append]

/-- The lines of two texts with a line break between them. -/
theorem lineStarts_append (a b : Bytes) :
    lineStarts (a ++ byte '\n' :: b) = lineStarts a ++ (lineStarts b).map (· + (a.length + 1)) := by
  have hbreak : lineStartsFrom a.length (byte '\n' :: b)
      = (a.length + 1) :: lineStartsFrom (0 + (a.length + 1)) b := by
    rw [lineStartsFrom, if_pos rfl, Nat.zero_add]
  rw [lineStarts_extend, hbreak, lineStartsFrom_add]
  simp [lineStarts]

/-- Numbers in ascending order have a border between those up to a bound and those behind it. -/
theorem exists_border {starts : List Nat} (h : starts.Pairwise (· < ·)) (bound : Int) :
    ∃ xs ys, starts = xs ++ ys ∧ (∀ i ∈ xs, ((i : Nat) : Int) ≤ bound) ∧ ∀ i ∈ ys, bound < ((i : Nat) : Int) := by
  induction h with
  | nil => exact ⟨[], [], rfl, by simp, by simp⟩
  | @cons x starts hx _ ih =>
    by_cases hle : (x : Int) ≤ bound
    · obtain ⟨xs, ys, rfl, hxs, hys⟩ := ih
      exact ⟨x :: xs, ys, rfl, List.forall_mem_cons.2 ⟨hle, hxs⟩, hys⟩
    · refine ⟨[], x :: starts, rfl, by simp, List.forall_mem_cons.2 ⟨by omega, fun i hi => ?_⟩⟩
      have := hx i hi
      omega

/-! ## Lines and columns -/

namespace Source

variable {s a b : Source} {offset : Int}

theorem starts_toList (s : Source) : s.starts.toList = lineStarts s.text := by rw [s.starts_eq]

/-- There are as many lines as starts of lines. -/
theorem lineCount_eq (s : Source) : s.lineCount = (lineStarts s.text).length := by
  rw [lineCount, ← s.starts_toList, Array.length_toList]

theorem starts_getD (s : Source) (i : Nat) : s.starts.getD i 0 = (lineStarts s.text).getD i 0 := by
  rw [← s.starts_toList, Array.getD_eq_getD_getElem?, List.getD_eq_getElem?_getD, Array.getElem?_toList]

/-- The line of an offset is the last of those that start at or before it. -/
theorem lineCol_eq {xs ys : List Nat} {x : Nat} (h : lineStarts s.text = xs ++ x :: ys)
    (hx : ∀ i ∈ xs ++ [x], (i : Int) ≤ offset) (hy : ∀ i ∈ ys, offset < (i : Int)) :
    s.lineCol offset = { line := xs.length + 1, column := offset - x + 1 } := by
  have hsplit : lineStarts s.text = (xs ++ [x]) ++ ys := by simp [h]
  have hget : ∀ i, s.starts.getD i 0 = ((xs ++ [x]) ++ ys).getD i 0 := fun i => hsplit ▸ s.starts_getD i
  have hlength : (xs ++ [x]).length = xs.length + 1 := List.length_append
  have hsize : s.starts.size = (xs ++ [x]).length + ys.length := by
    rw [← Array.length_toList, s.starts_toList, hsplit, List.length_append]
  have hborder : bisect (fun i => offset < (s.starts.getD i 0 : Nat)) 0 s.starts.size = xs.length + 1 := by
    refine bisect_eq (Nat.zero_le _) (by omega) ?_ ?_
    · intro i _ hi
      have hmem : s.starts.getD i 0 ∈ xs ++ [x] := by
        rw [hget, List.getD_append _ _ _ _ (by omega), List.getD_eq_getElem _ _ (by omega)]
        exact List.getElem_mem _
      simpa using hx _ hmem
    · intro i hi hlt
      have hmem : s.starts.getD i 0 ∈ ys := by
        rw [hget, List.getD_append_right _ _ _ _ (by omega), List.getD_eq_getElem _ _ (by omega)]
        exact List.getElem_mem _
      simpa using hy _ hmem
  have hlast : s.starts.getD xs.length 0 = x := by
    rw [hget, List.getD_append _ _ _ _ (by omega), List.getD_append_right _ _ _ _ (Nat.le_refl _), Nat.sub_self]
    rfl
  unfold lineCol
  dsimp only
  rw [hborder, Nat.add_sub_cancel, hlast]

/-- An offset stands on one of the lines. -/
theorem exists_line (s : Source) (h : 0 ≤ offset) : ∃ xs x ys, lineStarts s.text = xs ++ x :: ys ∧
    (∀ i ∈ xs ++ [x], ((i : Nat) : Int) ≤ offset) ∧ ∀ i ∈ ys, offset < ((i : Nat) : Int) := by
  obtain ⟨xs, ys, hsplit, hx, hy⟩ := exists_border (lineStarts_sorted s.text) offset
  rcases List.eq_nil_or_concat xs with rfl | ⟨xs, x, rfl⟩
  · -- the first line starts at the start of the text
    have hfirst : (0 : Nat) ∈ ys := by
      rw [List.nil_append] at hsplit
      rw [← hsplit]
      exact List.mem_cons_self
    have := hy 0 hfirst
    omega
  · exact ⟨xs, x, ys, by simpa using hsplit, by simpa using hx, hy⟩

/-- There is no line behind the last one. -/
theorem line_le (s : Source) (h : 0 ≤ offset) : (s.lineCol offset).line ≤ s.lineCount := by
  obtain ⟨xs, x, ys, hsplit, hx, hy⟩ := s.exists_line h
  rw [lineCol_eq hsplit hx hy, lineCount_eq, hsplit, List.length_append, List.length_cons]
  push_cast
  omega

/-- Positions do not depend on what stands behind them. -/
theorem lineCol_of_le {c : Source} {k : Bytes} (hc : c.text = a.text ++ k) (h : 0 ≤ offset) (hle : offset ≤ a.size) :
    c.lineCol offset = a.lineCol offset := by
  obtain ⟨xs, x, ys, hsplit, hx, hy⟩ := a.exists_line h
  rw [lineCol_eq hsplit hx hy]
  have hstarts : lineStarts c.text = xs ++ x :: (ys ++ lineStartsFrom a.text.length k) := by
    rw [hc, lineStarts_extend, hsplit, List.append_assoc, List.cons_append]
  refine lineCol_eq hstarts hx fun i hi => ?_
  rcases List.mem_append.1 hi with hi | hi
  · exact hy i hi
  · have := (mem_lineStartsFrom hi).1
    rw [size] at hle
    omega

/-- Behind a line break, positions are moved by the lines in front of it. -/
theorem lineCol_add {c : Source} (hc : c.text = a.text ++ byte '\n' :: b.text) (h : 0 ≤ offset) :
    c.lineCol (offset + (a.size + 1))
      = { line := (b.lineCol offset).line + a.lineCount, column := (b.lineCol offset).column } := by
  obtain ⟨xs, x, ys, hsplit, hx, hy⟩ := b.exists_line h
  have hstarts : lineStarts c.text
      = (lineStarts a.text ++ xs.map (· + (a.text.length + 1)))
        ++ (x + (a.text.length + 1)) :: ys.map (· + (a.text.length + 1)) := by
    simp [hc, lineStarts_append, hsplit]
  rw [lineCol_eq hsplit hx hy, lineCol_eq hstarts]
  · simp only [List.length_append, List.length_map, a.lineCount_eq, size, LineCol.mk.injEq]
    push_cast
    omega
  · intro i hi
    simp only [List.append_assoc, List.mem_append, List.mem_map, List.mem_singleton] at hi
    rcases hi with hi | ⟨k, hk, rfl⟩ | rfl
    · have := mem_lineStarts hi
      rw [size]
      omega
    · have := hx k (by simp [hk])
      rw [size]
      omega
    · have := hx x (by simp)
      rw [size]
      omega
  · intro i hi
    obtain ⟨k, hk, rfl⟩ := List.mem_map.1 hi
    have := hy k hk
    rw [size]
    omega

/-- A text without line breaks is one line. -/
theorem lineStarts_of_notMem (h : byte '\n' ∉ s.text) : lineStarts s.text = [0] := by
  rw [lineStarts, lineStartsFrom_of_notMem 0 h]

theorem lineCount_of_notMem (h : byte '\n' ∉ s.text) : s.lineCount = 1 := by
  rw [lineCount_eq, lineStarts_of_notMem h, List.length_singleton]

/-- On a single line, columns count bytes. -/
theorem lineCol_of_notMem (h : byte '\n' ∉ s.text) (hoffset : 0 ≤ offset) :
    s.lineCol offset = { line := 1, column := offset + 1 } := by
  have hstarts : lineStarts s.text = [] ++ 0 :: [] := lineStarts_of_notMem h
  simpa using lineCol_eq hstarts (by simpa using hoffset) (by simp)

end Source

/-! ## The text of a line -/

/-- The text up to its first line break. -/
def firstLine (text : Bytes) : Bytes := text.takeWhile (· != byte '\n')

/-- A line without a carriage return at its end. -/
def withoutReturn (line : Bytes) : Bytes := if line.getLast? = some (byte '\r') then line.dropLast else line

theorem withoutReturn_isPrefix (line : Bytes) : withoutReturn line <+: line := by
  unfold withoutReturn
  split
  · exact List.dropLast_prefix line
  · exact List.prefix_rfl

end SmallJava
